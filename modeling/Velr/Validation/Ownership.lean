import Velr.Common.Marks
import Velr.PageWriter.Writer
import Velr.Validation.PageReader
import Velr.Validation.Pointers

/-!
# The ownership check

`Header::read`, `PageSet`, `ownership_start` and `raw_page_ownership` of `validation.rs`: every page
of the file is marked in one bitmap where something refers to it, and a page that is marked twice or
never fails the check. Both loops whose end the file decides, over the trunks of the freelist and
over the pages pending of a tree, mark a page in each round; they end because a set of pages counts
what it holds.
-/

namespace Velr.Validation

open ByteString
open IndexStats (Failure)
open Reading (Read File)

/-! ## The header -/

/-- `Header` -/
structure DatabaseHeader extends Header where
  usableSize : Nat
  firstFree : Nat
  freePages : Nat
  ordinaryPages : Bool
deriving DecidableEq

/-- `b"SQLite format 3\0"` -/
def magic : Bytes := [83, 81, 76, 105, 116, 101, 32, 102, 111, 114, 109, 97, 116, 32, 51, 0]

/-- `error` -/
def problem (text : String) : Failure := .error s!"offline import validation error: {text}"

/-- `Header::read`: the first 100 bytes of a file of `length` bytes. -/
def DatabaseHeader.parse (bytes : Bytes) (length : Nat) : Except Failure DatabaseHeader :=
  if slice bytes 0 16 ≠ magic then .error (.error "invalid SQLite database header")
  else
    let encodedSize := ofBE (slice bytes 16 2)
    let pageSize := if encodedSize = 1 then 65536 else encodedSize
    if ¬(512 ≤ pageSize ∧ pageSize ≤ 65536) ∨ ¬pageSize.isPowerOfTwo then
      .error (.error "invalid SQLite page size")
    else
      let read := fun offset => ofBE (slice bytes offset 4)
      let pages := read 28
      if pages = 0 ∨ length ≠ pages * pageSize then
        .error (.error "database header page count does not match file size")
      else
        .ok {
          pageSize, pages
          -- a page has 512 bytes or more
          usableSize := pageSize - ofBE (slice bytes 20 1)
          firstFree := read 32
          freePages := read 36
          ordinaryPages := read 52 = 0 ∧ read 64 = 0 }

/-- `Header::read` -/
def DatabaseHeader.read (file : File) : Except Failure DatabaseHeader :=
  match Read.readExact file 100 with
  | (none, _) => .error (problem "failed to fill whole buffer")
  | (some bytes, file) => DatabaseHeader.parse bytes file.bytes.length

/-- `Header::bitmap_bytes` -/
def Header.bitmapBytes (header : Header) : Nat := header.pages / 8 + 1

/-! ## The set of pages -/

/-- `PageSet`: a byte for each eight pages, and as many pages marked as are counted. -/
structure PageSet where
  bits : List (BitVec 8)
  pages : Nat
  marked : Nat
  length : bits.length = pages / 8 + 1
  counted : marked = Bitmaps.ones pages fun i => Marks.bit bits (i + 1)

namespace PageSet

variable {set set' : PageSet} {page : Nat}

/-- `PageSet::new` -/
def new (header : Header) : PageSet where
  bits := List.replicate header.bitmapBytes 0
  pages := header.pages
  marked := 0
  length := List.length_replicate
  counted := by
    refine (Bitmaps.ones_eq_zero fun i _ => ?_).symm
    exact Marks.bit_replicate _ _

/-- No more pages are marked than there are. -/
theorem marked_le (set : PageSet) : set.marked ≤ set.pages := by
  rw [set.counted]
  exact Bitmaps.ones_le _ _

/-- The byte of a page in range. -/
theorem index_lt (set : PageSet) (h : ¬(page = 0 ∨ set.pages < page)) :
    page / 8 < set.bits.length := by
  rw [set.length]
  omega

/-- `page` is marked. -/
def Has (set : PageSet) (page : Nat) : Prop := Marks.bit set.bits page = true

instance : Decidable (set.Has page) := inferInstanceAs (Decidable (_ = _))

/-- The bit of a page tells whether it is in the set. -/
theorem and_mask_eq_zero_iff (h : page / 8 < set.bits.length) :
    set.bits.get ⟨page / 8, h⟩ &&& Marks.mask page = 0 ↔ ¬set.Has page := by
  rw [Marks.and_mask_eq_zero, Has, Marks.bit, List.getElem?_eq_getElem h, Option.getD_some,
    List.get_eq_getElem, Bool.not_eq_true]

/-- The set with one more page. -/
def insert (set : PageSet) (page : Nat) (hrange : ¬(page = 0 ∨ set.pages < page))
    (hfree : ¬set.Has page) : PageSet where
  bits := Marks.mark set.bits page
  pages := set.pages
  marked := set.marked + 1
  length := by rw [Marks.length_mark, set.length]
  counted := by
    obtain ⟨i, rfl⟩ : ∃ i, page = i + 1 := ⟨page - 1, by omega⟩
    rw [set.counted, Marks.ones_bit_mark (set.index_lt hrange) (Bool.not_eq_true _ ▸ hfree)
      (by omega)]

/-- `PageSet::mark` -/
def mark (set : PageSet) (page : Nat) : Except Failure PageSet :=
  if hrange : page = 0 ∨ set.pages < page then
    .error (.error s!"database references out-of-range page {page}")
  else if hfree : set.bits.get ⟨page / 8, set.index_lt hrange⟩ &&& Marks.mask page ≠ 0 then
    .error (.error s!"database page {page} is referenced more than once")
  else
    .ok (set.insert page hrange ((and_mask_eq_zero_iff _).mp (not_not.mp hfree)))

/-- `PageSet::finish` -/
def finish (set : PageSet) : Except Failure Unit :=
  if set.marked ≠ set.pages then
    match (List.range' 1 set.pages).find? fun page => !set.Has page with
    | some page => .error (.error s!"database page {page} is never referenced")
    | none => .ok ()
  else .ok ()

/-- A page that is marked is one more. -/
theorem mark_eq_ok (h : set.mark page = .ok set') :
    set'.pages = set.pages ∧ set'.marked = set.marked + 1 := by
  rw [mark] at h
  split at h
  case isTrue => cases h
  case isFalse =>
    split at h
    case isTrue => cases h
    case isFalse =>
      cases h
      exact ⟨rfl, rfl⟩

end PageSet

/-! ## The freelist -/

/-- `ownership_start`: `read` -/
def trunkWord (bytes : Bytes) (offset : Nat) : Except Failure Nat :=
  if bytes.length < offset + 4 then .error .panic else .ok (ofBE (slice bytes offset 4))

/-- `free_count.checked_add(1)` -/
def nextCount (count : Nat) : Except Failure Nat :=
  if count + 1 < 2 ^ 32 then .ok (count + 1) else .error (.error "freelist count overflow")

/-- `ownership_start`: a free page is marked and counted. -/
def freePage (set : PageSet) (count page : Nat) : Except Failure (PageSet × Nat) := do
  let set ← set.mark page
  let count ← nextCount count
  .ok (set, count)

/-- `ownership_start`: a leaf of a trunk. -/
def freeLeaf (bytes : Bytes) (state : PageSet × Nat) (leaf : Nat) :
    Except Failure (PageSet × Nat) := do
  let page ← trunkWord bytes (8 + leaf * 4)
  freePage state.1 state.2 page

/-- `ownership_start`: the bytes of a trunk page. -/
def trunkPage (header : DatabaseHeader) (file : File) (trunk : Nat) :
    Except Failure (Bytes × File) :=
  match Read.readExact (file.seek ((trunk - 1) * header.pageSize)) header.pageSize with
  | (none, _) => .error (problem "failed to fill whole buffer")
  | (some bytes, file) => .ok (bytes, file)

/-- `ownership_start`: a trunk with its leaves, and the next trunk. -/
def freeTrunk (header : DatabaseHeader) (file : File) (set : PageSet) (count trunk : Nat) :
    Except Failure (File × (PageSet × Nat) × Nat) := do
  let state ← freePage set count trunk
  let (bytes, file) ← trunkPage header file trunk
  let leaves ← trunkWord bytes 4
  if (← checkedSub header.usableSize 8) / 4 < leaves then
    .error (.error "database freelist trunk contains too many leaves")
  else do
    let state ← (List.range leaves).foldlM (freeLeaf bytes) state
    let next ← trunkWord bytes 0
    .ok (file, state, next)

/-- A free page is marked once. -/
theorem freePage_eq_ok {set : PageSet} {count page : Nat} {state : PageSet × Nat}
    (h : freePage set count page = .ok state) :
    state.1.pages = set.pages ∧ state.1.marked = set.marked + 1 := by
  obtain ⟨set', hmark, h⟩ := Results.bind_eq_ok_iff.mp h
  obtain ⟨count', -, h⟩ := Results.bind_eq_ok_iff.mp h
  cases h
  exact PageSet.mark_eq_ok hmark

/-- Leaves are marked too. -/
theorem freeLeaves_eq_ok {bytes : Bytes} : ∀ {leaves : List Nat} {state state' : PageSet × Nat},
    leaves.foldlM (freeLeaf bytes) state = .ok state' →
      state'.1.pages = state.1.pages ∧ state.1.marked ≤ state'.1.marked
  | [], _, _, h => by
      cases h
      exact ⟨rfl, Nat.le_refl _⟩
  | leaf :: leaves, state, state', h => by
      rw [List.foldlM_cons] at h
      obtain ⟨state₁, hleaf, h⟩ := Results.bind_eq_ok_iff.mp h
      obtain ⟨page, -, hleaf⟩ := Results.bind_eq_ok_iff.mp hleaf
      obtain ⟨hpages, hmarked⟩ := freePage_eq_ok hleaf
      obtain ⟨hpages', hmarked'⟩ := freeLeaves_eq_ok h
      exact ⟨hpages'.trans hpages, by omega⟩

/-- Each trunk marks a page. -/
theorem freeTrunk_eq_ok {header : DatabaseHeader} {file file' : File} {set : PageSet}
    {state : PageSet × Nat} {count trunk next : Nat}
    (h : freeTrunk header file set count trunk = .ok (file', state, next)) :
    state.1.pages = set.pages ∧ set.marked < state.1.marked := by
  obtain ⟨state₁, hfirst, h⟩ := Results.bind_eq_ok_iff.mp h
  obtain ⟨⟨bytes, file₁⟩, -, h⟩ := Results.bind_eq_ok_iff.mp h
  obtain ⟨leaves, -, h⟩ := Results.bind_eq_ok_iff.mp h
  obtain ⟨limit, -, h⟩ := Results.bind_eq_ok_iff.mp h
  split at h
  case isTrue => cases h
  case isFalse =>
    obtain ⟨state₂, hleaves, h⟩ := Results.bind_eq_ok_iff.mp h
    obtain ⟨next₁, -, h⟩ := Results.bind_eq_ok_iff.mp h
    cases h
    obtain ⟨hpages, hmarked⟩ := freePage_eq_ok hfirst
    obtain ⟨hpages', hmarked'⟩ := freeLeaves_eq_ok hleaves
    exact ⟨hpages'.trans hpages, by omega⟩

/-- `ownership_start`: the trunks from `trunk` on. -/
def freelist (header : DatabaseHeader) (file : File) (set : PageSet) (count trunk : Nat) :
    Except Failure (PageSet × Nat) :=
  if trunk = 0 then .ok (set, count)
  else
    match _hround : freeTrunk header file set count trunk with
    | .error failure => .error failure
    | .ok (file, (set, count), next) => freelist header file set count next
termination_by set.pages - set.marked
decreasing_by
  obtain ⟨hpages, hmarked⟩ := freeTrunk_eq_ok _hround
  have hle := PageSet.marked_le set
  dsimp only at hpages hmarked
  omega

/-- `ownership_start`: the page that holds the pending byte, if the file reaches that far. -/
def reservedPage (header : DatabaseHeader) : List Nat :=
  if pendingPage header.pageSize ≤ header.pages then
    [pendingPage header.pageSize]
  else []

/-- `ownership_start` -/
def ownershipStart (file : File) (header : DatabaseHeader) : Except Failure PageSet := do
  let set ← (reservedPage header).foldlM PageSet.mark (PageSet.new header.toHeader)
  let (set, count) ← freelist header file set 0 header.firstFree
  if count ≠ header.freePages then
    .error (.error "database freelist count does not match its header")
  else .ok set

/-! ## The trees -/

/-- `MAX_TREE_DEPTH` -/
def maxTreeDepth : Nat := 20

/-- What the walk over the trees changes. -/
structure Walk where
  pages : PageSet
  reader : PageReader

/-- `reader.page(page)?` -/
def PageReader.fetch (reader : PageReader) (page : Nat) : Except Failure (Bytes × PageReader) :=
  match reader.page page with
  | (.error failure, _) => .error failure
  | (.ok bytes, reader) => .ok (bytes, reader)

/-- `raw_page_ownership`: the pages of an overflow chain. -/
def overflowChain : Nat → Nat → Walk → Except Failure Walk
  | 0, _, walk => .ok walk
  | count + 1, overflow, walk => do
      let pages ← walk.pages.mark overflow
      let (bytes, reader) ← walk.reader.fetch overflow
      let overflow ← word bytes 0
      if count = 0 ∧ overflow ≠ 0 then
        .error (.error "database overflow chain exceeds its record payload")
      else overflowChain count overflow { pages, reader }

/-- `raw_page_ownership`: a page that was pending, and its children. -/
def visit (header : DatabaseHeader) (page depth : Nat) (walk : Walk) :
    Except Failure (List Nat × Walk) :=
  if maxTreeDepth ≤ depth then
    .error (.error "database B-tree exceeds SQLite's maximum depth")
  else do
    let pages ← walk.pages.mark page
    let (bytes, reader) ← walk.reader.fetch page
    -- `[..header.usable_size]`
    if bytes.length < header.usableSize then .error .panic
    else do
      let (children, overflows) ← pointers (bytes.take header.usableSize) page
      let walk ← overflows.foldlM (fun walk chain => overflowChain chain.2 chain.1 walk)
        { pages, reader }
      .ok (children, walk)

/-- A chain marks pages and unmarks none. -/
theorem overflowChain_eq_ok : ∀ {count overflow : Nat} {walk walk' : Walk},
    overflowChain count overflow walk = .ok walk' →
      walk'.pages.pages = walk.pages.pages ∧ walk.pages.marked ≤ walk'.pages.marked
  | 0, _, _, _, h => by
      cases h
      exact ⟨rfl, Nat.le_refl _⟩
  | count + 1, overflow, walk, walk', h => by
      rw [overflowChain] at h
      obtain ⟨pages, hmark, h⟩ := Results.bind_eq_ok_iff.mp h
      obtain ⟨⟨bytes, reader⟩, -, h⟩ := Results.bind_eq_ok_iff.mp h
      obtain ⟨next, -, h⟩ := Results.bind_eq_ok_iff.mp h
      split at h
      case isTrue => cases h
      case isFalse =>
        obtain ⟨hpages, hmarked⟩ := PageSet.mark_eq_ok hmark
        obtain ⟨hpages', hmarked'⟩ := overflowChain_eq_ok h
        dsimp only at hpages' hmarked'
        exact ⟨hpages'.trans hpages, by omega⟩

/-- So do several chains. -/
theorem overflowChains_eq_ok : ∀ {overflows : List (Nat × Nat)} {walk walk' : Walk},
    overflows.foldlM (fun walk chain => overflowChain chain.2 chain.1 walk) walk = .ok walk' →
      walk'.pages.pages = walk.pages.pages ∧ walk.pages.marked ≤ walk'.pages.marked
  | [], _, _, h => by
      cases h
      exact ⟨rfl, Nat.le_refl _⟩
  | chain :: overflows, walk, walk', h => by
      rw [List.foldlM_cons] at h
      obtain ⟨walk₁, hchain, h⟩ := Results.bind_eq_ok_iff.mp h
      obtain ⟨hpages, hmarked⟩ := overflowChain_eq_ok hchain
      obtain ⟨hpages', hmarked'⟩ := overflowChains_eq_ok h
      exact ⟨hpages'.trans hpages, Nat.le_trans hmarked hmarked'⟩

/-- Each visit marks a page. -/
theorem visit_eq_ok {header : DatabaseHeader} {page depth : Nat} {walk walk' : Walk}
    {children : List Nat} (h : visit header page depth walk = .ok (children, walk')) :
    walk'.pages.pages = walk.pages.pages ∧ walk.pages.marked < walk'.pages.marked := by
  rw [visit] at h
  split at h
  case isTrue => cases h
  case isFalse =>
    obtain ⟨pages, hmark, h⟩ := Results.bind_eq_ok_iff.mp h
    obtain ⟨⟨bytes, reader⟩, -, h⟩ := Results.bind_eq_ok_iff.mp h
    dsimp only at h
    split at h
    case isTrue => cases h
    case isFalse =>
      obtain ⟨⟨children₁, overflows⟩, -, h⟩ := Results.bind_eq_ok_iff.mp h
      obtain ⟨walk₁, hchains, h⟩ := Results.bind_eq_ok_iff.mp h
      cases h
      obtain ⟨hpages, hmarked⟩ := PageSet.mark_eq_ok hmark
      obtain ⟨hpages', hmarked'⟩ := overflowChains_eq_ok hchains
      dsimp only at hpages' hmarked'
      exact ⟨hpages'.trans hpages, by omega⟩

/-- `raw_page_ownership`: until no page is pending; the page that is next comes first. -/
def walkTree (header : DatabaseHeader) (pending : List (Nat × Nat)) (walk : Walk) :
    Except Failure Walk :=
  match pending with
  | [] => .ok walk
  | (page, depth) :: pending =>
      match _hvisit : visit header page depth walk with
      | .error failure => .error failure
      | .ok (children, walk) =>
          walkTree header (children.map (fun child => (child, depth + 1)) ++ pending) walk
termination_by walk.pages.pages - walk.pages.marked
decreasing_by
  obtain ⟨hpages, hmarked⟩ := visit_eq_ok _hvisit
  have hle := PageSet.marked_le ‹Walk›.pages
  omega

/-- `raw_page_ownership`: the tree at `root` and those at the roots of the schema that follow, each
of which is an `i64` above zero there and a `u32` here. -/
def walkRoots (header : DatabaseHeader) : Nat → List Nat → Walk → Except Failure Walk
  | root, [], walk => walkTree header [(root, 0)] walk
  | root, next :: roots, walk => do
      let walk ← walkTree header [(root, 0)] walk
      if 2 ^ 32 ≤ next then .error (problem s!"Integer {next} out of range at index 0")
      else walkRoots header next roots walk

/-- `raw_page_ownership`; each `File::open` of the path reads in its own pieces. -/
def rawPageOwnership (bytes : Bytes) (short short' : Nat → Nat) (header : DatabaseHeader)
    (roots : List Nat) : Except Failure Unit := do
  let pages ← ownershipStart (.open bytes short) header
  let reader := PageReader.new (.open bytes short') header.toHeader
  let walk ← walkRoots header 1 roots { pages, reader }
  walk.pages.finish

end Velr.Validation
