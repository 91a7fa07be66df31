import Velr.PageWriter.Page

/-!
# Reading a B-tree of the SQLite file format

What a B-tree in a database file means, stated independently of the code that writes it: a page is
parsed into its cells, a payload is the bytes on the page and those of its overflow chain, and
`readTree` walks a tree of a given height in order. `readNode` and `readTree` answer only on
well-formed input: the cells lie behind the pointer array and apart from each other, where each
takes four bytes at least, every leaf is at the same depth, interior pages and non-root leaves have
a cell, and the separator of a table is the largest rowid on its left.
-/

namespace Velr.Format

open ByteString

/-- How many bytes of a payload of `total` bytes lie on the page itself. -/
def inlineLength (usable : Nat) (kind : Kind) (total : Nat) : Nat :=
  let maximum := match kind with
    | .table => usable - 35
    | .index => (usable - 12) * 64 / 255 - 23
  let minimum := (usable - 12) * 32 / 255 - 23
  let surplus := minimum + (total - minimum) % (usable - 4)
  if total ≤ maximum then total else if surplus ≤ maximum then surplus else minimum

/-- A cell: the left child of an interior cell, the rowid of a table cell, the payload. -/
structure Cell where
  child : Nat := 0
  key : Int64 := 0
  total : Nat := 0
  inline : Bytes := []
  overflow : Nat := 0
  deriving DecidableEq

/-- The rowid a varint stands for. -/
def rowidOf (value : Nat) : Int64 := (UInt64.ofNat value).toInt64

/-- The rowid varint of a table cell; an index cell has none. -/
def readKey (kind : Kind) (page : Bytes) (offset : Nat) : Option (Nat × Nat) :=
  match kind with
  | .table => readVarint page offset
  | .index => some (0, offset)

/-- The payload of the cell at `offset` and the offset behind it. -/
def readPayload (usable : Nat) (kind : Kind) (page : Bytes) (child offset : Nat) :
    Option (Cell × Nat) := do
  let (total, offset) ← readVarint page offset
  let (key, offset) ← readKey kind page offset
  let length := inlineLength usable kind total
  let inline := slice page offset length
  if length = total then
    guard (offset + length ≤ page.length)
    some ({ child, key := rowidOf key, total, inline }, offset + length)
  else
    guard (offset + length + 4 ≤ page.length)
    let overflow := ofBE (slice page (offset + length) 4)
    some ({ child, key := rowidOf key, total, inline, overflow }, offset + length + 4)

/-- The cell at `start` and the offset behind it. -/
def readCell (usable : Nat) (kind : Kind) (interior : Bool) (page : Bytes) (start : Nat) :
    Option (Cell × Nat) :=
  match kind, interior with
  | _, false => readPayload usable kind page 0 start
  | .index, true => readPayload usable .index page (ofBE (slice page start 4)) (start + 4)
  | .table, true => do
      let (key, stop) ← readVarint page (start + 4)
      some ({ child := ofBE (slice page start 4), key := rowidOf key }, stop)

/-- The cells of a page in key order, and the right-most child of an interior page. -/
structure Node where
  cells : List Cell
  right : Nat
  deriving DecidableEq

/-- The cell pointer array. -/
def cellStarts (page : Bytes) (first count : Nat) : List Nat :=
  (List.range count).map fun i => ofBE (slice page (first + i * 2) 2)

/-- No two of the byte ranges overlap. -/
def Apart (extents : List (Nat × Nat)) : Prop :=
  extents.Pairwise fun a b => a.2 ≤ b.1 ∨ b.2 ≤ a.1

instance (extents : List (Nat × Nat)) : Decidable (Apart extents) :=
  inferInstanceAs (Decidable (List.Pairwise _ _))

def pageHeaderSize (interior : Bool) : Nat := if interior then 12 else 8

/-- The bytes that a cell takes of its page, four or more: a shorter cell is padded, so that its
place can hold a free block. -/
def taken (extent : Nat × Nat) : Nat × Nat := (extent.1, max extent.2 (extent.1 + 4))

/-- Parse a page of the given kind; `none` when it is not well formed. A page of `size` bytes has
room for the pointers and the places of `(size - 8) / 6` cells. -/
def readNode (size : Nat) (kind : Kind) (interior : Bool) (page : Bytes) : Option Node := do
  let count := ofBE (slice page 3 2)
  let content := ofBE (slice page 5 2)
  guard (page.length = size ∧ page[0]? = some (Page.typeByte kind interior))
  guard (slice page 1 2 = [0, 0] ∧ slice page 7 1 = [0])
  guard (pageHeaderSize interior + count * 2 ≤ content ∧ count ≤ (size - 8) / 6)
  let starts := cellStarts page (pageHeaderSize interior) count
  let cells ← starts.mapM (readCell size kind interior page)
  let extents := (starts.zip (cells.map Prod.snd)).map taken
  guard (∀ extent ∈ extents, content ≤ extent.1 ∧ extent.1 < extent.2 ∧ extent.2 ≤ size)
  guard (Apart extents)
  some ⟨cells.map Prod.fst, if interior then ofBE (slice page 8 4) else 0⟩

/-- The pages of a file. -/
abbrev View := Nat → Option Bytes

/-- The `remaining` payload bytes of the overflow chain that starts at `page`; its last page names
no next one. -/
def readChain (usable : Nat) (view : View) : Nat → Nat → Nat → Option Bytes
  | 0, _, _ => none
  | fuel + 1, page, remaining => do
      let bytes ← view page
      let next := ofBE (bytes.take 4)
      if remaining ≤ usable - 4 then
        guard (next = 0)
        some (slice bytes 4 remaining)
      else
        let rest ← readChain usable view fuel next (remaining - (usable - 4))
        some (slice bytes 4 (usable - 4) ++ rest)

/-- The rowid and the whole payload of a cell. -/
def entry (usable : Nat) (view : View) (cell : Cell) : Option (Int64 × Bytes) :=
  if cell.inline.length = cell.total then some (cell.key, cell.inline)
  else do
    let rest ← readChain usable view cell.total cell.overflow (cell.total - cell.inline.length)
    some (cell.key, cell.inline ++ rest)

/-- What the cell of an interior page adds to the records below its child: the record of an index
cell; the cell of a table only repeats the last rowid. -/
def separated (size : Nat) (kind : Kind) (view : View) (cell : Cell)
    (records : List (Int64 × Bytes)) : Option (List (Int64 × Bytes)) :=
  match kind with
  | .table => if records.getLast?.map Prod.fst = some cell.key then some records else none
  | .index => (entry size view cell).map fun separator => records ++ [separator]

/-- The records of the tree of height `height` at `page`, in order. -/
def readTree (size : Nat) (kind : Kind) (view : View) :
    Nat → Bool → Nat → Option (List (Int64 × Bytes))
  | 0, isRoot, page => do
      let node ← readNode size kind false (← view page)
      guard (isRoot ∨ node.cells ≠ [])
      node.cells.mapM (entry size view)
  | height + 1, _, page => do
      let node ← readNode size kind true (← view page)
      guard (node.cells ≠ [])
      let left ← node.cells.mapM fun cell =>
        (readTree size kind view height false cell.child).bind (separated size kind view cell)
      let last ← readTree size kind view height false node.right
      some (left.flatten ++ last)

/-! ## More pages

What is read from a file can still be read when pages are added to it. -/

/-- Every page of the first view is a page of the second. -/
def View.Within (view view' : View) : Prop :=
  ∀ page bytes, view page = some bytes → view' page = some bytes

theorem View.Within.trans {a b c : View} (h₁ : a.Within b) (h₂ : b.Within c) : a.Within c :=
  fun page bytes h => h₂ page bytes (h₁ page bytes h)

/-- A chain that is read in a view is read in every view with more pages. -/
theorem readChain_within {usable : Nat} {view view' : View} (h : view.Within view') :
    ∀ {fuel page remaining : Nat} {bytes : Bytes},
      readChain usable view fuel page remaining = some bytes →
      readChain usable view' fuel page remaining = some bytes
  | 0, _, _, _, hr => by simp [readChain] at hr
  | fuel + 1, page, remaining, bytes, hr => by
      unfold readChain at hr ⊢
      simp only [Option.bind_eq_bind, Option.bind_eq_some_iff] at hr
      obtain ⟨first, hfirst, hr⟩ := hr
      simp only [h page first hfirst, Option.bind_eq_bind, Option.bind_some]
      split at hr
      · rwa [if_pos (by assumption)]
      · rw [if_neg (by assumption)]
        obtain ⟨rest, hrest, hr⟩ := Option.bind_eq_some_iff.mp hr
        rw [readChain_within h hrest]
        exact hr

/-- So is the record of a cell. -/
theorem entry_within {usable : Nat} {view view' : View} (h : view.Within view') {cell : Cell}
    {record : Int64 × Bytes} (hr : entry usable view cell = some record) :
    entry usable view' cell = some record := by
  unfold entry at hr ⊢
  split at hr
  · rwa [if_pos (by assumption)]
  · rw [if_neg (by assumption)]
    obtain ⟨rest, hrest, hr⟩ := Option.bind_eq_some_iff.mp hr
    simp only [readChain_within h hrest, Option.bind_eq_bind, Option.bind_some]
    exact hr

/-- Values that exist are the same by a function that has more of them. -/
theorem mapM_within {α β : Type} {f g : α → Option β} {xs : List α}
    (h : ∀ x ∈ xs, ∀ y, f x = some y → g x = some y) {ys : List β}
    (hf : xs.mapM f = some ys) : xs.mapM g = some ys := by
  induction xs generalizing ys with
  | nil => exact hf
  | cons x xs ih =>
      simp only [List.mapM_cons, Option.bind_eq_bind, Option.bind_eq_some_iff] at hf ⊢
      obtain ⟨y, hy, rest, hrest, hys⟩ := hf
      exact ⟨y, h x (by simp) y hy, rest, ih (fun z hz => h z (by simp [hz])) hrest, hys⟩

/-- So are the records below a cell with the one that separates them. -/
theorem separated_within {size : Nat} {kind : Kind} {view view' : View} (h : view.Within view')
    {cell : Cell} {below records : List (Int64 × Bytes)}
    (hr : separated size kind view cell below = some records) :
    separated size kind view' cell below = some records := by
  cases kind with
  | table => exact hr
  | index =>
      obtain ⟨separator, hseparator, hr⟩ := Option.map_eq_some_iff.mp hr
      exact Option.map_eq_some_iff.mpr ⟨separator, entry_within h hseparator, hr⟩

/-- A tree that is read in a view is read in every view with more pages. -/
theorem readTree_within {size : Nat} {kind : Kind} {view view' : View}
    (h : view.Within view') : ∀ {height : Nat} {isRoot : Bool} {page : Nat}
      {records : List (Int64 × Bytes)},
      readTree size kind view height isRoot page = some records →
      readTree size kind view' height isRoot page = some records
  | 0, isRoot, page, records, hr => by
      unfold readTree at hr ⊢
      simp only [Option.bind_eq_bind, Option.bind_eq_some_iff] at hr ⊢
      obtain ⟨bytes, hbytes, node, hnode, u, hu, hr⟩ := hr
      exact ⟨bytes, h page bytes hbytes, node, hnode, u, hu,
        mapM_within (fun _ _ _ => entry_within h) hr⟩
  | height + 1, isRoot, page, records, hr => by
      unfold readTree at hr ⊢
      simp only [Option.bind_eq_bind, Option.bind_eq_some_iff] at hr ⊢
      obtain ⟨bytes, hbytes, node, hnode, u, hu, left, hleft, last, hlast, hr⟩ := hr
      refine ⟨bytes, h page bytes hbytes, node, hnode, u, hu, left,
        mapM_within (fun cell _ ys hy => ?_) hleft, last, readTree_within h hlast, hr⟩
      obtain ⟨below, hbelow, hy⟩ := Option.bind_eq_some_iff.mp hy
      exact Option.bind_eq_some_iff.mpr ⟨below, readTree_within h hbelow, separated_within h hy⟩

end Velr.Format
