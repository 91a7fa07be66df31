import Mathlib.Data.Option.Basic
import Velr.Common.Results
import Velr.Common.Slices
import Velr.Format.BTree
import Velr.IndexStats.Sampler

/-!
# The pointers of a page

`word`, `short`, `varint` and `pointers` of `validation.rs`: the child pages and the overflow chains
of a page, from bytes nothing is known about. Each read is checked against the page, and the
arithmetic of a payload that is split does not go below zero on a page of 257 bytes or more; on a
page of the file format the pointers are those of its cells (`pointers_safe_exact`).
-/

namespace Velr.Validation

open ByteString
open Format (Cell Node readCell readPayload readKey cellStarts pageHeaderSize inlineLength)
open IndexStats (Failure)

/-! ## The code -/

/-- `word` -/
def word (bytes : Bytes) (offset : Nat) : Except Failure Nat :=
  if bytes.length < offset + 4 then .error (.error "truncated database page pointer")
  else .ok (ofBE (slice bytes offset 4))

/-- `short` -/
def short (bytes : Bytes) (offset : Nat) : Except Failure Nat :=
  if bytes.length < offset + 2 then .error (.error "truncated database cell pointer")
  else .ok (ofBE (slice bytes offset 2))

/-- `varint`: the number and the offset behind it. -/
def varint (bytes : Bytes) (offset : Nat) : Except Failure (Nat × Nat) :=
  match readVarint bytes offset with
  | some found => .ok found
  | none => .error (.error "truncated database varint")

/-- Subtraction of a `usize`, which panics below zero. -/
def checkedSub (a b : Nat) : Except Failure Nat :=
  if a < b then .error .panic else .ok (a - b)

/-- The remainder of a `usize`, which panics for a divisor of zero. -/
def checkedMod (a b : Nat) : Except Failure Nat :=
  if b = 0 then .error .panic else .ok (a % b)

/-- `pointers`: `maximum` -/
def maximumLocal (usable : Nat) (kind : UInt8) : Except Failure Nat :=
  if kind = 13 then checkedSub usable 35
  else do checkedSub ((← checkedSub usable 12) * 64 / 255) 23

/-- `pointers`: how much of a payload is on its page. -/
def localLength (usable : Nat) (kind : UInt8) (payload : Nat) : Except Failure Nat := do
  let minimum ← checkedSub ((← checkedSub usable 12) * 32 / 255) 23
  let maximum ← maximumLocal usable kind
  if payload ≤ maximum then .ok payload
  else do
    let surplus ← checkedMod (← checkedSub payload minimum) (← checkedSub usable 4)
    let candidate := minimum + surplus
    .ok (if candidate ≤ maximum then candidate else minimum)

/-- `pointers`: a leaf of a table has a key behind the payload length. -/
def skipKey (bytes : Bytes) (kind : UInt8) (offset : Nat) : Except Failure Nat :=
  if kind = 13 then do
    let (_, offset) ← varint bytes offset
    .ok offset
  else .ok offset

/-- `pointers`: the payload of a cell. -/
def payloadPointers (bytes : Bytes) (kind : UInt8) (offset : Nat) :
    Except Failure (List (Nat × Nat)) := do
  let (payload, offset) ← varint bytes offset
  if 2147483647 < payload then
    .error (.error "database record payload exceeds SQLite's size limit")
  else do
    let offset ← skipKey bytes kind offset
    let usable := bytes.length
    let length ← localLength usable kind payload
    if usable < offset + length then .error (.error "database cell payload exceeds page bounds")
    else if length ≠ payload then do
      let first ← word bytes (offset + length)
      let rest ← checkedSub payload length
      .ok [(first, Slices.ceil rest (← checkedSub usable 4))]
    else .ok []

/-- `pointers`: the child of a cell, and the offset behind it. -/
def childPointer (bytes : Bytes) (interior : Bool) (offset : Nat) :
    Except Failure (List Nat × Nat) :=
  if interior then do
    let child ← word bytes offset
    .ok ([child], offset + 4)
  else .ok ([], offset)

/-- `pointers`: a cell. -/
def cellPointers (bytes : Bytes) (kind : UInt8) (interior : Bool) (pointerStart pointerEnd : Nat)
    (index : Nat) : Except Failure (List Nat × List (Nat × Nat)) := do
  let offset ← short bytes (pointerStart + index * 2)
  if offset < pointerEnd ∨ bytes.length ≤ offset then
    .error (.error "database cell pointer is outside its content area")
  else do
    let (children, offset) ← childPointer bytes interior offset
    if kind = 5 then do
      -- a child pointer and an integer key
      let _ ← varint bytes offset
      .ok (children, [])
    else do
      let overflows ← payloadPointers bytes kind offset
      .ok (children, overflows)

/-- `pointers`: `header`; the first page begins with the header of the file. -/
def headerOffset (page : Nat) : Nat := if page = 1 then 100 else 0

/-- `pointers`: the first byte of the header. -/
def pageKind (bytes : Bytes) (header : Nat) : Except Failure UInt8 :=
  match bytes[header]? with
  | some kind => .ok kind
  | none => .error (.error "truncated database page header")

/-- `pointers`: `interior` -/
def isInterior (kind : UInt8) (page : Nat) : Except Failure Bool :=
  if kind = 2 ∨ kind = 5 then .ok true
  else if kind = 10 ∨ kind = 13 then .ok false
  else .error (.error s!"invalid B-tree page type {kind} on page {page}")

/-- `pointers` -/
def pointers (bytes : Bytes) (page : Nat) : Except Failure (List Nat × List (Nat × Nat)) := do
  let header := headerOffset page
  let kind ← pageKind bytes header
  let interior ← isInterior kind page
  let cells ← short bytes (header + 3)
  let pointerStart := header + pageHeaderSize interior
  let pointerEnd := pointerStart + cells * 2
  if bytes.length < pointerEnd then
    .error (.error "database cell pointer array exceeds page bounds")
  else do
    let found ← (List.range cells).mapM
      (cellPointers bytes kind interior pointerStart pointerEnd)
    let children := found.flatMap Prod.fst
    let overflows := found.flatMap Prod.snd
    if interior then do
      let right ← word bytes (header + 8)
      .ok (children ++ [right], overflows)
    else .ok (children, overflows)

/-! ## The file format -/

/-- The largest payload that is all on its page. -/
def localLimit (usable : Nat) : Kind → Nat
  | .table => usable - 35
  | .index => (usable - 12) * 64 / 255 - 23

/-- A page of the file format whose B-tree header begins at `header`: its cells lie in it behind the
pointer array, and no payload is longer than the format allows. -/
def readPage (usable header : Nat) (kind : Kind) (interior : Bool) (page : Bytes) :
    Option Node := do
  let count := ofBE (slice page (header + 3) 2)
  let first := header + pageHeaderSize interior
  guard (page.length = usable ∧ page[header]? = some (Page.typeByte kind interior))
  guard (first + count * 2 ≤ usable)
  let starts := cellStarts page first count
  let cells ← starts.mapM (readCell usable kind interior page)
  guard (∀ extent ∈ starts.zip cells, first + count * 2 ≤ extent.1 ∧ extent.2.2 ≤ usable ∧
    extent.2.1.total ≤ 2147483647)
  some ⟨cells.map Prod.fst, if interior then ofBE (slice page (header + 8) 4) else 0⟩

/-- The children of a page, the right-most last. -/
def childrenOf (interior : Bool) (node : Node) : List Nat :=
  if interior then node.cells.map Cell.child ++ [node.right] else []

/-- The overflow chain of a cell, if its payload is longer than the limit: its first page, and how
many pages hold the rest. -/
def overflowOf (usable : Nat) (kind : Kind) (cell : Cell) : List (Nat × Nat) :=
  if localLimit usable kind < cell.total then
    [(cell.overflow, Slices.ceil (cell.total - inlineLength usable kind cell.total) (usable - 4))]
  else []

/-- The kind of a page and whether it is an interior one, by the first byte of its header. -/
def pageType (byte : UInt8) : Option (Kind × Bool) :=
  if byte = 2 then some (.index, true)
  else if byte = 5 then some (.table, true)
  else if byte = 10 then some (.index, false)
  else if byte = 13 then some (.table, false)
  else none

/-- The children and the overflow chains of a page of the file format, of whichever type it is. -/
def linksOf (usable header : Nat) (page : Bytes) : Option (List Nat × List (Nat × Nat)) := do
  let (kind, interior) ← pageType (← page[header]?)
  let node ← readPage usable header kind interior page
  some (childrenOf interior node, node.cells.flatMap (overflowOf usable kind))

/-! ## The split of a payload -/

theorem checkedSub_of_le {a b : Nat} (h : b ≤ a) : checkedSub a b = .ok (a - b) :=
  if_neg (Nat.not_lt.mpr h)

theorem checkedMod_of_pos {a b : Nat} (h : 0 < b) : checkedMod a b = .ok (a % b) :=
  if_neg (Nat.ne_of_gt h)

/-- The length of the format, by its limit. -/
theorem inlineLength_eq (usable : Nat) (kind : Kind) (payload : Nat) :
    inlineLength usable kind payload =
      if payload ≤ localLimit usable kind then payload
      else if (usable - 12) * 32 / 255 - 23 +
          (payload - ((usable - 12) * 32 / 255 - 23)) % (usable - 4) ≤ localLimit usable kind then
        (usable - 12) * 32 / 255 - 23 + (payload - ((usable - 12) * 32 / 255 - 23)) % (usable - 4)
      else (usable - 12) * 32 / 255 - 23 := by
  cases kind <;> rfl

section split

variable {usable : Nat} (h : 257 ≤ usable) (kind : Kind)

include h

theorem minimum_le_localLimit : (usable - 12) * 32 / 255 - 23 ≤ localLimit usable kind := by
  cases kind <;> simp only [localLimit] <;> omega

/-- `maximum_local` computes the limit of the format. -/
theorem maximumLocal_eq {byte : UInt8} (hbyte : byte = 13 ↔ kind = .table) :
    maximumLocal usable byte = .ok (localLimit usable kind) := by
  cases kind with
  | table => rw [maximumLocal, if_pos (hbyte.mpr rfl), checkedSub_of_le (by omega), localLimit]
  | index =>
      have hother : byte ≠ 13 := fun hmore => by cases hbyte.mp hmore
      rw [maximumLocal, if_neg hother, checkedSub_of_le (by omega)]
      simp only [bind, Except.bind]
      rw [checkedSub_of_le (by omega), localLimit]

/-- On a page of 257 bytes or more the code computes the length of the format. -/
theorem localLength_eq {byte : UInt8} (hbyte : byte = 13 ↔ kind = .table) (payload : Nat) :
    localLength usable byte payload = .ok (inlineLength usable kind payload) := by
  have hlimit := minimum_le_localLimit h kind
  rw [localLength, checkedSub_of_le (by omega), maximumLocal_eq h kind hbyte, inlineLength_eq]
  simp only [bind, Except.bind]
  rw [checkedSub_of_le (by omega)]
  dsimp only
  split
  case isTrue => rfl
  case isFalse hlong =>
    rw [checkedSub_of_le (by omega), checkedSub_of_le (by omega)]
    dsimp only
    rw [checkedMod_of_pos (by omega)]

/-- A payload within the limit is all on the page; a longer one is not. -/
theorem inlineLength_cases (payload : Nat) :
    payload ≤ localLimit usable kind ∧ inlineLength usable kind payload = payload ∨
      localLimit usable kind < payload ∧ inlineLength usable kind payload < payload := by
  have hlimit := minimum_le_localLimit h kind
  rw [inlineLength_eq]
  split
  case isTrue hshort => exact .inl ⟨hshort, rfl⟩
  case isFalse hlong =>
    refine .inr ⟨Nat.lt_of_not_le hlong, ?_⟩
    split <;> omega

end split

/-! ## No panic -/

theorem word_ne_panic (bytes : Bytes) (offset : Nat) : word bytes offset ≠ .error .panic := by
  rw [word]
  split <;> rintro ⟨⟩

theorem short_ne_panic (bytes : Bytes) (offset : Nat) : short bytes offset ≠ .error .panic := by
  rw [short]
  split <;> rintro ⟨⟩

/-- `varint` does not read behind the page. -/
theorem varint_ne_panic (bytes : Bytes) (offset : Nat) : varint bytes offset ≠ .error .panic := by
  rw [varint]
  split <;> rintro ⟨⟩

theorem skipKey_ne_panic (bytes : Bytes) (kind : UInt8) (offset : Nat) :
    skipKey bytes kind offset ≠ .error .panic := by
  rw [skipKey]
  split
  case isTrue =>
    refine Results.bind_ne_error (varint_ne_panic bytes offset) fun key _ => ?_
    rintro ⟨⟩
  case isFalse => rintro ⟨⟩

theorem childPointer_ne_panic (bytes : Bytes) (interior : Bool) (offset : Nat) :
    childPointer bytes interior offset ≠ .error .panic := by
  rw [childPointer]
  split
  case isTrue =>
    refine Results.bind_ne_error (word_ne_panic bytes offset) fun child _ => ?_
    rintro ⟨⟩
  case isFalse => rintro ⟨⟩

/-- The sizes of a page that is large enough do not underflow. -/
theorem payloadPointers_ne_panic {bytes : Bytes} (h : 257 ≤ bytes.length) (kind : UInt8)
    (offset : Nat) : payloadPointers bytes kind offset ≠ .error .panic := by
  refine Results.bind_ne_error (varint_ne_panic bytes offset) fun (payload, offset) _ => ?_
  dsimp only
  split
  case isTrue => rintro ⟨⟩
  case isFalse =>
    refine Results.bind_ne_error (skipKey_ne_panic bytes kind offset) fun offset _ => ?_
    obtain ⟨split, hsplit⟩ : ∃ split : Kind, kind = 13 ↔ split = .table := by
      by_cases hkind : kind = 13
      · exact ⟨.table, by simp [hkind]⟩
      · exact ⟨.index, by simp [hkind]⟩
    rw [localLength_eq h split hsplit]
    simp only [bind, Except.bind]
    by_cases hbounds : bytes.length < offset + inlineLength bytes.length split payload
    · rw [if_pos hbounds]
      rintro ⟨⟩
    · rw [if_neg hbounds]
      by_cases hlocal : inlineLength bytes.length split payload ≠ payload
      · rw [if_pos hlocal]
        refine Results.bind_ne_error (word_ne_panic _ _) fun first _ => ?_
        have hless : inlineLength bytes.length split payload ≤ payload := by
          rcases inlineLength_cases h split payload with ⟨-, heq⟩ | ⟨-, hlt⟩ <;> omega
        rw [checkedSub_of_le hless, checkedSub_of_le (by omega)]
        rintro ⟨⟩
      · rw [if_neg hlocal]
        rintro ⟨⟩

/-- No cell panics. -/
theorem cellPointers_ne_panic {bytes : Bytes} (h : 257 ≤ bytes.length) (kind : UInt8)
    (interior : Bool) (pointerStart pointerEnd index : Nat) :
    cellPointers bytes kind interior pointerStart pointerEnd index ≠ .error .panic := by
  refine Results.bind_ne_error (short_ne_panic _ _) fun offset _ => ?_
  dsimp only
  split
  case isTrue => rintro ⟨⟩
  case isFalse =>
    refine Results.bind_ne_error (childPointer_ne_panic _ _ _) fun (children, offset) _ => ?_
    dsimp only
    split
    case isTrue =>
      refine Results.bind_ne_error (varint_ne_panic _ _) fun key _ => ?_
      rintro ⟨⟩
    case isFalse =>
      refine Results.bind_ne_error (payloadPointers_ne_panic h _ _) fun overflows _ => ?_
      rintro ⟨⟩

theorem pageKind_ne_panic (bytes : Bytes) (header : Nat) :
    pageKind bytes header ≠ .error .panic := by
  rw [pageKind]
  split <;> rintro ⟨⟩

theorem isInterior_ne_panic (kind : UInt8) (page : Nat) :
    isInterior kind page ≠ .error .panic := by
  rw [isInterior]
  split
  case isTrue => rintro ⟨⟩
  case isFalse => split <;> rintro ⟨⟩

/-- So no page of this size panics. -/
theorem pointers_ne_panic {bytes : Bytes} (h : 257 ≤ bytes.length) (page : Nat) :
    pointers bytes page ≠ .error .panic := by
  rw [pointers]
  refine Results.bind_ne_error (pageKind_ne_panic _ _) fun kind _ => ?_
  refine Results.bind_ne_error (isInterior_ne_panic _ _) fun interior _ => ?_
  refine Results.bind_ne_error (short_ne_panic _ _) fun cells _ => ?_
  dsimp only
  split
  case isTrue => rintro ⟨⟩
  case isFalse =>
    refine Results.bind_ne_error ?_ fun found _ => ?_
    · exact Results.mapM_ne_error fun index _ => cellPointers_ne_panic h _ _ _ _ _
    · split
      case isTrue =>
        refine Results.bind_ne_error (word_ne_panic _ _) fun right _ => ?_
        rintro ⟨⟩
      case isFalse => rintro ⟨⟩

/-! ## The pointers of a page -/

section read

variable {bytes : Bytes} {kind : Kind} {interior : Bool} {cell : Cell} {start stop : Nat}

/-- A varint of the format is read. -/
theorem varint_eq {value next : Nat} (h : readVarint bytes start = some (value, next)) :
    varint bytes start = .ok (value, next) := by
  rw [varint, h]

/-- The key of a cell of the format is skipped. -/
theorem skipKey_eq {byte : UInt8} {key next : Nat} (hbyte : byte = 13 ↔ kind = .table)
    (h : readKey kind bytes start = some (key, next)) : skipKey bytes byte start = .ok next := by
  cases kind with
  | table =>
      rw [skipKey, if_pos (hbyte.mpr rfl), varint_eq h]
      rfl
  | index =>
      have hother : byte ≠ 13 := fun hmore => by cases hbyte.mp hmore
      cases h
      rw [skipKey, if_neg hother]

/-- The overflow chain of a payload that the format reads. -/
theorem payloadPointers_eq (h : 257 ≤ bytes.length) {byte : UInt8}
    (hbyte : byte = 13 ↔ kind = .table) {child : Nat}
    (hread : readPayload bytes.length kind bytes child start = some (cell, stop))
    (hstop : stop ≤ bytes.length) (htotal : cell.total ≤ 2147483647) :
    payloadPointers bytes byte start = .ok (overflowOf bytes.length kind cell) ∧
      cell.child = child ∧ start < stop := by
  rw [readPayload] at hread
  simp only [Option.bind_eq_bind, Option.bind_eq_some_iff] at hread
  obtain ⟨⟨total, behindTotal⟩, hvarint, ⟨key, offset⟩, hkey, hread⟩ := hread
  have hforward := readVarint_bounds hvarint
  have hoffset : behindTotal ≤ offset := by
    cases kind with
    | table => exact Nat.le_of_lt (readVarint_bounds hkey).1
    | index => cases hkey; exact Nat.le_refl _
  have hcases := inlineLength_cases h kind total
  rw [payloadPointers, varint_eq hvarint]
  simp only [bind, Except.bind]
  dsimp only at hread hkey
  split at hread
  case isTrue hall =>
    simp only [Option.bind_eq_some_iff] at hread
    obtain ⟨-, -, hread⟩ := hread
    cases hread
    have htotal : total ≤ 2147483647 := htotal
    rw [if_neg (by omega), skipKey_eq hbyte hkey, localLength_eq h kind hbyte]
    dsimp only
    rw [if_neg (by omega), if_neg (by omega), overflowOf]
    dsimp only
    rw [if_neg (by omega)]
    exact ⟨rfl, rfl, by omega⟩
  case isFalse hlong =>
    simp only [Option.bind_eq_some_iff] at hread
    obtain ⟨-, -, hread⟩ := hread
    cases hread
    have htotal : total ≤ 2147483647 := htotal
    rw [if_neg (by omega), skipKey_eq hbyte hkey, localLength_eq h kind hbyte]
    dsimp only
    rw [if_neg (by omega), if_pos hlong, word, if_neg (by omega), overflowOf]
    dsimp only
    rw [checkedSub_of_le (by omega), checkedSub_of_le (by omega), if_pos (by omega)]
    exact ⟨rfl, rfl, by omega⟩

/-- What the code finds at a cell. -/
def pointersOf (usable : Nat) (kind : Kind) (interior : Bool) (cell : Cell) :
    List Nat × List (Nat × Nat) :=
  (if interior then [cell.child] else [], overflowOf usable kind cell)

/-- One lemma for the four types of a page: the key of a table's interior cell has no payload. -/
theorem cellPointers_eq (h : 257 ≤ bytes.length) {first last index : Nat}
    (hindex : first + index * 2 + 2 ≤ bytes.length)
    (hread : readCell bytes.length kind interior bytes (ofBE (slice bytes (first + index * 2) 2)) =
      some (cell, stop))
    (hstart : last ≤ ofBE (slice bytes (first + index * 2) 2)) (hstop : stop ≤ bytes.length)
    (htotal : cell.total ≤ 2147483647) :
    cellPointers bytes (Page.typeByte kind interior) interior first last index =
      .ok (pointersOf bytes.length kind interior cell) := by
  generalize hoffset : ofBE (slice bytes (first + index * 2) 2) = start at *
  have hshort : short bytes (first + index * 2) = .ok start := by
    rw [short, if_neg (by omega), hoffset]
  have hchild : ∀ next, start + 4 < next → next ≤ bytes.length →
      childPointer bytes true start = .ok ([ofBE (slice bytes start 4)], start + 4) := by
    intro next hnext hlast
    rw [childPointer, if_pos rfl, word, if_neg (by omega)]
    rfl
  rw [cellPointers, hshort]
  simp only [bind, Except.bind]
  cases interior with
  | false =>
      have hbyte : Page.typeByte kind false = 13 ↔ kind = .table := by cases kind <;> decide
      have hinterior : Page.typeByte kind false ≠ 5 := by cases kind <;> decide
      have hread : readPayload bytes.length kind bytes 0 start = some (cell, stop) := by
        cases kind <;> exact hread
      obtain ⟨hpayload, -, hforward⟩ := payloadPointers_eq h hbyte hread hstop htotal
      rw [if_neg (by omega), childPointer, if_neg (by decide)]
      dsimp only
      rw [if_neg hinterior, hpayload]
      rfl
  | true =>
      cases kind with
      | index =>
          have hbyte : Page.typeByte .index true = 13 ↔ Kind.index = .table := by decide
          obtain ⟨hpayload, hcell, hforward⟩ := payloadPointers_eq h hbyte hread hstop htotal
          rw [if_neg (by omega), hchild stop hforward hstop]
          dsimp only
          rw [if_neg (by decide), hpayload, pointersOf, hcell]
          rfl
      | table =>
          simp only [readCell, Option.bind_eq_bind, Option.bind_eq_some_iff] at hread
          obtain ⟨⟨key, next⟩, hvarint, hread⟩ := hread
          cases hread
          have hforward := readVarint_bounds hvarint
          rw [if_neg (by omega), hchild next hforward.1 hforward.2]
          dsimp only
          rw [if_pos (by decide), varint_eq hvarint]
          rfl

/-- The cells of a page of the format give their children and chains. -/
theorem mapM_cellPointers (h : 257 ≤ bytes.length) {first last : Nat} {indices : List Nat}
    {cells : List (Cell × Nat)} (hindices : ∀ i ∈ indices, first + i * 2 + 2 ≤ bytes.length)
    (hread : (indices.map fun i => ofBE (slice bytes (first + i * 2) 2)).mapM
      (readCell bytes.length kind interior bytes) = some cells)
    (hcells : ∀ extent ∈ (indices.map fun i => ofBE (slice bytes (first + i * 2) 2)).zip cells,
      last ≤ extent.1 ∧ extent.2.2 ≤ bytes.length ∧ extent.2.1.total ≤ 2147483647) :
    indices.mapM (cellPointers bytes (Page.typeByte kind interior) interior first last) =
      .ok (cells.map fun cell => pointersOf bytes.length kind interior cell.1) := by
  induction indices generalizing cells with
  | nil =>
      cases hread
      rfl
  | cons index indices ih =>
      simp only [List.map_cons, List.mapM_cons, Option.bind_eq_bind, Option.bind_eq_some_iff]
        at hread
      obtain ⟨⟨cell, stop⟩, hcell, rest, hrest, hread⟩ := hread
      cases hread
      obtain ⟨hstart, hstop, htotal⟩ := hcells (_, cell, stop) List.mem_cons_self
      have hhead := cellPointers_eq h (hindices index (by simp)) hcell hstart hstop htotal
      have htail := ih (fun i hi => hindices i (by simp [hi])) hrest
        fun extent hextent => hcells extent (List.mem_cons_of_mem _ hextent)
      rw [List.mapM_cons, hhead, htail]
      rfl

end read

theorem pageKind_eq {bytes : Bytes} {header : Nat} {kind : UInt8}
    (h : bytes[header]? = some kind) : pageKind bytes header = .ok kind := by
  rw [pageKind, h]

/-- The type byte tells whether a page is interior. -/
theorem isInterior_typeByte (kind : Kind) (interior : Bool) (page : Nat) :
    isInterior (Page.typeByte kind interior) page = .ok interior := by
  cases kind <;> cases interior <;> rfl

/-- On a page of the format the code finds the pointers of the cells, in their order. -/
theorem pointers_eq {bytes : Bytes} (h : 257 ≤ bytes.length) {page : Nat} {kind : Kind}
    {interior : Bool} {node : Node}
    (hread : readPage bytes.length (headerOffset page) kind interior bytes = some node) :
    pointers bytes page =
      .ok (childrenOf interior node, node.cells.flatMap (overflowOf bytes.length kind)) := by
  simp only [readPage, Option.bind_eq_bind, Option.bind_eq_some_iff, Option.guard_eq_some'] at hread
  obtain ⟨-, ⟨-, hkind⟩, -, harray, cells, hcells, -, hextents, hnode⟩ := hread
  cases hnode
  generalize hcount : ofBE (slice bytes (headerOffset page + 3) 2) = count at *
  have hheader : headerOffset page + 8 ≤ headerOffset page + pageHeaderSize interior := by
    cases interior <;> simp [pageHeaderSize]
  have hindices : ∀ i ∈ List.range count,
      headerOffset page + pageHeaderSize interior + i * 2 + 2 ≤ bytes.length := by
    intro i hi
    rw [List.mem_range] at hi
    omega
  have hfound := mapM_cellPointers h hindices hcells hextents
  have hpointers : (cells.map fun cell =>
      pointersOf bytes.length kind interior cell.1).flatMap Prod.snd =
        (cells.map Prod.fst).flatMap (overflowOf bytes.length kind) := by
    rw [List.flatMap_map, List.flatMap_map]
    rfl
  rw [pointers, pageKind_eq hkind]
  simp only [bind, Except.bind, isInterior_typeByte, short, hcount]
  rw [if_neg (by omega)]
  dsimp only
  rw [if_neg (by omega), hfound]
  dsimp only
  rw [hpointers]
  cases interior with
  | false =>
      have hchildren : (cells.map fun cell =>
          pointersOf bytes.length kind false cell.1).flatMap Prod.fst = [] := by
        rw [List.flatMap_map]
        exact List.flatMap_eq_nil_iff.mpr fun cell _ => rfl
      rw [hchildren]
      rfl
  | true =>
      have hchildren : (cells.map fun cell =>
          pointersOf bytes.length kind true cell.1).flatMap Prod.fst =
            (cells.map Prod.fst).map Cell.child := by
        rw [List.flatMap_map, List.map_map]
        exact List.flatMap_pure_eq_map _ _
      have hright : 12 ≤ pageHeaderSize true := Nat.le_refl 12
      rw [hchildren, if_pos rfl, word, if_neg (by omega)]
      rfl

/-! ## The pages that are accepted -/

section accepted

variable {bytes : Bytes} {kind : Kind} {interior : Bool} {start : Nat}

theorem word_eq_ok {offset value : Nat} (h : word bytes offset = .ok value) :
    offset + 4 ≤ bytes.length ∧ value = ofBE (slice bytes offset 4) := by
  rw [word] at h
  split at h
  case isTrue => cases h
  case isFalse hlength =>
    cases h
    exact ⟨Nat.le_of_not_lt hlength, rfl⟩

theorem short_eq_ok {offset value : Nat} (h : short bytes offset = .ok value) :
    offset + 2 ≤ bytes.length ∧ value = ofBE (slice bytes offset 2) := by
  rw [short] at h
  split at h
  case isTrue => cases h
  case isFalse hlength =>
    cases h
    exact ⟨Nat.le_of_not_lt hlength, rfl⟩

/-- A varint that is read is one of the format. -/
theorem varint_eq_ok {found : Nat × Nat} (h : varint bytes start = .ok found) :
    readVarint bytes start = some found := by
  rw [varint] at h
  split at h
  case h_1 found' hread =>
    cases h
    exact hread
  case h_2 => cases h

/-- A key that is skipped is one of the format. -/
theorem skipKey_eq_ok {byte : UInt8} (hbyte : byte = 13 ↔ kind = .table) {next : Nat}
    (h : skipKey bytes byte start = .ok next) :
    ∃ key, readKey kind bytes start = some (key, next) := by
  cases kind with
  | table =>
      rw [skipKey, if_pos (hbyte.mpr rfl)] at h
      obtain ⟨⟨key, next'⟩, hvarint, h⟩ := Results.bind_eq_ok_iff.mp h
      cases h
      exact ⟨key, varint_eq_ok hvarint⟩
  | index =>
      have hother : byte ≠ 13 := fun hmore => by cases hbyte.mp hmore
      rw [skipKey, if_neg hother] at h
      cases h
      exact ⟨0, rfl⟩

/-- A payload that the code accepts is one of the format. -/
theorem payloadPointers_eq_ok (h : 257 ≤ bytes.length) {byte : UInt8}
    (hbyte : byte = 13 ↔ kind = .table) (child : Nat) {found : List (Nat × Nat)}
    (hok : payloadPointers bytes byte start = .ok found) :
    ∃ cell stop, readPayload bytes.length kind bytes child start = some (cell, stop) ∧
      stop ≤ bytes.length ∧ cell.total ≤ 2147483647 := by
  rw [payloadPointers] at hok
  obtain ⟨⟨total, behindTotal⟩, hvarint, hok⟩ := Results.bind_eq_ok_iff.mp hok
  dsimp only at hok
  split at hok
  case isTrue => cases hok
  case isFalse htotal =>
    obtain ⟨offset, hskip, hok⟩ := Results.bind_eq_ok_iff.mp hok
    obtain ⟨key, hkey⟩ := skipKey_eq_ok hbyte hskip
    rw [localLength_eq h kind hbyte] at hok
    simp only [bind, Except.bind] at hok
    split at hok
    case isTrue => cases hok
    case isFalse hbounds =>
      rw [readPayload]
      simp only [Option.bind_eq_bind, varint_eq_ok hvarint, hkey, Option.bind_some]
      by_cases hlength : inlineLength bytes.length kind total = total
      · rw [if_pos hlength, guard, if_pos (Nat.le_of_not_lt hbounds)]
        exact ⟨_, _, rfl, Nat.le_of_not_lt hbounds, Nat.le_of_not_lt htotal⟩
      · rw [if_pos hlength] at hok
        obtain ⟨first, hword, -⟩ := Results.bind_eq_ok_iff.mp hok
        have hroom := (word_eq_ok hword).1
        rw [if_neg hlength, guard, if_pos hroom]
        exact ⟨_, _, rfl, hroom, Nat.le_of_not_lt htotal⟩

/-- A page whose type byte is accepted has a kind. -/
theorem isInterior_eq_ok {byte : UInt8} {page : Nat} (h : isInterior byte page = .ok interior) :
    ∃ kind, byte = Page.typeByte kind interior := by
  rw [isInterior] at h
  split at h
  case isTrue hbyte =>
    cases h
    rcases hbyte with rfl | rfl
    · exact ⟨.index, rfl⟩
    · exact ⟨.table, rfl⟩
  case isFalse =>
    split at h
    case isTrue hbyte =>
      cases h
      rcases hbyte with rfl | rfl
      · exact ⟨.index, rfl⟩
      · exact ⟨.table, rfl⟩
    case isFalse => cases h

/-- A cell that the code accepts is one of the format, in its place. -/
theorem cellPointers_eq_ok (h : 257 ≤ bytes.length) {first last index : Nat}
    {found : List Nat × List (Nat × Nat)}
    (hok : cellPointers bytes (Page.typeByte kind interior) interior first last index = .ok found) :
    ∃ cell stop, readCell bytes.length kind interior bytes
        (ofBE (slice bytes (first + index * 2) 2)) = some (cell, stop) ∧
      last ≤ ofBE (slice bytes (first + index * 2) 2) ∧ stop ≤ bytes.length ∧
      cell.total ≤ 2147483647 := by
  rw [cellPointers] at hok
  obtain ⟨offset, hshort, hok⟩ := Results.bind_eq_ok_iff.mp hok
  obtain ⟨-, rfl⟩ := short_eq_ok hshort
  generalize ofBE (slice bytes (first + index * 2) 2) = start at hok ⊢
  split at hok
  case isTrue => cases hok
  case isFalse hplace =>
    have hlast : last ≤ start := by omega
    obtain ⟨⟨children, behind⟩, hchild, hok⟩ := Results.bind_eq_ok_iff.mp hok
    dsimp only at hok
    cases interior with
    | false =>
        have hbyte : Page.typeByte kind false = 13 ↔ kind = .table := by cases kind <;> decide
        have hinterior : Page.typeByte kind false ≠ 5 := by cases kind <;> decide
        rw [childPointer, if_neg (by decide)] at hchild
        cases hchild
        rw [if_neg hinterior] at hok
        obtain ⟨overflows, hpayload, -⟩ := Results.bind_eq_ok_iff.mp hok
        obtain ⟨cell, stop, hread, hbounds⟩ := payloadPointers_eq_ok h hbyte 0 hpayload
        refine ⟨cell, stop, ?_, hlast, hbounds⟩
        cases kind <;> exact hread
    | true =>
        rw [childPointer, if_pos rfl] at hchild
        obtain ⟨child, hword, hchild⟩ := Results.bind_eq_ok_iff.mp hchild
        cases hchild
        cases kind with
        | index =>
            have hbyte : Page.typeByte .index true = 13 ↔ Kind.index = .table := by decide
            rw [if_neg (by decide)] at hok
            obtain ⟨overflows, hpayload, -⟩ := Results.bind_eq_ok_iff.mp hok
            obtain ⟨cell, stop, hread, hbounds⟩ :=
              payloadPointers_eq_ok h hbyte (ofBE (slice bytes start 4)) hpayload
            exact ⟨cell, stop, hread, hlast, hbounds⟩
        | table =>
            rw [if_pos (by decide)] at hok
            obtain ⟨⟨key, stop⟩, hvarint, -⟩ := Results.bind_eq_ok_iff.mp hok
            have hread := varint_eq_ok hvarint
            refine ⟨{ child := ofBE (slice bytes start 4), key := Format.rowidOf key },
              stop, ?_, hlast,
              (readVarint_bounds hread).2, Nat.zero_le _⟩
            rw [readCell, hread]
            rfl

/-- Cells that are read are those of the format. -/
theorem mapM_cellPointers_eq_ok (h : 257 ≤ bytes.length) {first last : Nat} {indices : List Nat}
    {found : List (List Nat × List (Nat × Nat))}
    (hok : indices.mapM (cellPointers bytes (Page.typeByte kind interior) interior first last) =
      .ok found) :
    ∃ cells, (indices.map fun i => ofBE (slice bytes (first + i * 2) 2)).mapM
        (readCell bytes.length kind interior bytes) = some cells ∧
      ∀ extent ∈ (indices.map fun i => ofBE (slice bytes (first + i * 2) 2)).zip cells,
        last ≤ extent.1 ∧ extent.2.2 ≤ bytes.length ∧ extent.2.1.total ≤ 2147483647 := by
  induction indices generalizing found with
  | nil => exact ⟨[], rfl, nofun⟩
  | cons index indices ih =>
      rw [List.mapM_cons] at hok
      obtain ⟨head, hhead, hok⟩ := Results.bind_eq_ok_iff.mp hok
      obtain ⟨tail, htail, -⟩ := Results.bind_eq_ok_iff.mp hok
      obtain ⟨cell, stop, hcell, hplace⟩ := cellPointers_eq_ok h hhead
      obtain ⟨cells, hcells, hplaces⟩ := ih htail
      refine ⟨(cell, stop) :: cells, ?_, fun extent hextent => ?_⟩
      · rw [List.map_cons, List.mapM_cons, hcell]
        simp only [Option.bind_eq_bind, Option.bind_some, hcells]
        rfl
      · rw [List.map_cons, List.zip_cons_cons, List.mem_cons] at hextent
        rcases hextent with rfl | hextent
        · exact hplace
        · exact hplaces extent hextent

end accepted

/-- A page that the code accepts is a page of the format. -/
theorem pointers_eq_ok {bytes : Bytes} (h : 257 ≤ bytes.length) {page : Nat}
    {found : List Nat × List (Nat × Nat)} (hok : pointers bytes page = .ok found) :
    ∃ kind interior node, bytes[headerOffset page]? = some (Page.typeByte kind interior) ∧
      readPage bytes.length (headerOffset page) kind interior bytes = some node := by
  rw [pointers] at hok
  obtain ⟨byte, hbyte, hok⟩ := Results.bind_eq_ok_iff.mp hok
  obtain ⟨interior, hinterior, hok⟩ := Results.bind_eq_ok_iff.mp hok
  obtain ⟨count, hcount, hok⟩ := Results.bind_eq_ok_iff.mp hok
  obtain ⟨kind, rfl⟩ := isInterior_eq_ok hinterior
  obtain ⟨-, rfl⟩ := short_eq_ok hcount
  have hkind : bytes[headerOffset page]? = some (Page.typeByte kind interior) := by
    rw [pageKind] at hbyte
    split at hbyte
    case h_1 byte hbyte' =>
      cases hbyte
      exact hbyte'
    case h_2 => cases hbyte
  dsimp only at hok
  split at hok
  case isTrue => cases hok
  case isFalse harray =>
    obtain ⟨cells, hcells, -⟩ := Results.bind_eq_ok_iff.mp hok
    obtain ⟨read, hread, hplaces⟩ := mapM_cellPointers_eq_ok h hcells
    refine ⟨kind, interior, ⟨read.map Prod.fst,
      if interior then ofBE (slice bytes (headerOffset page + 8) 4) else 0⟩, hkind, ?_⟩
    simp only [readPage, Option.bind_eq_bind, Option.bind_eq_some_iff, Option.guard_eq_some']
    exact ⟨(), ⟨trivial, hkind⟩, (), Nat.le_of_not_lt harray, read, hread, (), hplaces, rfl⟩

/-- The code finds the pointers of the pages of the format, and refuses all others. -/
theorem toOption_pointers {bytes : Bytes} (h : 257 ≤ bytes.length) (page : Nat) :
    (pointers bytes page).toOption = linksOf bytes.length (headerOffset page) bytes := by
  have hread : ∀ {kind interior node},
      bytes[headerOffset page]? = some (Page.typeByte kind interior) →
      readPage bytes.length (headerOffset page) kind interior bytes = some node →
      linksOf bytes.length (headerOffset page) bytes =
        some (childrenOf interior node, node.cells.flatMap (overflowOf bytes.length kind)) := by
    intro kind interior node hkind hnode
    have htype : pageType (Page.typeByte kind interior) = some (kind, interior) := by
      cases kind <;> cases interior <;> rfl
    simp only [linksOf, hkind, Option.bind_eq_bind, Option.bind_some, htype, hnode]
  cases hok : pointers bytes page with
  | ok found =>
      obtain ⟨kind, interior, node, hkind, hnode⟩ := pointers_eq_ok h hok
      rw [hread hkind hnode, ← hok, pointers_eq h hnode]
      rfl
  | error failure =>
      cases hlinks : linksOf bytes.length (headerOffset page) bytes with
      | none => rfl
      | some links =>
          simp only [linksOf, Option.bind_eq_bind, Option.bind_eq_some_iff] at hlinks
          obtain ⟨byte, -, ⟨kind, interior⟩, -, node, hnode, -⟩ := hlinks
          rw [pointers_eq h hnode] at hok
          cases hok

/-- `pointers` does not panic, whatever the page holds; and on a page of the file format it returns
the children of the cells with the right-most last, and of each payload beyond the limit the first
overflow page and the number of pages that hold the rest. -/
theorem pointers_safe_exact {bytes : Bytes} (h : 257 ≤ bytes.length) (page : Nat) :
    pointers bytes page ≠ .error .panic ∧
      ∀ {kind : Kind} {interior : Bool} {node : Node},
        readPage bytes.length (headerOffset page) kind interior bytes = some node →
        pointers bytes page =
          .ok (childrenOf interior node, node.cells.flatMap (overflowOf bytes.length kind)) :=
  ⟨pointers_ne_panic h page, pointers_eq h⟩

/-- An interior page of an index with one cell, whose payload of 300 bytes needs two more pages. -/
def indexPage : Bytes :=
  [2, 0, 0, 0, 1, 0, 0, 0, 0, 0, 0, 8, 0, 14, 0, 0, 0, 9, 130, 44, 1, 2, 3, 4, 5, 6, 7, 0,
    0, 0, 4] ++
    List.replicate 226 0

/-- An index page with a chain of two pages and a right child. -/
theorem pointers_safe_exact_index : pointers indexPage 3 = .ok ([9, 8], [(4, 2)]) := by
  have hlength : 257 ≤ indexPage.length := by decide +kernel
  have hread : readPage indexPage.length (headerOffset 3) .index true indexPage =
      some { cells := [{ child := 9, total := 300, inline := [1, 2, 3, 4, 5, 6, 7], overflow := 4 }]
             right := 8 } := by decide +kernel
  rw [(pointers_safe_exact hlength 3).2 hread]
  decide +kernel

end Velr.Validation
