import Mathlib.Data.List.Forall2
import Velr.Import.Batch

/-!
# The arena of a batch

The pushes of `import/batch.rs` one by one: bytes are appended to the arena, and their range becomes
a cell of two 32-bit offsets up to a threshold, and a wide range behind it. Whatever is pushed,
owned or borrowed, and whatever threshold each push has, every cell covers the bytes of its own
value (`batch_arena`).
-/

namespace Velr.Import

open ByteString Utf8 Record

namespace BatchValues

/-! ## Pushes -/

/-- `append_bytes`, and the range of the bytes. -/
def appendBytes (b : BatchValues) (bytes : Bytes) : BatchValues × (Nat × Nat) :=
  let start := b.bytes.length
  let b := { b with bytes := b.bytes ++ bytes }
  (b, (start, b.bytes.length))

/-- `wide_range_cell` -/
def wideRangeCell (b : BatchValues) (range : Nat × Nat) (text : Bool) : BatchValues × BatchCell :=
  let index := b.wideRanges.length
  ({ b with wideRanges := b.wideRanges ++ [range] },
    if text then .wideText index else .wideBlob index)

/-- `range_cell_bounded` -/
def rangeCellBounded (maximum : Nat) (b : BatchValues) (range : Nat × Nat) (text : Bool) :
    BatchValues × BatchCell :=
  if maximum < range.2 then b.wideRangeCell range text
  else if range.1 ≤ u32Max ∧ range.2 ≤ u32Max then
    (b, if text then .text range.1 range.2 else .blob range.1 range.2)
  else b.wideRangeCell range text

/-- `push_owned` and `push_text` behind the bytes of a value. -/
def pushBytes (maximum : Nat) (b : BatchValues) (bytes : Bytes) (text : Bool) : BatchValues :=
  let (b, range) := b.appendBytes bytes
  let (b, cell) := b.rangeCellBounded maximum range text
  { b with cells := b.cells ++ [cell] }

/-- `push_owned` -/
def pushOwned (maximum : Nat) (b : BatchValues) : Value → BatchValues
  | .null => { b with cells := b.cells ++ [.null] }
  | .integer value => { b with cells := b.cells ++ [.integer value] }
  | .real bits => { b with cells := b.cells ++ [.real bits] }
  | .text value => b.pushBytes maximum (asBytes value) true
  | .blob value => b.pushBytes maximum value false

/-- `push_text` -/
def pushText (maximum : Nat) (b : BatchValues) (value : String) : BatchValues :=
  b.pushBytes maximum (asBytes value) true

end BatchValues

/-- A value on its way into a batch, owned or borrowed. -/
inductive Pushed where
  | owned (value : Value)
  | borrowed (text : String)
deriving DecidableEq

/-- The value that is pushed. -/
def Pushed.value : Pushed → Value
  | .owned value => value
  | .borrowed text => .text text

/-- The bytes of a value in the arena. -/
def arenaBytes : Value → Bytes
  | .text value => asBytes value
  | .blob value => value
  | _ => []

/-- A cell with a wide range. -/
def BatchCell.isWide : BatchCell → Bool
  | .wideText _ | .wideBlob _ => true
  | _ => false

namespace BatchValues

/-- A push with a threshold of its own. -/
def pushOne (b : BatchValues) (p : Nat × Pushed) : BatchValues :=
  match p.2 with
  | .owned value => b.pushOwned p.1 value
  | .borrowed text => b.pushText p.1 text

/-- Several pushes. -/
def pushAll (pushes : List (Nat × Pushed)) (b : BatchValues) : BatchValues :=
  pushes.foldl pushOne b

/-- A push is one with the lower of its threshold and `u32::MAX`. -/
theorem pushOne_eq (b : BatchValues) (p : Nat × Pushed) :
    b.pushOne p = b.push (min p.1 u32Max) p.2.value := by
  have hbytes : ∀ (bytes : Bytes) (text : Bool),
      b.pushBytes p.1 bytes text = b.pushRange (min p.1 u32Max) bytes text := by
    intro bytes text
    simp only [pushBytes, appendBytes, rangeCellBounded, pushRange, List.length_append]
    by_cases hwide : min p.1 u32Max < b.bytes.length + bytes.length
    · rw [if_pos hwide]
      split
      · rfl
      · rw [if_neg (by omega)]
        rfl
    · rw [if_neg hwide, if_neg (by omega), if_pos (by omega)]
      rfl
  obtain ⟨maximum, pushed⟩ := p
  cases pushed with
  | borrowed text => exact hbytes (asBytes text) true
  | owned value =>
      cases value with
      | null | integer | real => rfl
      | text value => exact hbytes (asBytes value) true
      | blob value => exact hbytes value false

/-! ## What the cells cover -/

/-- A cell covers the bytes of its value: they lie in the arena, at a range of two 32-bit offsets or
at a wide range. -/
inductive Covers (b : BatchValues) : BatchCell → Value → Prop
  | null : Covers b .null .null
  | integer (value : Int64) : Covers b (.integer value) (.integer value)
  | real (bits : UInt64) : Covers b (.real bits) (.real bits)
  | text {start stop : Nat} {value : String} : stop ≤ u32Max →
      b.range start stop = some (asBytes value) → Covers b (.text start stop) (.text value)
  | blob {start stop : Nat} {value : Bytes} : stop ≤ u32Max →
      b.range start stop = some value → Covers b (.blob start stop) (.blob value)
  | wideText {index start stop : Nat} {value : String} :
      b.wideRanges[index]? = some (start, stop) →
      b.range start stop = some (asBytes value) → Covers b (.wideText index) (.text value)
  | wideBlob {index start stop : Nat} {value : Bytes} :
      b.wideRanges[index]? = some (start, stop) →
      b.range start stop = some value → Covers b (.wideBlob index) (.blob value)

/-- A cell covers its value in every batch that goes on. -/
theorem Covers.extends {b b' : BatchValues} (h : b.Extends b') {cell : BatchCell} {v : Value}
    (hc : b.Covers cell v) : b'.Covers cell v := by
  cases hc with
  | null => exact .null
  | integer value => exact .integer value
  | real bits => exact .real bits
  | text hstop hr => exact .text hstop (range_extends h hr)
  | blob hstop hr => exact .blob hstop (range_extends h hr)
  | wideText hw hr => exact .wideText (wideRange_extends h hw) (range_extends h hr)
  | wideBlob hw hr => exact .wideBlob (wideRange_extends h hw) (range_extends h hr)

/-- The value of a cell is the one it covers. -/
theorem Covers.value {b : BatchValues} {cell : BatchCell} {v : Value} (h : b.Covers cell v) :
    b.value cell = some v := by
  cases h with
  | null | integer | real => rfl
  | text _ hr | blob _ hr => simp [BatchValues.value, hr, fromUtf8_asBytes]
  | wideText hw hr | wideBlob hw hr => simp [BatchValues.value, hw, hr, fromUtf8_asBytes]

/-- The arena of some values. -/
structure Arena (b : BatchValues) (values : List Value) : Prop where
  cells : List.Forall₂ b.Covers b.cells values
  bytes : b.bytes = values.flatMap arenaBytes
  wide : b.wideRanges.length = b.cells.countP BatchCell.isWide

/-- An empty batch has no values. -/
theorem Arena.empty : Arena .empty [] := ⟨.nil, rfl, rfl⟩

/-- A push leaves the cells as they are and adds one that covers its value. -/
theorem Arena.concat {b b' : BatchValues} {values : List Value} {cell : BatchCell} {v : Value}
    (h : Arena b values) (hextends : b.Extends b') (hcells : b'.cells = b.cells ++ [cell])
    (hcovers : b'.Covers cell v) (hbytes : b'.bytes = b.bytes ++ arenaBytes v)
    (hwide : b'.wideRanges.length = b.wideRanges.length + if cell.isWide then 1 else 0) :
    Arena b' (values ++ [v]) := by
  refine ⟨?_, ?_, ?_⟩
  · rw [hcells]
    exact List.rel_append (h.cells.imp fun _ _ => Covers.extends hextends) (.cons hcovers .nil)
  · rw [hbytes, h.bytes, List.flatMap_append, List.flatMap_singleton]
  · rw [hwide, h.wide, hcells, List.countP_append, List.countP_singleton]

/-- A text or a blob is pushed. -/
theorem Arena.pushRange {b : BatchValues} {values : List Value} (h : Arena b values) {maximum : Nat}
    (hmaximum : maximum ≤ u32Max) {v : Value} {text : Bool}
    (hnarrow : ∀ (b : BatchValues) (start stop : Nat), stop ≤ u32Max →
      b.range start stop = some (arenaBytes v) →
      b.Covers (if text then .text start stop else .blob start stop) v)
    (hwide : ∀ (b : BatchValues) (index start stop : Nat),
      b.wideRanges[index]? = some (start, stop) → b.range start stop = some (arenaBytes v) →
      b.Covers (if text then .wideText index else .wideBlob index) v) :
    Arena (b.pushRange maximum (arenaBytes v) text) (values ++ [v]) := by
  rw [BatchValues.pushRange]
  split
  · refine h.concat ⟨arenaBytes v, [_], rfl, rfl⟩ rfl
      (hwide _ _ _ _ (List.getElem?_concat_length ..) (range_appended rfl)) rfl ?_
    cases text <;> exact List.length_append
  · next hlow =>
      refine h.concat ⟨arenaBytes v, [], rfl, (List.append_nil _).symm⟩ rfl
        (hnarrow _ _ _ (Nat.le_trans (Nat.not_lt.mp hlow) hmaximum) (range_appended rfl)) rfl ?_
      cases text <;> rfl

/-- A push adds a cell that covers its value. -/
theorem Arena.push {b : BatchValues} {values : List Value} (h : Arena b values) {maximum : Nat}
    (hmaximum : maximum ≤ u32Max) (v : Value) : Arena (b.push maximum v) (values ++ [v]) := by
  have hsame : ∀ cell : BatchCell, b.Extends { b with cells := b.cells ++ [cell] } :=
    fun _ => ⟨[], [], (List.append_nil _).symm, (List.append_nil _).symm⟩
  cases v with
  | null => exact h.concat (hsame _) rfl .null (List.append_nil _).symm rfl
  | integer value => exact h.concat (hsame _) rfl (.integer value) (List.append_nil _).symm rfl
  | real bits => exact h.concat (hsame _) rfl (.real bits) (List.append_nil _).symm rfl
  | text value =>
      exact @Arena.pushRange b values h maximum hmaximum (.text value) true
        (fun _ _ _ => .text) fun _ _ _ _ => .wideText
  | blob value =>
      exact @Arena.pushRange b values h maximum hmaximum (.blob value) false
        (fun _ _ _ => .blob) fun _ _ _ _ => .wideBlob

/-- Pushes one after the other. -/
theorem Arena.pushAll : ∀ {pushes : List (Nat × Pushed)} {b : BatchValues} {values : List Value},
    Arena b values → Arena (b.pushAll pushes) (values ++ pushes.map fun p => p.2.value)
  | [], _, values, h => by simpa [BatchValues.pushAll] using h
  | p :: pushes, b, values, h => by
      have hpush : Arena (b.pushOne p) (values ++ [p.2.value]) := by
        rw [pushOne_eq]
        exact h.push (Nat.min_le_right _ _) p.2.value
      have hrest := @Arena.pushAll pushes _ _ hpush
      rw [List.append_assoc] at hrest
      exact hrest

end BatchValues

/-- Any pushes of any values, each with any threshold: iteration gives the values in their order.
Every cell covers the bytes of its own value within the arena, so that what is taken for a text is
one, and `byte_len` counts the cells, the bytes of the values and one range for each wide cell. -/
theorem batch_arena (pushes : List (Nat × Pushed)) :
    let b := BatchValues.empty.pushAll pushes
    b.iter = some (pushes.map fun p => p.2.value) ∧
    List.Forall₂ b.Covers b.cells (pushes.map fun p => p.2.value) ∧
    b.bytes = (pushes.map fun p => p.2.value).flatMap arenaBytes ∧
    b.byteLen = pushes.length * BatchValues.cellSize
      + (pushes.map fun p => (arenaBytes p.2.value).length).sum
      + b.cells.countP BatchCell.isWide * BatchValues.rangeSize := by
  intro b
  have h : BatchValues.Arena b (pushes.map fun p => p.2.value) := BatchValues.Arena.empty.pushAll
  have hlength : b.cells.length = pushes.length := by rw [h.cells.length_eq, List.length_map]
  refine ⟨?_, h.cells, h.bytes, ?_⟩
  · have hvalues : ∀ {cells : List BatchCell} {values : List Value},
        List.Forall₂ b.Covers cells values → cells.mapM b.value = some values := by
      intro cells values hcells
      induction hcells with
      | nil => rfl
      | cons hcell _ ih => simp [List.mapM_cons, hcell.value, ih]
    exact hvalues h.cells
  · rw [BatchValues.byteLen, h.wide, hlength, h.bytes, List.length_flatMap, List.map_map]
    rfl

end Velr.Import
