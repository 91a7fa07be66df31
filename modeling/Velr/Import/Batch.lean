import Velr.Record.Codec

/-!
# Batch values

`BatchValues` of `import/batch.rs`: the cells of a batch of rows, with one byte arena for all text
and blob cells. A range that ends behind `u32::MAX` is kept in `wide_ranges`. `iter_push` is the
arena's purpose: what was pushed is read back, whatever is pushed after it.
-/

namespace Velr.Import

open ByteString Utf8 Record

/-- `u32::MAX` -/
def u32Max : Nat := 2 ^ 32 - 1

/-- `BatchCell`; a range is its start and its end. -/
inductive BatchCell where
  | null
  | integer (value : Int64)
  | real (bits : UInt64)
  | text (start stop : Nat)
  | blob (start stop : Nat)
  | wideText (index : Nat)
  | wideBlob (index : Nat)
deriving DecidableEq

/-- `BatchValues` -/
structure BatchValues where
  cells : List BatchCell
  bytes : Bytes
  wideRanges : List (Nat × Nat)
deriving DecidableEq

namespace BatchValues

/-- `with_capacity`: nothing is in it. -/
def empty : BatchValues where
  cells := []
  bytes := []
  wideRanges := []

/-- `cell_size`: a tag and eight bytes of payload. -/
def cellSize : Nat := 16

/-- The size of a `Range<usize>`. -/
def rangeSize : Nat := 16

/-- `len` -/
def len (b : BatchValues) : Nat := b.cells.length

/-- `is_empty` -/
def isEmpty (b : BatchValues) : Bool := b.cells.isEmpty

/-- `byte_len` -/
def byteLen (b : BatchValues) : Nat :=
  b.cells.length * cellSize + b.bytes.length + b.wideRanges.length * rangeSize

/-- `append_bytes`, and the cell of `range_cell` for a range that 32-bit offsets can name. -/
def pushNarrow (b : BatchValues) (bytes : Bytes) (text : Bool) : BatchValues :=
  let start := b.bytes.length
  let stop := b.bytes.length + bytes.length
  { b with
    cells := b.cells ++ [if text then .text start stop else .blob start stop]
    bytes := b.bytes ++ bytes }

/-- `append_bytes`, and the cell of `wide_range_cell`. -/
def pushWide (b : BatchValues) (bytes : Bytes) (text : Bool) : BatchValues :=
  let index := b.wideRanges.length
  { cells := b.cells ++ [if text then .wideText index else .wideBlob index]
    bytes := b.bytes ++ bytes
    wideRanges := b.wideRanges ++ [(b.bytes.length, b.bytes.length + bytes.length)] }

/-- `append_bytes` and `range_cell_bounded`. -/
def pushRange (maximum : Nat) (b : BatchValues) (bytes : Bytes) (text : Bool) : BatchValues :=
  if maximum < b.bytes.length + bytes.length then b.pushWide bytes text
  else b.pushNarrow bytes text

/-- `push_owned`; `push_text` is its text case. -/
def push (maximum : Nat) (b : BatchValues) : Value → BatchValues
  | .null => { b with cells := b.cells ++ [.null] }
  | .integer value => { b with cells := b.cells ++ [.integer value] }
  | .real bits => { b with cells := b.cells ++ [.real bits] }
  | .text value => b.pushRange maximum (asBytes value) true
  | .blob value => b.pushRange maximum value false

/-- `self.bytes[start..stop]`; `none` when it panics. -/
def range (b : BatchValues) (start stop : Nat) : Option Bytes :=
  if start ≤ stop ∧ stop ≤ b.bytes.length then some (slice b.bytes start (stop - start)) else none

/-- What `iter` makes of a cell; `none` when an index is out of bounds, or when bytes that are not
UTF-8 are taken for a text. -/
def value (b : BatchValues) : BatchCell → Option Value
  | .null => some .null
  | .integer value => some (.integer value)
  | .real bits => some (.real bits)
  | .text start stop => do
      let bytes ← b.range start stop
      (fromUtf8 bytes).map .text
  | .blob start stop => (b.range start stop).map .blob
  | .wideText index => do
      let (start, stop) ← b.wideRanges[index]?
      let bytes ← b.range start stop
      (fromUtf8 bytes).map .text
  | .wideBlob index => do
      let (start, stop) ← b.wideRanges[index]?
      (b.range start stop).map .blob

/-- `iter` -/
def iter (b : BatchValues) : Option (List Value) := b.cells.mapM b.value

/-! ## What was pushed is read back -/

/-- An arena with more in it. -/
def Extends (b b' : BatchValues) : Prop :=
  ∃ bytes ranges, b'.bytes = b.bytes ++ bytes ∧ b'.wideRanges = b.wideRanges ++ ranges

/-- A range of bytes is the same in every batch that goes on. -/
theorem range_extends {b b' : BatchValues} (h : b.Extends b') {start stop : Nat} {bytes : Bytes}
    (hr : b.range start stop = some bytes) : b'.range start stop = some bytes := by
  obtain ⟨more, _, hbytes, -⟩ := h
  unfold range at hr ⊢
  split at hr
  · next hin =>
      cases hr
      have hlen : stop ≤ b'.bytes.length := by
        rw [hbytes, List.length_append]
        omega
      rw [if_pos ⟨hin.1, hlen⟩, hbytes, slice_append_left (by omega)]
  · cases hr

/-- So is a wide range. -/
theorem wideRange_extends {b b' : BatchValues} (h : b.Extends b') {index : Nat} {r : Nat × Nat}
    (hr : b.wideRanges[index]? = some r) : b'.wideRanges[index]? = some r := by
  obtain ⟨_, ranges, -, hranges⟩ := h
  rw [hranges, List.getElem?_append_left (List.getElem?_eq_some_iff.mp hr).1, hr]

/-- A cell keeps its value. -/
theorem value_extends {b b' : BatchValues} (h : b.Extends b') {cell : BatchCell} {v : Value}
    (hv : b.value cell = some v) : b'.value cell = some v := by
  cases cell with
  | null | integer | real => exact hv
  | text start stop =>
      simp only [value, Option.bind_eq_bind, Option.bind_eq_some_iff] at hv ⊢
      obtain ⟨bytes, hr, ht⟩ := hv
      exact ⟨bytes, range_extends h hr, ht⟩
  | blob start stop =>
      simp only [value, Option.map_eq_some_iff] at hv ⊢
      obtain ⟨bytes, hr, ht⟩ := hv
      exact ⟨bytes, range_extends h hr, ht⟩
  | wideText index =>
      simp only [value, Option.bind_eq_bind, Option.bind_eq_some_iff] at hv ⊢
      obtain ⟨r, hw, bytes, hr, ht⟩ := hv
      exact ⟨r, wideRange_extends h hw, bytes, range_extends h hr, ht⟩
  | wideBlob index =>
      simp only [value, Option.bind_eq_bind, Option.bind_eq_some_iff, Option.map_eq_some_iff]
        at hv ⊢
      obtain ⟨r, hw, bytes, hr, ht⟩ := hv
      exact ⟨r, wideRange_extends h hw, bytes, range_extends h hr, ht⟩

/-- One more cell. -/
theorem iter_concat {b b' : BatchValues} {cell : BatchCell} {vs : List Value} {v : Value}
    (h : b.Extends b') (hcells : b'.cells = b.cells ++ [cell]) (hvs : b.iter = some vs)
    (hv : b'.value cell = some v) : b'.iter = some (vs ++ [v]) := by
  have hold : b.cells.mapM b'.value = some vs := by
    unfold iter at hvs
    generalize b.cells = cells at hvs
    induction cells generalizing vs with
    | nil => exact hvs
    | cons cell cells ih =>
        simp only [List.mapM_cons, Option.bind_eq_bind, Option.bind_eq_some_iff] at hvs ⊢
        obtain ⟨w, hw, ws, hws, hcons⟩ := hvs
        exact ⟨w, value_extends h hw, ws, ih hws, hcons⟩
  rw [iter, hcells, List.mapM_append, hold]
  simp [hv]

/-- The bytes just appended. -/
theorem range_appended {b b' : BatchValues} {bytes : Bytes} (h : b'.bytes = b.bytes ++ bytes) :
    b'.range b.bytes.length (b.bytes.length + bytes.length) = some bytes := by
  rw [range, h, if_pos ⟨Nat.le_add_right _ _, by simp⟩,
    slice_append_right (Nat.le_refl _)]
  simp [slice]

/-- What a text or a blob is read back as. -/
theorem iter_pushRange (maximum : Nat) {b : BatchValues} {vs : List Value} (h : b.iter = some vs)
    {bytes : Bytes} {text : Bool} {v : Value}
    (hv : (if text then (fromUtf8 bytes).map Value.text else some (.blob bytes)) = some v) :
    (b.pushRange maximum bytes text).iter = some (vs ++ [v]) := by
  unfold pushRange
  split
  · have hrange : (b.pushWide bytes text).range b.bytes.length _ = some bytes := range_appended rfl
    refine iter_concat ⟨bytes, [_], rfl, rfl⟩ rfl h ?_
    have hwide : (b.pushWide bytes text).wideRanges[b.wideRanges.length]? =
        some (b.bytes.length, b.bytes.length + bytes.length) := List.getElem?_concat_length ..
    cases text <;> simpa [value, hwide, hrange] using hv
  · have hrange : (b.pushNarrow bytes text).range b.bytes.length _ = some bytes :=
      range_appended rfl
    refine iter_concat ⟨bytes, [], rfl, (List.append_nil _).symm⟩ rfl h ?_
    cases text <;> simpa [value, hrange] using hv

/-- What was pushed is read back, whatever the threshold of the wide ranges. -/
theorem iter_push (maximum : Nat) {b : BatchValues} {vs : List Value} (h : b.iter = some vs)
    (v : Value) : (b.push maximum v).iter = some (vs ++ [v]) := by
  cases v with
  | null => exact iter_concat ⟨[], [], by simp [push], by simp [push]⟩ rfl h rfl
  | integer => exact iter_concat ⟨[], [], by simp [push], by simp [push]⟩ rfl h rfl
  | real => exact iter_concat ⟨[], [], by simp [push], by simp [push]⟩ rfl h rfl
  | text value => exact iter_pushRange maximum h (by simp [fromUtf8_asBytes])
  | blob value => exact iter_pushRange maximum h rfl

@[simp] theorem len_push (maximum : Nat) (b : BatchValues) (v : Value) :
    (b.push maximum v).len = b.len + 1 := by
  cases v with
  | null | integer | real => simp [push, len]
  | text | blob =>
      simp only [push, pushRange]
      split <;> simp [len, pushWide, pushNarrow]

end BatchValues

end Velr.Import
