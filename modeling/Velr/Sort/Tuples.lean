import Mathlib.Data.FinEnum
import Mathlib.Data.Int.Order.Basic
import Mathlib.Data.List.Lex
import Velr.Common.Groups
import Velr.Record.Specialised
import Velr.Sort.Key

/-!
# The records of tuples

What an index makes of a tuple: its record, and the first column in which the record differs from
the one before. A record repeats fields, so its columns are ordered as the sorted fields are, which
are the distinct ones in the order in which they come first (`rows_lt_iff`).
-/

namespace Velr.Sort

open ByteString (Bytes)
open IndexStats (Failure)
open PrefixGroups (firstChanged changedAt)
open Record (Value encodeRecord encodeTupleRecord)

/-- `Iterator::position` of the first field that differs. -/
def firstDifferent (tuple last : Tuple) : List Nat → Except Failure (Option Nat)
  | [] => .ok none
  | field :: fields =>
      match tuple[field]?, last[field]? with
      | some value, some before =>
          if value ≠ before then .ok (some 0)
          else do
            let position ← firstDifferent tuple last fields
            .ok (position.map (· + 1))
      | _, _ => .error .panic

/-- The first column that differs from the record before; equal records are `duplicate`. -/
def changedColumn (spec : IntegerIndexSpec) (duplicate : String) (tuple : Tuple) :
    Option Tuple → Except Failure Nat
  | none => .ok 0
  | some last => do
      match ← firstDifferent tuple last spec.recordFields with
      | some changed => .ok changed
      | none => .error (.error duplicate)

/-- `encode_tuple_record`; an index out of range panics. -/
def tupleRecord (spec : IntegerIndexSpec) (tuple : Tuple) : Except Failure Bytes :=
  match encodeTupleRecord tuple spec.recordFields with
  | some record => .ok record
  | none => .error .panic

/-! ## What the record of a tuple is -/

/-- The SQLite record of a tuple. -/
def recordOf (spec : IntegerIndexSpec) (tuple : Tuple) : Bytes :=
  encodeRecord ((valuesOf spec.recordFields tuple).map .integer)

/-- Some fields of a tuple as numbers. -/
def intsOf (fields : List Nat) (tuple : Tuple) : List Int := (valuesOf fields tuple).map Int64.toInt

/-- The columns of the record of a tuple. -/
def rowOf (spec : IntegerIndexSpec) (tuple : Tuple) : List Int := intsOf spec.recordFields tuple

@[simp] theorem length_valuesOf (fields : List Nat) (tuple : Tuple) :
    (valuesOf fields tuple).length = fields.length := List.length_map _

@[simp] theorem length_rowOf (spec : IntegerIndexSpec) (tuple : Tuple) :
    (rowOf spec tuple).length = spec.recordFields.length := by
  simp [rowOf, intsOf]

/-- The record of a tuple is that of its fields. -/
theorem tupleRecord_eq {spec : IntegerIndexSpec} (hfields : ∀ field ∈ spec.recordFields, field < 4)
    (hlength : spec.recordFields.length ≤ 8) (tuple : Tuple) :
    tupleRecord spec tuple = .ok (recordOf spec tuple) := by
  obtain ⟨fields, hval⟩ : ∃ fields : List (Fin 4), fields.map Fin.val = spec.recordFields :=
    ⟨spec.recordFields.pmap Fin.mk hfields, by
      rw [List.map_pmap]
      exact List.pmap_eq_self.mpr fun _ _ => rfl⟩
  have hvalues : fields.map tuple.get = valuesOf spec.recordFields tuple := by
    rw [valuesOf, ← hval, List.map_map]
    exact List.map_congr_left fun field _ => by simp [Vector.get]
  have hrecord := Record.encodeTupleRecord_eq tuple
    (show fields.length ≤ 8 by rwa [← hval, List.length_map] at hlength)
  rw [hval, hvalues] at hrecord
  rw [tupleRecord, hrecord]
  rfl

/-- A record of at most eight integers takes at most 73 bytes. -/
theorem length_record_integers {values : List Int64} (h : values.length ≤ 8) :
    0 < (encodeRecord (values.map .integer)).length ∧
      (encodeRecord (values.map .integer)).length ≤ 73 := by
  have hheader : (Record.header (values.map .integer)).length = values.length := by
    rw [Record.header_integers, List.length_map]
  have hbody : (Record.body (values.map .integer)).length ≤ 8 * values.length := by
    rw [Record.body_integers]
    clear h hheader
    induction values with
    | nil => simp
    | cons value values ih =>
        have hle := Record.integerRecordType_le value
        rw [List.map_cons, List.flatten_cons, List.length_append, Record.length_lowBytes,
          List.length_cons]
        omega
  rw [Record.encodeRecord_short (by omega), List.length_cons, List.length_append]
  omega

/-- A record has a byte at least and 73 at most. -/
theorem length_recordOf {spec : IntegerIndexSpec} (hlength : spec.recordFields.length ≤ 8)
    (tuple : Tuple) : 0 < (recordOf spec tuple).length ∧ (recordOf spec tuple).length ≤ 73 :=
  length_record_integers (by rwa [length_valuesOf])

/-- The fields outside of a list do not show in it. -/
theorem valuesOf_restrict {fields record : List Nat} (hfields : ∀ field ∈ record, field < 4)
    (h : ∀ field ∈ record, field ∈ fields) (tuple : Tuple) :
    valuesOf record (restrict fields tuple) = valuesOf record tuple := by
  refine List.map_congr_left fun field hfield => ?_
  have hfour := hfields field hfield
  rw [Vector.getElem?_eq_getElem hfour, Vector.getElem?_eq_getElem hfour, restrict,
    Vector.getElem_ofFn]
  simp only [if_pos (h field hfield)]

/-! ## The first column that differs -/

/-- The first field that differs is the column that changes. -/
theorem firstDifferent_eq {tuple last : Tuple} : ∀ {fields : List Nat},
    (∀ field ∈ fields, field < 4) →
    firstDifferent tuple last fields =
      .ok (if valuesOf fields last = valuesOf fields tuple then none
        else some (firstChanged ((valuesOf fields last).map Int64.toInt)
          ((valuesOf fields tuple).map Int64.toInt)))
  | [], _ => rfl
  | field :: fields, h => by
      have hfour := h field (by simp)
      have ih : firstDifferent tuple last fields = _ :=
        firstDifferent_eq fun f (hf : f ∈ fields) => h f (by simp [hf])
      simp only [firstDifferent, valuesOf, List.map_cons, Vector.getElem?_eq_getElem hfour,
        Option.getD_some, firstChanged, Int64.toInt_inj, List.cons.injEq] at ih ⊢
      by_cases heq : tuple[field] = last[field]
      · rw [if_neg (by simpa using heq), ih, if_pos heq.symm]
        by_cases hrest :
            fields.map (fun f => last[f]?.getD 0) = fields.map fun f => tuple[f]?.getD 0
        · simp only [hrest, heq, and_self, if_true]
          rfl
        · simp only [hrest, and_false, if_false, heq]
          rfl
      · rw [if_pos heq, if_neg (Ne.symm heq), if_neg fun hand => heq hand.1.symm]

/-- The first changed column of each tuple behind another one. -/
def columnsFrom (spec : IntegerIndexSpec) : Option Tuple → List Tuple → List Nat
  | _, [] => []
  | previous, tuple :: tuples =>
      previous.elim 0 (fun last => firstChanged (rowOf spec last) (rowOf spec tuple)) ::
        columnsFrom spec (some tuple) tuples

/-- The changes from a tuple on are those of the rows. -/
theorem columnsFrom_some (spec : IntegerIndexSpec) (last : Tuple) (tuples : List Tuple) :
    columnsFrom spec (some last) tuples = (List.range tuples.length).map fun i =>
      changedAt ((last :: tuples).map (rowOf spec)) (i + 1) := by
  induction tuples generalizing last with
  | nil => rfl
  | cons tuple tuples ih =>
      rw [columnsFrom, ih, List.length_cons, List.range_succ_eq_map]
      show _ = _ :: (List.map Nat.succ _).map _
      rw [List.map_map]
      rfl

/-- The columns of a list of tuples are those of its rows. -/
theorem columnsFrom_none (spec : IntegerIndexSpec) (tuples : List Tuple) :
    columnsFrom spec none tuples
      = (List.range (tuples.map (rowOf spec)).length).map
        (changedAt (tuples.map (rowOf spec))) := by
  cases tuples with
  | nil => rfl
  | cons tuple tuples =>
      rw [columnsFrom, columnsFrom_some, List.length_map, List.length_cons, List.range_succ_eq_map]
      show _ = _ :: (List.map Nat.succ _).map _
      rw [List.map_map]
      rfl

/-- `changed_column` is the column that changes; a tuple with the same fields is an error. -/
theorem changedColumn_eq {spec : IntegerIndexSpec}
    (hfields : ∀ field ∈ spec.recordFields, field < 4)
    (duplicate : String) (tuple : Tuple) (previous : Option Tuple) :
    changedColumn spec duplicate tuple previous =
      if ∀ last ∈ previous, valuesOf spec.recordFields last ≠ valuesOf spec.recordFields tuple then
        .ok (previous.elim 0 fun last => firstChanged (rowOf spec last) (rowOf spec tuple))
      else .error (.error duplicate) := by
  cases previous with
  | none => exact (if_pos fun _ h => by cases h).symm
  | some last =>
      rw [changedColumn, firstDifferent_eq hfields]
      by_cases heq : valuesOf spec.recordFields last = valuesOf spec.recordFields tuple
      · rw [if_pos heq, if_neg fun h => h last rfl heq]
        rfl
      · rw [if_neg heq, if_pos fun l hl => by cases hl; exact heq]
        rfl

/-! ## The order of the columns -/

/-- Tuples in the order of some fields. -/
def TupleLt (fields : List Nat) (a b : Tuple) : Prop :=
  List.Lex (· < ·) (valuesOf fields a) (valuesOf fields b)

/-- The order of the tuples is that of their integers. -/
theorem intsOf_lt_iff {fields : List Nat} {a b : Tuple} :
    intsOf fields a < intsOf fields b ↔ TupleLt fields a b := by
  have hlex : List.Lex (· < ·) (fields.map fun field => (a[field]?.getD 0).toInt)
        (fields.map fun field => (b[field]?.getD 0).toInt) ↔ TupleLt fields a b :=
    lex_map_iff fun field _ => ⟨Int64.lt_iff_toInt_lt.symm, Int64.toInt_inj⟩
  rw [← hlex, intsOf, intsOf, valuesOf, valuesOf, List.map_map, List.map_map]
  rfl

/-- Tuples have the same integers if they have the same fields. -/
theorem intsOf_eq_iff {fields : List Nat} {a b : Tuple} :
    intsOf fields a = intsOf fields b ↔ valuesOf fields a = valuesOf fields b :=
  (List.map_injective_iff.mpr fun _ _ => Int64.toInt_inj.mp).eq_iff

/-- The first field decides unless it is equal. -/
theorem tupleLt_cons {a b : Tuple} {field : Nat} {fields : List Nat} :
    TupleLt (field :: fields) a b ↔ a[field]?.getD 0 < b[field]?.getD 0 ∨
      a[field]?.getD 0 = b[field]?.getD 0 ∧ TupleLt fields a b := by
  simp only [TupleLt, valuesOf, List.map_cons, List.cons_lex_cons_iff]

/-- A field of one value does not decide. -/
theorem tupleLt_of_eq {a b : Tuple} {rest : List Nat} {field : Nat}
    (heq : a[field]?.getD 0 = b[field]?.getD 0) : ∀ front : List Nat,
    TupleLt (front ++ field :: rest) a b ↔ TupleLt (front ++ rest) a b
  | [] => by
      rw [List.nil_append, List.nil_append, tupleLt_cons, heq]
      simp
  | first :: front => by
      rw [List.cons_append, List.cons_append, tupleLt_cons, tupleLt_cons, tupleLt_of_eq heq front]

/-- A field that stands before already does not decide. -/
theorem tupleLt_of_mem {a b : Tuple} {rest : List Nat} {field : Nat} : ∀ {front : List Nat},
    field ∈ front → (TupleLt (front ++ field :: rest) a b ↔ TupleLt (front ++ rest) a b)
  | first :: front, h => by
      rw [List.cons_append, List.cons_append, tupleLt_cons, tupleLt_cons]
      by_cases hfirst : a[first]?.getD 0 = b[first]?.getD 0
      · rcases List.mem_cons.mp h with rfl | hmem
        · rw [tupleLt_of_eq hfirst front]
        · rw [tupleLt_of_mem hmem]
      · simp [hfirst]

/-- Leaving out repeated fields keeps the order. -/
theorem tupleLt_recordOrder (fields : List Nat) (a b : Tuple) :
    TupleLt (recordOrder fields) a b ↔ TupleLt fields a b := by
  have hfold : ∀ (fields front : List Nat), TupleLt (fields.foldl (fun order field =>
      if field ∈ order then order else order ++ [field]) front) a b ↔
        TupleLt (front ++ fields) a b := by
    intro fields
    induction fields with
    | nil => simp
    | cons field fields ih =>
        intro front
        rw [List.foldl_cons, ih]
        split
        · next hmem => exact (tupleLt_of_mem hmem).symm
        · rw [List.append_assoc]
          rfl
  exact hfold fields []

/-- The order of a record has its fields. -/
theorem mem_recordOrder {field : Nat} {fields : List Nat} :
    field ∈ recordOrder fields ↔ field ∈ fields := by
  have hfold : ∀ (fields front : List Nat), field ∈ fields.foldl (fun order field =>
      if field ∈ order then order else order ++ [field]) front ↔ field ∈ front ∨
        field ∈ fields := by
    intro fields
    induction fields with
    | nil => simp
    | cons first fields ih =>
        intro front
        rw [List.foldl_cons, ih, List.mem_cons]
        split
        · next hmem =>
            refine ⟨fun h => h.imp_right .inr, fun h => ?_⟩
            rcases h with h | rfl | h
            · exact .inl h
            · exact .inl hmem
            · exact .inr h
        · rw [List.mem_append, List.mem_singleton, or_assoc]
  exact (hfold fields []).trans (by simp)

section
variable {spec : IntegerIndexSpec} {fields : Nat}

/-- The fields of a valid specification are those of a tuple. -/
theorem IntegerIndexSpec.Valid.field_lt (h : spec.Valid fields) (harity : fields ≤ 4) :
    ∀ field ∈ spec.recordFields, field < 4 := fun field hfield =>
  Nat.lt_of_lt_of_le (h.2.2.2.2.2.2.1 field (h.2.2.2.2.2.2.2.1 field hfield)) harity

/-- Rows are ordered as the sorted fields. -/
theorem IntegerIndexSpec.Valid.row_lt_iff (h : spec.Valid fields) {a b : Tuple} :
    rowOf spec a < rowOf spec b ↔ TupleLt spec.sortedFields a b := by
  rw [rowOf, rowOf, intsOf_lt_iff, ← tupleLt_recordOrder, h.2.2.2.2.2.2.2.2]

/-- Rows are equal where the sorted fields are. -/
theorem IntegerIndexSpec.Valid.row_eq_iff (h : spec.Valid fields) {a b : Tuple} :
    valuesOf spec.recordFields a = valuesOf spec.recordFields b ↔
      valuesOf spec.sortedFields a = valuesOf spec.sortedFields b := by
  rw [valuesOf, valuesOf, valuesOf, valuesOf, List.map_inj_left, List.map_inj_left,
    ← h.2.2.2.2.2.2.2.2]
  simp only [mem_recordOrder]

end

end Velr.Sort
