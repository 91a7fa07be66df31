import Velr.Common.BitFields
import Velr.Common.Results
import Velr.IndexStats.Sampler
import Velr.Record.Codec

/-!
# The tuple spool and its key codec

`IntegerSpool::create`, `push` and `Codec::new` of `index_builder.rs`. A spool keeps tuples of one
to four integers, padded with zeros, and the range of each field; a codec derives from the ranges
how many bits each sorted field takes in a packed key. `Codec.Covers` is what a codec knows of the
tuples of its spool.
-/

namespace Velr.Sort

open IndexStats (Failure)

/-! ## The spool -/

/-- `[i64; 4]` -/
abbrev Tuple := Vector Int64 4

/-- `value as u64 ^ (1 << 63)` -/
def ordered (value : Int64) : UInt64 := value.toUInt64 ^^^ ((1 : UInt64) <<< 63)

/-- `(value ^ (1 << 63)) as i64` -/
def unordered (value : UInt64) : Int64 := (value ^^^ ((1 : UInt64) <<< 63)).toInt64

/-- `IntegerIndexSpec` -/
structure IntegerIndexSpec where
  sortedFields : List Nat
  recordFields : List Nat
  keyColumns : Nat

/-- `IntegerSpool`; its file is the list of the tuples. -/
structure IntegerSpool where
  fields : Nat
  tuples : List Tuple
  isSealed : Bool
  rows : Nat
  minimum : Vector UInt64 4
  maximum : Vector UInt64 4

/-- `IntegerSpool::create` -/
def IntegerSpool.create (fields : Nat) : Except Failure IntegerSpool :=
  if 1 ≤ fields ∧ fields ≤ 4 then
    .ok
      { fields, tuples := [], isSealed := false, rows := 0
        minimum := .replicate 4 (.ofNat Record.usizeMax)
        maximum := .replicate 4 0 }
  else .error (.error "integer index tuple must have one to four fields")

/-- The tuple of some values, zeros behind them. -/
def padded (values : List Int64) : Tuple := .ofFn fun field => values[field.val]?.getD 0

/-- `IntegerSpool::push` -/
def IntegerSpool.push (spool : IntegerSpool) (values : List Int64) :
    Except Failure IntegerSpool :=
  if values.length ≠ spool.fields then
    .error (.error "integer index tuple has an unexpected field count")
  else if spool.isSealed then
    .error (.error "integer index tuple spool is already sealed")
  else if Record.usizeMax < spool.rows + 1 then .error (.error "too many index tuples")
  else
    .ok { spool with
      tuples := spool.tuples ++ [padded values]
      rows := spool.rows + 1
      minimum := .ofFn fun field => match values[field.val]? with
        | some value => min (spool.minimum.get field) (ordered value)
        | none => spool.minimum.get field
      maximum := .ofFn fun field => match values[field.val]? with
        | some value => max (spool.maximum.get field) (ordered value)
        | none => spool.maximum.get field }

/-- `IntegerSpool::seal` -/
def IntegerSpool.seal (spool : IntegerSpool) : IntegerSpool := { spool with isSealed := true }

/-- A spool after some pushes. -/
def IntegerSpool.pushAll (spool : IntegerSpool) : List (List Int64) → Except Failure IntegerSpool
  | [] => .ok spool
  | values :: rest => do
      let spool ← spool.push values
      spool.pushAll rest

/-! ## The codec -/

/-- `Codec` -/
structure Codec where
  fields : List Nat
  minimum : Vector UInt64 4
  shifts : List Nat
  masks : List Nat
  bits : Nat

/-- The distinct fields of a record in the order in which they come first. -/
def recordOrder (fields : List Nat) : List Nat :=
  fields.foldl (fun order field => if field ∈ order then order else order ++ [field]) []

/-- A specification that `Codec::new` accepts. -/
def IntegerIndexSpec.Valid (spec : IntegerIndexSpec) (fields : Nat) : Prop :=
  spec.sortedFields ≠ [] ∧ spec.sortedFields.length ≤ 4 ∧
  spec.recordFields ≠ [] ∧ spec.recordFields.length ≤ 8 ∧
  spec.keyColumns ≠ 0 ∧ spec.keyColumns ≤ spec.recordFields.length ∧
  (∀ field ∈ spec.sortedFields, field < fields) ∧
  (∀ field ∈ spec.recordFields, field ∈ spec.sortedFields) ∧
  recordOrder spec.recordFields = spec.sortedFields

instance (spec : IntegerIndexSpec) (fields : Nat) : Decidable (spec.Valid fields) :=
  inferInstanceAs (Decidable (_ ∧ _ ∧ _ ∧ _ ∧ _ ∧ _ ∧ _ ∧ _ ∧ _))

/-- The number of significant bits of the range of a field, `64 - range.leading_zeros()`. -/
def fieldWidth (spool : IntegerSpool) (field : Nat) : Except Failure Nat :=
  if spool.rows = 0 then .ok 0
  else
    match spool.minimum[field]?, spool.maximum[field]? with
    | some minimum, some maximum =>
        -- a subtraction that underflows panics
        if minimum ≤ maximum then .ok (bitLength (maximum - minimum).toNat) else .error .panic
    | _, _ => .error .panic

/-- The mask of a field of a width; a shift by the whole word would panic. -/
def maskOf (width : Nat) : Except Failure Nat :=
  if width = 0 then .ok 0
  else if width = 64 then .ok (2 ^ 64 - 1)
  else if width < 64 then .ok (1 <<< width - 1)
  else .error .panic

/-- The second loop of `Codec::new`: the shift and the mask of each field. -/
def layout : List Nat → Nat → Except Failure (List Nat × List Nat)
  | [], _ => .ok ([], [])
  | width :: widths, remaining =>
      if remaining < width then .error .panic
      else do
        let remaining := remaining - width
        let mask ← maskOf width
        let (shifts, masks) ← layout widths remaining
        .ok ((if width = 0 then 0 else remaining) :: shifts, mask :: masks)

/-- `Codec::new` -/
def Codec.new (spool : IntegerSpool) (spec : IntegerIndexSpec) : Except Failure Codec :=
  if spec.Valid spool.fields then do
    let widths ← spec.sortedFields.mapM (fieldWidth spool)
    let bits := widths.sum
    let (shifts, masks) ← layout widths bits
    .ok { fields := spec.sortedFields, minimum := spool.minimum, shifts, masks, bits }
  else .error (.error "invalid integer index field specification")

/-! ## The order of the words -/

/-- Flipping the sign bit adds it. -/
theorem xor_signBit {n : Nat} (h : n < 2 ^ 64) : n ^^^ 2 ^ 63 = (n + 2 ^ 63) % 2 ^ 64 := by
  apply Nat.eq_of_testBit_eq
  intro i
  rw [Nat.testBit_xor, Nat.testBit_mod_two_pow, Nat.add_comm n]
  rcases Nat.lt_trichotomy i 63 with hi | hi | hi
  · rw [Nat.testBit_two_pow_add_gt hi, Nat.testBit_two_pow_of_ne (by omega)]
    simp [show i < 64 by omega]
  · subst hi
    rw [Nat.testBit_two_pow_add_eq, Nat.testBit_two_pow_self]
    simp
  · have hle : 2 ^ 64 ≤ 2 ^ i := Nat.pow_le_pow_right (by omega) hi
    rw [Nat.testBit_lt_two_pow (Nat.lt_of_lt_of_le h hle), Nat.testBit_two_pow_of_ne (by omega)]
    simp [show ¬i < 64 by omega]

/-- The ordered form of a value is its distance from the least one. -/
theorem toNat_ordered (value : Int64) : ((ordered value).toNat : Int) = value.toInt + 2 ^ 63 := by
  have h63 : ((1 : UInt64) <<< 63).toNat = 2 ^ 63 := by decide
  have hlt := value.toUInt64.toNat_lt
  have hlow := value.le_toInt
  have hhigh := value.toInt_lt
  have hvalue : value.toInt = if value.toUInt64.toNat < 2 ^ 63 then (value.toUInt64.toNat : Int)
      else value.toUInt64.toNat - 2 ^ 64 := by
    have hbits : value.toBitVec.toNat = value.toUInt64.toNat := rfl
    rw [← Int64.toInt_toBitVec, BitVec.toInt_eq_toNat_cond, hbits]
    omega
  rw [ordered, UInt64.toNat_xor, h63, xor_signBit hlt]
  split at hvalue <;> omega

/-- The words are ordered as the signed numbers. -/
theorem ordered_lt_iff {a b : Int64} : ordered a < ordered b ↔ a < b := by
  have ha := toNat_ordered a
  have hb := toNat_ordered b
  rw [UInt64.lt_iff_toNat_lt, Int64.lt_iff_toInt_lt]
  omega

@[simp] theorem unordered_ordered (value : Int64) : unordered (ordered value) = value := by
  rw [unordered, ordered, UInt64.xor_assoc, UInt64.xor_self, UInt64.xor_zero,
    Int64.toInt64_toUInt64]

/-! ## What a spool knows of its tuples -/

/-- The tuples of a spool lie in its ranges, with zeros in the fields it does not have. -/
structure IntegerSpool.Ranges (spool : IntegerSpool) : Prop where
  arity : spool.fields ≤ 4
  rows : spool.rows = spool.tuples.length
  within : ∀ tuple ∈ spool.tuples, ∀ field (h : field < 4), field < spool.fields →
    spool.minimum[field] ≤ ordered tuple[field] ∧ ordered tuple[field] ≤ spool.maximum[field]
  zeros : ∀ tuple ∈ spool.tuples, ∀ field (h : field < 4), spool.fields ≤ field → tuple[field] = 0

/-- A new spool has no ranges to keep. -/
theorem IntegerSpool.create_ranges {fields : Nat} {spool : IntegerSpool}
    (h : IntegerSpool.create fields = .ok spool) : spool.Ranges := by
  unfold IntegerSpool.create at h
  split at h
  · next harity =>
      cases h
      exact ⟨harity.2, rfl, fun _ h => (by cases h), fun _ h => (by cases h)⟩
  · cases h

/-- Pushing a tuple extends the ranges. -/
theorem IntegerSpool.Ranges.push {spool pushed : IntegerSpool} (h : spool.Ranges)
    {values : List Int64} (hpush : spool.push values = .ok pushed) : pushed.Ranges := by
  unfold IntegerSpool.push at hpush
  split at hpush
  · cases hpush
  split at hpush
  · cases hpush
  split at hpush
  · cases hpush
  next hlength _ _ =>
    cases hpush
    have hlength : values.length = spool.fields := by simpa using hlength
    have hle := h.arity
    refine ⟨hle, by simp [h.rows], fun tuple hmem field hfield harity => ?_,
      fun tuple hmem field hfield harity => ?_⟩
    · have hget : values[field]? = some values[field] :=
        List.getElem?_eq_getElem (by rw [hlength]; exact harity)
      have hat (words : Vector UInt64 4) : words.get ⟨field, hfield⟩ = words[field] := rfl
      simp only [Vector.getElem_ofFn, hget, hat]
      rcases List.mem_append.mp hmem with hmem | hmem
      · obtain ⟨hmin, hmax⟩ := h.within tuple hmem field hfield harity
        simp only [UInt64.le_iff_toNat_le, UInt64.toNat_min, UInt64.toNat_max] at hmin hmax ⊢
        omega
      · obtain rfl := List.mem_singleton.mp hmem
        simp only [padded, Vector.getElem_ofFn, hget, Option.getD_some]
        simp only [UInt64.le_iff_toNat_le, UInt64.toNat_min, UInt64.toNat_max]
        omega
    · rcases List.mem_append.mp hmem with hmem | hmem
      · exact h.zeros tuple hmem field hfield harity
      · obtain rfl := List.mem_singleton.mp hmem
        have hget : values[field]? = none :=
          List.getElem?_eq_none (by rw [hlength]; exact harity)
        simp [padded, hget]

/-- So does pushing several. -/
theorem IntegerSpool.Ranges.pushAll {rows : List (List Int64)} : ∀ {spool filled : IntegerSpool},
    spool.Ranges → spool.pushAll rows = .ok filled → filled.Ranges := by
  induction rows with
  | nil =>
      intro spool filled h hpush
      cases hpush
      exact h
  | cons values rows ih =>
      intro spool filled h hpush
      obtain ⟨pushed, hfirst, hrest⟩ := Results.bind_eq_ok_iff.mp hpush
      exact ih (h.push hfirst) hrest

theorem IntegerSpool.create_eq {fields : Nat} {spool : IntegerSpool}
    (h : IntegerSpool.create fields = .ok spool) : spool.fields = fields ∧ spool.tuples = [] := by
  unfold IntegerSpool.create at h
  split at h
  · cases h
    exact ⟨rfl, rfl⟩
  · cases h

/-- A pushed tuple is padded and kept. -/
theorem IntegerSpool.push_tuples {spool pushed : IntegerSpool} {values : List Int64}
    (h : spool.push values = .ok pushed) :
    pushed.tuples = spool.tuples ++ [padded values] ∧ pushed.fields = spool.fields := by
  unfold IntegerSpool.push at h
  split at h
  · cases h
  split at h
  · cases h
  split at h
  · cases h
  · cases h
    exact ⟨rfl, rfl⟩

/-- A spool keeps what is pushed, in its order. -/
theorem IntegerSpool.pushAll_tuples {rows : List (List Int64)} :
    ∀ {spool filled : IntegerSpool}, spool.pushAll rows = .ok filled →
      filled.tuples = spool.tuples ++ rows.map padded ∧ filled.fields = spool.fields := by
  induction rows with
  | nil =>
      intro spool filled h
      cases h
      exact ⟨(List.append_nil _).symm, rfl⟩
  | cons values rows ih =>
      intro spool filled h
      obtain ⟨pushed, hfirst, hrest⟩ := Results.bind_eq_ok_iff.mp h
      obtain ⟨htuples, hfields⟩ := IntegerSpool.push_tuples hfirst
      obtain ⟨hresttuples, hrestfields⟩ := ih hrest
      refine ⟨?_, hrestfields.trans hfields⟩
      rw [hresttuples, htuples, List.map_cons, List.append_assoc]
      rfl

/-! ## What a codec knows of its spool -/

/-- The widths of the fields of a codec, and its shifts and masks as they follow from them. -/
structure Codec.Describes (codec : Codec) (spool : IntegerSpool) (spec : IntegerIndexSpec)
    (widths : List Nat) : Prop where
  valid : spec.Valid spool.fields
  fields : codec.fields = spec.sortedFields
  minimum : codec.minimum = spool.minimum
  measured :
    List.Forall₂ (fun field width => fieldWidth spool field = .ok width) codec.fields widths
  bits : codec.bits = widths.sum
  shifts : codec.shifts = BitFields.offsets widths
  masks : codec.masks = widths.map fun width => 2 ^ width - 1

/-- A field takes 64 bits at most. -/
theorem fieldWidth_le {spool : IntegerSpool} {field width : Nat}
    (h : fieldWidth spool field = .ok width) : width ≤ 64 := by
  unfold fieldWidth at h
  split at h
  · cases h; omega
  · split at h
    · split at h
      · cases h
        exact bitLength_le_iff.mpr (UInt64.toNat_lt _)
      · cases h
    · cases h

theorem widths_le {spool : IntegerSpool} {fields widths : List Nat}
    (h : List.Forall₂ (fun field width => fieldWidth spool field = .ok width) fields widths) :
    ∀ width ∈ widths, width ≤ 64 :=
  Results.forall₂_forall h fun _ _ _ => fieldWidth_le

/-- The mask of a width has its bits. -/
theorem maskOf_eq {width : Nat} (h : width ≤ 64) : maskOf width = .ok (2 ^ width - 1) := by
  unfold maskOf
  split
  · next h0 => rw [h0]; rfl
  · split
    · next h64 => rw [h64]
    · rw [if_pos (by omega), Nat.shiftLeft_eq, Nat.one_mul]

/-- The fields lie side by side. -/
theorem layout_eq : ∀ {widths : List Nat}, (∀ width ∈ widths, width ≤ 64) →
    layout widths widths.sum
      = .ok (BitFields.offsets widths, widths.map fun width => 2 ^ width - 1)
  | [], _ => rfl
  | width :: widths, h => by
      have hrest := layout_eq fun w (hw : w ∈ widths) => h w (by simp [hw])
      have hsub : width + widths.sum - width = widths.sum := by omega
      rw [layout, List.sum_cons, if_neg (by omega), maskOf_eq (h width (by simp)), hsub]
      show (layout widths widths.sum >>= _) = _
      rw [hrest]
      rfl

/-- A codec describes its spool. -/
theorem Codec.new_describes {spool : IntegerSpool} {spec : IntegerIndexSpec} {codec : Codec}
    (h : Codec.new spool spec = .ok codec) : ∃ widths, codec.Describes spool spec widths := by
  unfold Codec.new at h
  split at h
  · next hvalid =>
      obtain ⟨widths, hwidths, h⟩ := Results.bind_eq_ok_iff.mp h
      obtain ⟨⟨shifts, masks⟩, hlayout, h⟩ := Results.bind_eq_ok_iff.mp h
      have hwidths := Results.mapM_eq_ok_iff.mp hwidths
      rw [layout_eq (widths_le hwidths)] at hlayout
      cases hlayout
      cases h
      exact ⟨widths, hvalid, rfl, rfl, hwidths, rfl, rfl, rfl⟩
  · cases h

/-- A codec always comes out of a valid specification. -/
theorem Codec.new_ok {spool : IntegerSpool} (hspool : spool.Ranges) {spec : IntegerIndexSpec}
    (hvalid : spec.Valid spool.fields) : ∃ codec, Codec.new spool spec = .ok codec := by
  have hwidth : ∀ field ∈ spec.sortedFields, ∃ width, fieldWidth spool field = .ok width := by
    intro field hmem
    have hfield : field < spool.fields := hvalid.2.2.2.2.2.2.1 field hmem
    have harity := hspool.arity
    unfold fieldWidth
    split
    · exact ⟨0, rfl⟩
    · next hrows =>
        have hfour : field < 4 := by omega
        rw [Vector.getElem?_eq_getElem hfour, Vector.getElem?_eq_getElem hfour]
        simp only
        have hne : spool.tuples ≠ [] := by
          intro hnil
          rw [hspool.rows, hnil] at hrows
          exact hrows rfl
        obtain ⟨tuple, hmem⟩ := List.exists_mem_of_ne_nil _ hne
        obtain ⟨hmin, hmax⟩ := hspool.within tuple hmem field hfour hfield
        have hle : spool.minimum[field] ≤ spool.maximum[field] := by
          rw [UInt64.le_iff_toNat_le] at hmin hmax ⊢
          omega
        exact ⟨_, if_pos hle⟩
  obtain ⟨widths, hwidths⟩ := Results.exists_forall₂ hwidth
  unfold Codec.new
  rw [if_pos hvalid, Results.mapM_eq_ok_iff.mpr hwidths]
  exact ⟨_, by
    show (layout widths widths.sum >>= _) = _
    rw [layout_eq (widths_le hwidths)]
    rfl⟩

section
variable {codec : Codec} {spool : IntegerSpool} {spec : IntegerIndexSpec} {widths : List Nat}

/-- The fields of a codec are those of a tuple. -/
theorem Codec.Describes.field_lt (h : codec.Describes spool spec widths)
    (hspool : spool.Ranges) : ∀ field ∈ codec.fields, field < 4 := by
  intro field hmem
  rw [h.fields] at hmem
  exact Nat.lt_of_lt_of_le (h.valid.2.2.2.2.2.2.1 field hmem) hspool.arity

end

/-- What a field of a tuple adds to the packed key: its distance from the least value. -/
def Codec.delta (codec : Codec) (tuple : Tuple) (field : Nat) : Except Failure Nat :=
  match tuple[field]?, codec.minimum[field]? with
  | some value, some minimum =>
      -- a subtraction that underflows panics
      if minimum ≤ ordered value then .ok (ordered value - minimum).toNat else .error .panic
  | _, _ => .error .panic

/-- The distance of a tuple of the spool fits its field, and says which value it came from. -/
theorem Codec.Describes.delta {codec : Codec} {spool : IntegerSpool} {spec : IntegerIndexSpec}
    {widths : List Nat} (h : codec.Describes spool spec widths) (hspool : spool.Ranges)
    {tuple : Tuple} (hmem : tuple ∈ spool.tuples) {field width : Nat}
    (hfield : field ∈ codec.fields)
    (hwidth : fieldWidth spool field = .ok width) (hfour : field < 4) :
    codec.delta tuple field = .ok (ordered tuple[field] - codec.minimum[field]).toNat ∧
      codec.minimum[field] ≤ ordered tuple[field] ∧
      (ordered tuple[field] - codec.minimum[field]).toNat < 2 ^ width := by
  have hlt : field < spool.fields := by
    rw [h.fields] at hfield
    exact h.valid.2.2.2.2.2.2.1 field hfield
  obtain ⟨hmin, hmax⟩ := hspool.within tuple hmem field hfour hlt
  have hminimum : codec.minimum[field] = spool.minimum[field] := by simp only [h.minimum]
  rw [hminimum]
  refine ⟨?_, hmin, ?_⟩
  · rw [Codec.delta, Vector.getElem?_eq_getElem hfour, Vector.getElem?_eq_getElem hfour]
    simp only [hminimum]
    exact if_pos hmin
  · have hrows : spool.rows ≠ 0 := by
      rw [hspool.rows]
      exact Nat.ne_of_gt (List.length_pos_of_mem hmem)
    rw [fieldWidth, if_neg hrows, Vector.getElem?_eq_getElem hfour,
      Vector.getElem?_eq_getElem hfour] at hwidth
    simp only at hwidth
    split at hwidth
    · next hle =>
        cases hwidth
        refine Nat.lt_of_le_of_lt ?_ (lt_two_pow_bitLength _)
        rw [UInt64.toNat_sub_of_le _ _ hmin, UInt64.toNat_sub_of_le _ _ hle]
        rw [UInt64.le_iff_toNat_le] at hmax
        omega
    · cases hwidth

end Velr.Sort
