import Velr.Sort.Spool

/-!
# Packed keys

The traits `RadixKey` and `SortKey` of `index_builder.rs` and their four integer implementations. A
key packs the sorted fields of a tuple into one word of 64, 96 or 128 bits, or keeps each of them in
a word of its own. `LawfulRadixKey` is what the sort relies on: a key is a number, compared as one,
and its digits are the bytes of the number. `KeyExact` is what packing promises for the tuples of a
spool; the codec picks a key type that keeps it (`key_packing_exact`).
-/

namespace Velr.Sort

open BitFields
open IndexStats (Failure)

/-! ## The traits -/

/-- `RadixKey`: the bytes of a key and its digits; a digit behind the key panics. -/
class RadixKey (K : Type) extends Ord K, Inhabited K where
  bytes : Nat
  digit : K → Nat → Except Failure Nat

/-- `SortKey` -/
class SortKey (K : Type) extends RadixKey K where
  pack : Codec → Tuple → Except Failure K
  unpack : Codec → K → Except Failure Tuple
  passes : Codec → Nat

/-- A key is a number of its bytes, compared as one; its digits are the bytes of the number. -/
class LawfulRadixKey (K : Type) [RadixKey K] where
  value : K → Nat
  value_injective : Function.Injective value
  value_lt : ∀ key, value key < 256 ^ RadixKey.bytes K
  compare_value : ∀ a b : K, compare a b = compare (value a) (value b)
  digit_value : ∀ key pass, pass < RadixKey.bytes K →
    RadixKey.digit key pass = .ok (value key / 256 ^ pass % 256)

/-! ## Packing into a word -/

/-- `pack` of a key of `w` bits: each field is shifted to its place; a shift by the whole word
panics, and what it shifts out is lost. -/
def packWord (w : Nat) (codec : Codec) (tuple : Tuple) : Except Failure Nat :=
  (codec.fields.zip codec.shifts).foldlM (fun key (field, shift) => do
    let value ← codec.delta tuple field
    if shift < w then .ok (key ||| value <<< shift % 2 ^ w) else .error .panic) 0

/-- A field of a key of `w` bits. -/
def unpackField (w : Nat) (codec : Codec) (key field shift mask : Nat) : Except Failure Int64 :=
  if shift < w then
    let value := (key >>> shift) % 2 ^ 64 &&& mask
    match codec.minimum[field]? with
    | some minimum => .ok (unordered (UInt64.ofNat value + minimum))
    | none => .error .panic
  else .error .panic

/-- `tuple[field] = value` -/
def setField (tuple : Tuple) (field : Nat) (value : Int64) : Except Failure Tuple :=
  if h : field < 4 then .ok (tuple.set field value h) else .error .panic

/-- `unpack` of a key of `w` bits. -/
def unpackWord (w : Nat) (codec : Codec) (key : Nat) : Except Failure Tuple :=
  (codec.fields.zip (codec.shifts.zip codec.masks)).foldlM (fun tuple (field, shift, mask) => do
    let value ← unpackField w codec key field shift mask
    setField tuple field value) (.replicate 4 0)

/-! ## The key types -/

/-- `u64` -/
instance : RadixKey UInt64 where
  bytes := 8
  digit key pass :=
    if pass * 8 < 64 then .ok (key.toNat >>> (pass * 8) &&& 255) else .error .panic

instance : SortKey UInt64 where
  pack codec tuple := (packWord 64 codec tuple).map UInt64.ofNat
  unpack codec key := unpackWord 64 codec key.toNat
  passes codec := (codec.bits + 7) / 8

/-- `u128` -/
structure Word128 where
  bits : BitVec 128
deriving DecidableEq, Inhabited

instance : RadixKey Word128 where
  compare a b := compare a.bits.toNat b.bits.toNat
  bytes := 16
  digit key pass :=
    if pass * 8 < 128 then .ok (key.bits.toNat >>> (pass * 8) &&& 255) else .error .panic

instance : SortKey Word128 where
  pack codec tuple := (packWord 128 codec tuple).map fun key => ⟨.ofNat 128 key⟩
  unpack codec key := unpackWord 128 codec key.bits.toNat
  passes codec := (codec.bits + 7) / 8

/-- `Packed96` -/
structure Packed96 where
  words : Vector UInt32 3
deriving DecidableEq, Inhabited

instance : RadixKey Packed96 where
  compare a b := compare a.words.toList b.words.toList
  bytes := 12
  digit key pass :=
    let word : Except Failure UInt32 :=
      if pass ≤ 3 then .ok key.words[2]!
      else if pass ≤ 7 then .ok key.words[1]!
      else if pass ≤ 11 then .ok key.words[0]!
      else .error .panic
    word.map fun word => word.toNat >>> (pass % 4 * 8) &&& 255

instance : SortKey Packed96 where
  pack codec tuple := (SortKey.pack codec tuple : Except Failure Word128).map fun key =>
    ⟨#v[.ofNat (key.bits.toNat >>> 64), .ofNat (key.bits.toNat >>> 32), .ofNat key.bits.toNat]⟩
  unpack codec key :=
    let value :=
      (key.words[0]!.toNat <<< 64) ||| (key.words[1]!.toNat <<< 32) ||| key.words[2]!.toNat
    SortKey.unpack codec (⟨.ofNat 128 value⟩ : Word128)
  passes codec := (codec.bits + 7) / 8

/-- `WideKey` -/
structure WideKey where
  words : Vector UInt64 4
deriving DecidableEq, Inhabited

/-- The loop of `pack` of a wide key. -/
def packWide (tuple : Tuple) : List Nat → Nat → Vector UInt64 4 → Except Failure (Vector UInt64 4)
  | [], _, key => .ok key
  | field :: fields, position, key =>
      match tuple[field]? with
      | some value =>
          if h : position < 4 then
            packWide tuple fields (position + 1) (key.set position (ordered value) h)
          else .error .panic
      | none => .error .panic

/-- The loop of `unpack` of a wide key. -/
def unpackWide (key : WideKey) : List Nat → Nat → Tuple → Except Failure Tuple
  | [], _, tuple => .ok tuple
  | field :: fields, position, tuple =>
      match key.words[position]? with
      | some word => do
          let tuple ← setField tuple field (unordered word)
          unpackWide key fields (position + 1) tuple
      | none => .error .panic

instance : RadixKey WideKey where
  compare a b := compare a.words.toList b.words.toList
  bytes := 32
  digit key pass :=
    -- an index below the first word panics
    if pass / 8 ≤ 3 then
      match key.words[3 - pass / 8]? with
      | some word => .ok (word.toNat >>> (pass % 8 * 8) &&& 255)
      | none => .error .panic
    else .error .panic

instance : SortKey WideKey where
  pack codec tuple := (packWide tuple codec.fields 0 (.replicate 4 0)).map WideKey.mk
  unpack codec key := unpackWide key codec.fields 0 (.replicate 4 0)
  passes _ := 32

/-- The key type `sort_one` and `prepare_direct_one` take for a number of bits. -/
def withKeyType {α : Sort u} (bits : Nat) (f : (K : Type) → [SortKey K] → α) : α :=
  if bits ≤ 64 then f UInt64
  else if bits ≤ 96 then f Packed96
  else if bits ≤ 128 then f Word128
  else f WideKey

/-! ## The laws -/

theorem pow_256 (n : Nat) : 256 ^ n = 2 ^ (8 * n) := by
  rw [Nat.pow_mul]

/-- The digit of a key that is one word. -/
theorem digit_word {n b pass : Nat} (hn : n < 2 ^ (8 * b)) (hpass : pass < b) :
    n >>> (pass * 8) &&& 255 = n / 256 ^ pass % 256 := by
  have hb : 0 < b := by omega
  have hget : [n][[n].length - 1 - pass / b]? = some n := by simp [Nat.div_eq_of_lt hpass]
  have hbyte := byte_ofWords hb [n] (by simpa using hpass) (by simpa using hn) hget
  rw [ofWords_singleton, Nat.mod_eq_of_lt hpass] at hbyte
  exact hbyte.symm

/-- Words compare as their numbers. -/
theorem compare_word {α : Type} [LT α] [DecidableLT α] [DecidableEq α] {toNat : α → Nat}
    (hlt : ∀ x y, x < y ↔ toNat x < toNat y) (hinj : Function.Injective toNat) (x y : α) :
    compareOfLessAndEq x y = compare (toNat x) (toNat y) := by
  simp only [compareOfLessAndEq, Nat.compare_eq_ite_lt, hlt, ← hinj.eq_iff]
  split
  · rfl
  · split <;> split <;> first | rfl | omega

theorem compare_uint64 (x y : UInt64) : compare x y = compare x.toNat y.toNat :=
  compare_word (fun _ _ => UInt64.lt_iff_toNat_lt) (fun _ _ => UInt64.toNat_inj.mp) x y

theorem compare_uint32 (x y : UInt32) : compare x y = compare x.toNat y.toNat :=
  compare_word (fun _ _ => UInt32.lt_iff_toNat_lt) (fun _ _ => UInt32.toNat_inj.mp) x y

instance : LawfulRadixKey UInt64 where
  value := UInt64.toNat
  value_injective _ _ := UInt64.toNat_inj.mp
  value_lt key := key.toNat_lt
  compare_value := compare_uint64
  digit_value key pass hpass := by
    have hpass : pass < 8 := hpass
    show (if pass * 8 < 64 then _ else _) = _
    rw [if_pos (by omega), digit_word (b := 8) key.toNat_lt hpass]

instance : LawfulRadixKey Word128 where
  value key := key.bits.toNat
  value_injective a b h := by
    cases a
    cases b
    exact congrArg Word128.mk (BitVec.eq_of_toNat_eq h)
  value_lt key := key.bits.isLt
  compare_value _ _ := rfl
  digit_value key pass hpass := by
    have hpass : pass < 16 := hpass
    show (if pass * 8 < 128 then _ else _) = _
    rw [if_pos (by omega), digit_word (b := 16) key.bits.isLt hpass]

/-- Rows of words compare as the rows of their numbers. -/
theorem compare_toNat {α : Type} [Ord α] (toNat : α → Nat)
    (h : ∀ x y, compare x y = compare (toNat x) (toNat y)) : ∀ xs ys : List α,
    compare xs ys = compare (xs.map toNat) (ys.map toNat)
  | [], [] => rfl
  | [], _ :: _ => rfl
  | _ :: _, [] => rfl
  | x :: xs, y :: ys => by
      rw [List.map_cons, List.map_cons, List.compare_cons_cons, List.compare_cons_cons, h,
        compare_toNat toNat h xs ys]

theorem Packed96.toNat_lt (key : Packed96) :
    ∀ x ∈ key.words.toList.map UInt32.toNat, x < 2 ^ 32 := by
  intro x hx
  obtain ⟨word, -, rfl⟩ := List.mem_map.mp hx
  exact word.toNat_lt

instance : LawfulRadixKey Packed96 where
  value key := ofWords 32 (key.words.toList.map UInt32.toNat)
  value_injective a b h := by
    have hwords := ofWords_injective (by simp) a.toNat_lt b.toNat_lt h
    have hlist := List.map_injective_iff.mpr (fun _ _ => UInt32.toNat_inj.mp) hwords
    cases a
    cases b
    exact congrArg Packed96.mk (Vector.toList_inj.mp hlist)
  value_lt key := by
    have hlt := ofWords_lt key.toNat_lt
    rw [List.length_map, Vector.length_toList] at hlt
    exact hlt
  compare_value a b := by
    rw [compare_ofWords (by simp) a.toNat_lt b.toNat_lt]
    exact compare_toNat UInt32.toNat compare_uint32 a.words.toList b.words.toList
  digit_value key pass hpass := by
    have hpass : pass < 12 := hpass
    have hbyte : ∀ word : UInt32, key.words.toList[2 - pass / 4]? = some word →
        ofWords 32 (key.words.toList.map UInt32.toNat) / 256 ^ pass % 256
          = word.toNat >>> (pass % 4 * 8) &&& 255 := by
      intro word hword
      refine byte_ofWords (b := 4) (by omega) _ (by simpa using hpass) key.toNat_lt ?_
      rw [List.length_map, Vector.length_toList, List.getElem?_map, hword]
      rfl
    have hget : ∀ i (hi : i < 3), pass / 4 = 2 - i →
        key.words.toList[2 - pass / 4]? = some key.words[i]! := by
      intro i hi hdiv
      rw [hdiv, show 2 - (2 - i) = i by omega, Vector.getElem?_toList,
        Vector.getElem?_eq_getElem hi,
        getElem!_pos key.words i hi]
    rw [RadixKey.digit]
    simp only [instRadixKeyPacked96]
    rcases Nat.lt_or_ge pass 4 with h4 | h4
    · rw [if_pos (by omega), hbyte _ (hget 2 (by omega) (by omega))]
      rfl
    · rw [if_neg (by omega)]
      rcases Nat.lt_or_ge pass 8 with h8 | h8
      · rw [if_pos (by omega), hbyte _ (hget 1 (by omega) (by omega))]
        rfl
      · rw [if_neg (by omega), if_pos (by omega), hbyte _ (hget 0 (by omega) (by omega))]
        rfl

theorem WideKey.toNat_lt (key : WideKey) :
    ∀ x ∈ key.words.toList.map UInt64.toNat, x < 2 ^ 64 := by
  intro x hx
  obtain ⟨word, -, rfl⟩ := List.mem_map.mp hx
  exact word.toNat_lt

instance : LawfulRadixKey WideKey where
  value key := ofWords 64 (key.words.toList.map UInt64.toNat)
  value_injective a b h := by
    have hwords := ofWords_injective (by simp) a.toNat_lt b.toNat_lt h
    have hlist := List.map_injective_iff.mpr (fun _ _ => UInt64.toNat_inj.mp) hwords
    cases a
    cases b
    exact congrArg WideKey.mk (Vector.toList_inj.mp hlist)
  value_lt key := by
    have hlt := ofWords_lt key.toNat_lt
    rw [List.length_map, Vector.length_toList] at hlt
    exact hlt
  compare_value a b := by
    rw [compare_ofWords (by simp) a.toNat_lt b.toNat_lt]
    exact compare_toNat UInt64.toNat compare_uint64 a.words.toList b.words.toList
  digit_value key pass hpass := by
    have hpass : pass < 32 := hpass
    have hindex : 3 - pass / 8 < 4 := by omega
    have hword : key.words[3 - pass / 8]? = some key.words[3 - pass / 8] :=
      Vector.getElem?_eq_getElem hindex
    have hget : (key.words.toList.map UInt64.toNat)[(key.words.toList.map UInt64.toNat).length - 1
        - pass / 8]? = some key.words[3 - pass / 8].toNat := by
      rw [List.length_map, Vector.length_toList, List.getElem?_map, Vector.getElem?_toList, hword]
      rfl
    have hbyte := byte_ofWords (b := 8) (by omega) (key.words.toList.map UInt64.toNat)
      (by simpa using hpass) key.toNat_lt hget
    rw [RadixKey.digit]
    simp only [instRadixKeyWideKey]
    rw [if_pos (by omega), hword, hbyte]

/-! ## What packing does -/

/-- The values of some fields of a tuple. -/
def valuesOf (fields : List Nat) (tuple : Tuple) : List Int64 :=
  fields.map fun field => tuple[field]?.getD 0

/-- A tuple with zeros outside of some fields. -/
def restrict (fields : List Nat) (tuple : Tuple) : Tuple :=
  .ofFn fun field => if field.val ∈ fields then tuple[field.val] else 0

/-- The distance of a field of a tuple from the least value of the field. -/
def Codec.distance (codec : Codec) (tuple : Tuple) (field : Nat) : Nat :=
  (ordered (tuple[field]?.getD 0) - codec.minimum[field]?.getD 0).toNat

/-- What unpacking into a tuple leaves of it and writes over it. -/
def overlay (fields : List Nat) (tuple under : Tuple) : Tuple :=
  .ofFn fun field => if field.val ∈ fields then tuple[field.val] else under[field.val]

/-- Unpacking onto zeros restricts the tuple to its fields. -/
theorem overlay_zeros (fields : List Nat) (tuple : Tuple) :
    overlay fields tuple (.replicate 4 0) = restrict fields tuple := by
  simp [overlay, restrict]

/-- Unpacking a field sets it. -/
theorem overlay_set {fields : List Nat} {tuple under : Tuple} {field : Nat} (h : field < 4) :
    overlay fields tuple (under.set field tuple[field] h) =
      overlay (field :: fields) tuple under := by
  apply Vector.ext
  intro i hi
  simp only [overlay, Vector.getElem_ofFn, List.mem_cons, Vector.getElem_set]
  by_cases hmem : i ∈ fields
  · simp [hmem]
  · by_cases heq : field = i
    · subst heq
      simp
    · simp [hmem, heq, Ne.symm heq]

/-- The chain of shifts of `pack`, where no distance underflows and no shift loses bits. -/
theorem foldlM_pack {w : Nat} {codec : Codec} {tuple : Tuple} : ∀ {pairs : List (Nat × Nat)}
    (key : Nat), (∀ pair ∈ pairs, codec.delta tuple pair.1 = .ok (codec.distance tuple pair.1) ∧
      pair.2 < w ∧ codec.distance tuple pair.1 <<< pair.2 < 2 ^ w) →
    pairs.foldlM (fun key (field, shift) => do
        let value ← codec.delta tuple field
        if shift < w then .ok (key ||| value <<< shift % 2 ^ w) else .error .panic) key
      = (.ok ((pairs.map fun pair => (codec.distance tuple pair.1, pair.2)).foldl
          (fun key (value, offset) => key ||| value <<< offset) key) : Except Failure Nat)
  | [], _, _ => rfl
  | (field, shift) :: pairs, key, h => by
      obtain ⟨hdelta, hshift, hloss⟩ := h (field, shift) (by simp)
      simp only at hdelta hshift hloss
      rw [List.foldlM_cons]
      simp only [hdelta]
      show ((if shift < w then _ else _) >>= _) = _
      rw [if_pos hshift, Nat.mod_eq_of_lt hloss]
      exact foldlM_pack _ fun pair hpair => h pair (by simp [hpair])

/-- The chain of assignments of `unpack`, where each field reads the value of the tuple. -/
theorem foldlM_unpack {w : Nat} {codec : Codec} {key : Nat} (tuple : Tuple) :
    ∀ {entries : List (Nat × Nat × Nat)} (under : Tuple), (∀ entry ∈ entries, ∃ value,
      tuple[entry.1]? = some value ∧
      unpackField w codec key entry.1 entry.2.1 entry.2.2 = .ok value) →
    entries.foldlM (fun tuple (field, shift, mask) => do
        let value ← unpackField w codec key field shift mask
        setField tuple field value) under
      = (.ok (overlay (entries.map Prod.fst) tuple under) : Except Failure Tuple)
  | [], under, _ => by
      simp only [List.foldlM_nil, List.map_nil, overlay, List.not_mem_nil, if_false]
      exact congrArg Except.ok (Vector.ext fun i hi => by simp)
  | (field, shift, mask) :: entries, under, h => by
      obtain ⟨value, hvalue, hunpack⟩ := h (field, shift, mask) (by simp)
      obtain ⟨hfield, rfl⟩ := Vector.getElem?_eq_some_iff.mp hvalue
      simp only at hfield hunpack
      have hrest := foldlM_unpack tuple (under.set field tuple[field] hfield)
        fun entry (hentry : entry ∈ entries) => h entry (by simp [hentry])
      rw [overlay_set] at hrest
      rw [List.foldlM_cons]
      simp only [hunpack]
      show (setField under field tuple[field] >>= _) = _
      rw [setField, dif_pos hfield]
      exact hrest

/-! ## Words -/

section
variable {codec : Codec} {spool : IntegerSpool} {spec : IntegerIndexSpec} {widths : List Nat}
  {tuple : Tuple}

/-- The distances of a tuple beside the widths of their fields. -/
def Codec.packed (codec : Codec) (widths : List Nat) (tuple : Tuple) : Fields :=
  (codec.fields.map (codec.distance tuple)).zip widths

theorem Codec.Describes.length (h : codec.Describes spool spec widths) :
    codec.fields.length = widths.length := h.measured.length_eq

/-- A packed field is the distance from the minimum. -/
theorem Codec.Describes.packed_fst (h : codec.Describes spool spec widths) :
    (codec.packed widths tuple).map Prod.fst = codec.fields.map (codec.distance tuple) :=
  List.map_fst_zip (by simp [h.length])

/-- It takes the width of its field. -/
theorem Codec.Describes.packed_snd (h : codec.Describes spool spec widths) :
    (codec.packed widths tuple).map Prod.snd = widths :=
  List.map_snd_zip (by simp [h.length])

/-- The widths make up the bits of the codec. -/
theorem Codec.Describes.width_packed (h : codec.Describes spool spec widths) :
    BitFields.width (codec.packed widths tuple) = codec.bits := by
  rw [BitFields.width, h.packed_snd, h.bits]

/-- The distance of a field is what `delta` computes, fits the field's width and leads back to the
value. -/
theorem Codec.Describes.distance (h : codec.Describes spool spec widths) (hspool : spool.Ranges)
    (hmem : tuple ∈ spool.tuples) {field width : Nat} (hfield : field ∈ codec.fields)
    (hwidth : fieldWidth spool field = .ok width) :
    codec.delta tuple field = .ok (codec.distance tuple field) ∧
      codec.distance tuple field < 2 ^ width ∧
      ∃ value minimum, tuple[field]? = some value ∧ codec.minimum[field]? = some minimum ∧
        minimum ≤ ordered value ∧ codec.distance tuple field = (ordered value - minimum).toNat := by
  have hfour := h.field_lt hspool field hfield
  obtain ⟨hdelta, hle, hlt⟩ := h.delta hspool hmem hfield hwidth hfour
  have hdistance : codec.distance tuple field
      = (ordered tuple[field] - codec.minimum[field]).toNat := by
    rw [Codec.distance, Vector.getElem?_eq_getElem hfour, Vector.getElem?_eq_getElem hfour]
    rfl
  rw [hdistance]
  exact ⟨hdelta, hlt, _, _, Vector.getElem?_eq_getElem hfour, Vector.getElem?_eq_getElem hfour, hle,
    rfl⟩

/-- A field and its width. -/
theorem Codec.Describes.exists_width (h : codec.Describes spool spec widths) {field : Nat}
    (hfield : field ∈ codec.fields) : ∃ width, fieldWidth spool field = .ok width := by
  obtain ⟨i, hi, rfl⟩ := List.mem_iff_getElem.mp hfield
  exact ⟨_, h.measured.get hi (h.length ▸ hi)⟩

/-- Every field of a pushed tuple fits its width. -/
theorem Codec.Describes.fit (h : codec.Describes spool spec widths) (hspool : spool.Ranges)
    (hmem : tuple ∈ spool.tuples) : Fit (codec.packed widths tuple) := by
  intro pair hpair
  obtain ⟨i, hi, rfl⟩ := List.mem_iff_getElem.mp hpair
  simp only [Codec.packed, List.length_zip, List.length_map, Nat.lt_min] at hi
  simp only [Codec.packed, List.getElem_zip, List.getElem_map]
  exact (h.distance hspool hmem (List.getElem_mem hi.1) (h.measured.get hi.1 hi.2)).2.1

/-- No distance of a tuple underflows, and no shift of one exceeds the key or loses a bit. -/
theorem Codec.Describes.no_loss (h : codec.Describes spool spec widths) (hspool : spool.Ranges)
    (hmem : tuple ∈ spool.tuples) {bound : Nat} (hpos : 0 < bound) (hbound : codec.bits ≤ bound) :
    ∀ pair ∈ codec.fields.zip codec.shifts,
      codec.delta tuple pair.1 = .ok (codec.distance tuple pair.1) ∧ pair.2 < bound ∧
        codec.distance tuple pair.1 <<< pair.2 < 2 ^ codec.bits := by
  intro pair hpair
  have hfield := (List.of_mem_zip hpair).1
  have hshift := (List.of_mem_zip hpair).2
  obtain ⟨width, hwidth⟩ := h.exists_width hfield
  refine ⟨(h.distance hspool hmem hfield hwidth).1, ?_, ?_⟩
  · rw [h.shifts] at hshift
    exact offset_lt hpos (by rw [← h.bits]; exact hbound) _ hshift
  · have hlt := shift_lt (h.fit hspool hmem)
    rw [h.packed_fst, h.packed_snd, h.width_packed, ← h.shifts] at hlt
    refine hlt (codec.distance tuple pair.1, pair.2) ?_
    rw [List.zip_map_left]
    exact List.mem_map.mpr ⟨pair, hpair, rfl⟩

/-- Packing a tuple of the spool into a word that has the bits. -/
theorem Codec.Describes.packWord (h : codec.Describes spool spec widths) (hspool : spool.Ranges)
    (hmem : tuple ∈ spool.tuples) {w : Nat} (hpos : 0 < w) (hw : codec.bits ≤ w) :
    packWord w codec tuple = .ok (combine (codec.packed widths tuple)) := by
  have hloss := h.no_loss hspool hmem hpos hw
  rw [Sort.packWord, foldlM_pack 0 fun pair hpair => ?_]
  · have hor := foldl_or 0 (h.fit hspool hmem)
    rw [h.packed_fst, h.packed_snd, Nat.zero_mul, Nat.zero_add, ← h.shifts] at hor
    rw [← hor, List.zip_map_left]
    rfl
  · obtain ⟨hdelta, hshift, hlt⟩ := hloss pair hpair
    exact ⟨hdelta, hshift, Nat.lt_of_lt_of_le hlt (Nat.pow_le_pow_right (by omega) hw)⟩

/-- Unpacking what was packed. -/
theorem Codec.Describes.unpackWord (h : codec.Describes spool spec widths) (hspool : spool.Ranges)
    (hmem : tuple ∈ spool.tuples) {w : Nat} (hpos : 0 < w) (hw : codec.bits ≤ w) :
    unpackWord w codec (combine (codec.packed widths tuple))
      = .ok (restrict codec.fields tuple) := by
  have hlen := h.length
  have hfst : (codec.fields.zip (codec.shifts.zip codec.masks)).map Prod.fst = codec.fields := by
    rw [h.shifts, h.masks]
    exact List.map_fst_zip (by simp [hlen])
  rw [Sort.unpackWord, foldlM_unpack tuple _ fun entry hentry => ?_, hfst, overlay_zeros]
  obtain ⟨i, hi, rfl⟩ := List.mem_iff_getElem.mp hentry
  simp only [h.shifts, h.masks, List.length_zip, length_offsets, List.length_map, Nat.lt_min,
    and_self] at hi
  simp only [h.shifts, h.masks, List.getElem_zip, List.getElem_map]
  have hfield := List.getElem_mem hi.1
  have hwidth := h.measured.get hi.1 hi.2
  obtain ⟨hdelta, hlt, value, minimum, hvalue, hminimum, hle, hdistance⟩ :=
    h.distance hspool hmem hfield hwidth
  refine ⟨value, hvalue, ?_⟩
  have hoffsets : i < (offsets widths).length := by simpa using hi.2
  have hread := field_combine 0 (h.fit hspool hmem)
    ((codec.distance tuple codec.fields[i], widths[i]), (offsets widths)[i]) (by
      rw [h.packed_snd]
      refine List.mem_iff_getElem.mpr ⟨i, by simp [Codec.packed, hi.1, hi.2], ?_⟩
      simp [Codec.packed])
  rw [Nat.zero_mul, Nat.zero_add] at hread
  have hshift : (offsets widths)[i] < w :=
    offset_lt hpos (by rw [← h.bits]; exact hw) _ (List.getElem_mem _)
  have hmask : combine (codec.packed widths tuple) >>> (offsets widths)[i] % 2 ^ 64
      &&& 2 ^ widths[i] - 1 = codec.distance tuple codec.fields[i] := by
    have hdvd : 2 ^ widths[i] ∣ 2 ^ 64 := Nat.pow_dvd_pow 2 (fieldWidth_le hwidth)
    rw [Nat.and_two_pow_sub_one_eq_mod, Nat.mod_mod_of_dvd _ hdvd]
    exact hread
  rw [unpackField, if_pos hshift, hmask, hminimum]
  simp only
  rw [hdistance, UInt64.ofNat_toNat, UInt64.sub_add_cancel, unordered_ordered]

/-! ## The order of the keys -/

/-- Two lists over the same fields differ first where any other reading of the fields does that
keeps the order. -/
theorem lex_map_iff {α β ι : Type} {r : α → α → Prop} {s : β → β → Prop} {f f' : ι → α}
    {g g' : ι → β} : ∀ {fields : List ι},
    (∀ i ∈ fields, (r (f i) (f' i) ↔ s (g i) (g' i)) ∧ (f i = f' i ↔ g i = g' i)) →
    (List.Lex r (fields.map f) (fields.map f') ↔ List.Lex s (fields.map g) (fields.map g'))
  | [], _ => by simp
  | i :: fields, h => by
      have ih := lex_map_iff fun j (hj : j ∈ fields) => h j (by simp [hj])
      obtain ⟨hlt, heq⟩ := h i (by simp)
      simp only [List.map_cons, List.cons_lex_cons_iff, hlt, heq, ih]

/-- Packed distances are ordered as the values they come from. -/
theorem Codec.Describes.lex_distance (h : codec.Describes spool spec widths)
    (hspool : spool.Ranges) {a b : Tuple} (ha : a ∈ spool.tuples) (hb : b ∈ spool.tuples) :
    List.Lex (· < ·) (codec.fields.map (codec.distance a)) (codec.fields.map (codec.distance b)) ↔
      List.Lex (· < ·) (valuesOf codec.fields a) (valuesOf codec.fields b) := by
  refine lex_map_iff fun field hfield => ?_
  obtain ⟨width, hwidth⟩ := h.exists_width hfield
  obtain ⟨-, -, value, minimum, hvalue, hminimum, hle, hdistance⟩ :=
    h.distance hspool ha hfield hwidth
  obtain ⟨-, -, value', minimum', hvalue', hminimum', hle', hdistance'⟩ :=
    h.distance hspool hb hfield hwidth
  rw [hminimum] at hminimum'
  cases hminimum'
  rw [hvalue, hvalue', hdistance, hdistance', Option.getD_some, Option.getD_some,
    UInt64.toNat_sub_of_le _ _ hle, UInt64.toNat_sub_of_le _ _ hle', ← ordered_lt_iff,
    UInt64.lt_iff_toNat_lt]
  rw [UInt64.le_iff_toNat_le] at hle hle'
  refine ⟨by omega, ⟨fun heq => ?_, fun heq => by rw [heq]⟩⟩
  have hsame : ordered value = ordered value' := UInt64.toNat_inj.mp (by omega)
  rw [← unordered_ordered value, hsame, unordered_ordered]

/-- Packed keys are ordered as the fields of their tuples. -/
theorem Codec.Describes.combine_lt_iff (h : codec.Describes spool spec widths)
    (hspool : spool.Ranges) {a b : Tuple} (ha : a ∈ spool.tuples) (hb : b ∈ spool.tuples) :
    combine (codec.packed widths a) < combine (codec.packed widths b) ↔
      List.Lex (· < ·) (valuesOf codec.fields a) (valuesOf codec.fields b) := by
  rw [← h.lex_distance hspool ha hb]
  exact BitFields.combine_lt_iff (by simp [h.length]) (by simp [h.length]) (h.fit hspool ha)
    (h.fit hspool hb)

end

/-- What packing into a key type promises for tuples: unpacking returns the sorted fields, keys are
ordered as the sorted fields, and the passes of the codec cover every digit that is not zero. -/
structure KeyExact (K : Type) [SortKey K] (codec : Codec) (tuples : List Tuple) : Prop where
  round : ∀ tuple ∈ tuples, ∃ key : K, SortKey.pack codec tuple = .ok key ∧
    SortKey.unpack codec key = .ok (restrict codec.fields tuple)
  monotone : ∀ a ∈ tuples, ∀ b ∈ tuples, ∀ ka kb : K, SortKey.pack codec a = .ok ka →
    SortKey.pack codec b = .ok kb →
    (compare ka kb = .lt ↔ List.Lex (· < ·) (valuesOf codec.fields a) (valuesOf codec.fields b))
  passes : SortKey.passes K codec ≤ RadixKey.bytes K
  digits : ∀ tuple ∈ tuples, ∀ key : K, SortKey.pack codec tuple = .ok key →
    ∀ pass, SortKey.passes K codec ≤ pass → pass < RadixKey.bytes K →
      RadixKey.digit key pass = .ok 0

section
variable {codec : Codec} {spool : IntegerSpool} {spec : IntegerIndexSpec} {widths : List Nat}

/-- A key type whose keys are the packed numbers. -/
theorem Codec.Describes.keyExact {K : Type} [SortKey K] [LawfulRadixKey K]
    (h : codec.Describes spool spec widths) (hspool : spool.Ranges)
    (hpasses : SortKey.passes K codec = (codec.bits + 7) / 8)
    (hbytes : codec.bits ≤ 8 * RadixKey.bytes K)
    (hpack : ∀ tuple ∈ spool.tuples, ∃ key : K, SortKey.pack codec tuple = .ok key ∧
      LawfulRadixKey.value key = combine (codec.packed widths tuple) ∧
      SortKey.unpack codec key = .ok (restrict codec.fields tuple)) :
    KeyExact K codec spool.tuples := by
  refine ⟨fun tuple hmem => ?_, fun a ha b hb ka kb hka hkb => ?_, ?_,
    fun tuple hmem key hkey pass hlow hhigh => ?_⟩
  · obtain ⟨key, hkey, -, hunpack⟩ := hpack tuple hmem
    exact ⟨key, hkey, hunpack⟩
  · obtain ⟨ka', hka', hva, -⟩ := hpack a ha
    obtain ⟨kb', hkb', hvb, -⟩ := hpack b hb
    cases hka.symm.trans hka'
    cases hkb.symm.trans hkb'
    rw [LawfulRadixKey.compare_value, hva, hvb, Nat.compare_eq_lt]
    exact h.combine_lt_iff hspool ha hb
  · rw [hpasses]
    omega
  · obtain ⟨key', hkey', hvalue, -⟩ := hpack tuple hmem
    cases hkey.symm.trans hkey'
    have hlt := combine_lt (h.fit hspool hmem)
    rw [h.width_packed] at hlt
    have hzero : combine (codec.packed widths tuple) / 256 ^ pass = 0 := by
      refine Nat.div_eq_of_lt (Nat.lt_of_lt_of_le hlt ?_)
      rw [pow_256]
      refine Nat.pow_le_pow_right (by omega) ?_
      rw [hpasses] at hlow
      omega
    rw [LawfulRadixKey.digit_value key pass hhigh, hvalue, hzero]

/-- A packed key fits its word. -/
theorem Codec.Describes.packed_lt (h : codec.Describes spool spec widths) (hspool : spool.Ranges)
    {tuple : Tuple} (hmem : tuple ∈ spool.tuples) {w : Nat} (hw : codec.bits ≤ w) :
    combine (codec.packed widths tuple) < 2 ^ w := by
  have hlt := combine_lt (h.fit hspool hmem)
  rw [h.width_packed] at hlt
  exact Nat.lt_of_lt_of_le hlt (Nat.pow_le_pow_right (by omega) hw)

/-- Up to 64 bits a word is exact. -/
theorem Codec.Describes.keyExact_uint64 (h : codec.Describes spool spec widths)
    (hspool : spool.Ranges) (hbits : codec.bits ≤ 64) : KeyExact UInt64 codec spool.tuples := by
  refine h.keyExact hspool rfl hbits fun tuple hmem => ?_
  have hvalue : (UInt64.ofNat (combine (codec.packed widths tuple))).toNat
      = combine (codec.packed widths tuple) :=
    UInt64.toNat_ofNat_of_lt' (h.packed_lt hspool hmem hbits)
  refine ⟨.ofNat (combine (codec.packed widths tuple)), ?_, hvalue, ?_⟩
  · show (Sort.packWord 64 codec tuple).map UInt64.ofNat = _
    rw [h.packWord hspool hmem (by omega) hbits]
    rfl
  · show Sort.unpackWord 64 codec _ = _
    rw [hvalue]
    exact h.unpackWord hspool hmem (by omega) hbits

/-- A tuple packed into a word of 128 bits. -/
theorem Codec.Describes.pack_word128 (h : codec.Describes spool spec widths)
    (hspool : spool.Ranges) (hbits : codec.bits ≤ 128) {tuple : Tuple}
    (hmem : tuple ∈ spool.tuples) :
    (SortKey.pack codec tuple : Except Failure Word128)
        = .ok ⟨.ofNat 128 (combine (codec.packed widths tuple))⟩ ∧
      (BitVec.ofNat 128 (combine (codec.packed widths tuple))).toNat
        = combine (codec.packed widths tuple) ∧
      SortKey.unpack codec (⟨.ofNat 128 (combine (codec.packed widths tuple))⟩ : Word128)
        = .ok (restrict codec.fields tuple) := by
  have hvalue : (BitVec.ofNat 128 (combine (codec.packed widths tuple))).toNat
      = combine (codec.packed widths tuple) := by
    rw [BitVec.toNat_ofNat, Nat.mod_eq_of_lt (h.packed_lt hspool hmem hbits)]
  refine ⟨?_, hvalue, ?_⟩
  · show (Sort.packWord 128 codec tuple).map _ = _
    rw [h.packWord hspool hmem (by omega) hbits]
    rfl
  · show Sort.unpackWord 128 codec _ = _
    rw [hvalue]
    exact h.unpackWord hspool hmem (by omega) hbits

/-- Up to 128 bits a double word is. -/
theorem Codec.Describes.keyExact_word128 (h : codec.Describes spool spec widths)
    (hspool : spool.Ranges) (hbits : codec.bits ≤ 128) : KeyExact Word128 codec spool.tuples :=
  h.keyExact hspool rfl hbits fun _ hmem => ⟨_, h.pack_word128 hspool hbits hmem⟩

/-- The three words of a number of 96 bits. -/
theorem words_96 {n : Nat} (h : n < 2 ^ 96) :
    ((UInt32.ofNat (n >>> 64)).toNat <<< 64) ||| ((UInt32.ofNat (n >>> 32)).toNat <<< 32)
        ||| (UInt32.ofNat n).toNat = n ∧
      ofWords 32 [(UInt32.ofNat (n >>> 64)).toNat, (UInt32.ofNat (n >>> 32)).toNat,
        (UInt32.ofNat n).toNat] = n := by
  simp only [UInt32.toNat_ofNat', Nat.shiftRight_eq_div_pow]
  have hlow : n % 2 ^ 32 < 2 ^ 32 := Nat.mod_lt _ (Nat.two_pow_pos _)
  have hmid : n / 2 ^ 32 % 2 ^ 32 < 2 ^ 32 := Nat.mod_lt _ (Nat.two_pow_pos _)
  have hmiddle : (n / 2 ^ 32 % 2 ^ 32) <<< 32 < 2 ^ 64 := by
    rw [Nat.shiftLeft_eq]
    omega
  rw [Nat.or_assoc, ← Nat.shiftLeft_add_eq_or_of_lt hlow,
    ← Nat.shiftLeft_add_eq_or_of_lt (b := _ + _) (by rw [Nat.shiftLeft_eq]; omega)]
  simp only [Nat.shiftLeft_eq, ofWords, List.length_cons, List.length_nil]
  omega

/-- Up to 96 bits three half words are. -/
theorem Codec.Describes.keyExact_packed96 (h : codec.Describes spool spec widths)
    (hspool : spool.Ranges) (hbits : codec.bits ≤ 96) : KeyExact Packed96 codec spool.tuples := by
  refine h.keyExact hspool rfl hbits fun tuple hmem => ?_
  obtain ⟨hpack, hvalue, hunpack⟩ := h.pack_word128 hspool (by omega) hmem
  obtain ⟨hor, hwords⟩ := words_96 (h.packed_lt hspool hmem hbits)
  refine ⟨⟨#v[.ofNat (combine (codec.packed widths tuple) >>> 64),
    .ofNat (combine (codec.packed widths tuple) >>> 32),
    .ofNat (combine (codec.packed widths tuple))]⟩, ?_, hwords, ?_⟩
  · show (SortKey.pack codec tuple : Except Failure Word128).map _ = _
    rw [hpack]
    simp only [Except.map, hvalue]
  · show SortKey.unpack codec (⟨.ofNat 128 _⟩ : Word128) = _
    rw [← hunpack]
    exact congrArg (fun n => SortKey.unpack codec (⟨.ofNat 128 n⟩ : Word128)) hor

end

/-! ## Wide keys -/

/-- The ordered value of a field. -/
def wordOf (tuple : Tuple) (field : Nat) : UInt64 := ordered (tuple[field]?.getD 0)

/-- The words `pack` writes, from a position on. -/
theorem packWide_eq {tuple : Tuple} : ∀ {fields : List Nat} {position : Nat}
    (key : Vector UInt64 4), (∀ field ∈ fields, field < 4) → position + fields.length ≤ 4 →
    ∃ packed, packWide tuple fields position key = .ok packed ∧
      packed.toList = key.toList.take position ++ fields.map (wordOf tuple)
        ++ key.toList.drop (position + fields.length)
  | [], position, key, _, _ => ⟨key, rfl, by simp⟩
  | field :: fields, position, key, h, hlen => by
      rw [List.length_cons] at hlen
      have hfield : field < 4 := h field (by simp)
      have hposition : position < 4 := by omega
      obtain ⟨packed, hpacked, hlist⟩ := packWide_eq (key.set position (ordered tuple[field]))
        (fun f (hf : f ∈ fields) => h f (by simp [hf])) (show position + 1 + _ ≤ 4 by omega)
      refine ⟨packed, ?_, ?_⟩
      · rw [packWide, Vector.getElem?_eq_getElem hfield]
        simp only [dif_pos hposition]
        exact hpacked
      · have hword : wordOf tuple field = ordered tuple[field] := by
          rw [wordOf, Vector.getElem?_eq_getElem hfield, Option.getD_some]
        rw [hlist, Vector.toList_set, List.take_set, List.drop_set_of_lt (by omega),
          List.map_cons, hword, List.length_cons]
        have htake : (key.toList.take (position + 1)).set position (ordered tuple[field])
            = key.toList.take position ++ [ordered tuple[field]] := by
          rw [List.take_succ_eq_append_getElem (by simpa using hposition),
            List.set_append_right _ _ (by simp)]
          simp [Nat.min_eq_left (Nat.le_of_lt hposition)]
        rw [htake, List.append_assoc, List.append_assoc, List.append_assoc]
        simp [Nat.add_assoc, Nat.add_comm 1]

/-- A wide key unpacks a word for each field. -/
theorem unpackWide_eq {tuple : Tuple} {key : WideKey} : ∀ {fields : List Nat} {position : Nat}
    (under : Tuple), (∀ field ∈ fields, field < 4) →
    (∀ i (h : i < fields.length), key.words[position + i]? = some (wordOf tuple fields[i])) →
    unpackWide key fields position under = .ok (overlay fields tuple under)
  | [], _, under, _, _ => by
      rw [unpackWide]
      exact congrArg Except.ok (Vector.ext fun i hi => by simp [overlay])
  | field :: fields, position, under, hfields, h => by
      have hfield : field < 4 := hfields field (by simp)
      have hword := h 0 (by simp)
      rw [Nat.add_zero, List.getElem_cons_zero, wordOf, Vector.getElem?_eq_getElem hfield,
        Option.getD_some] at hword
      have hnext : ∀ i (hi : i < fields.length),
          key.words[position + 1 + i]? = some (wordOf tuple fields[i]) := by
        intro i hi
        have hnext := h (i + 1) (by simpa using hi)
        rw [List.getElem_cons_succ] at hnext
        rw [show position + 1 + i = position + (i + 1) by omega]
        exact hnext
      have hrest := unpackWide_eq (under.set field tuple[field] hfield)
        (fun f hf => hfields f (by simp [hf])) hnext
      rw [overlay_set] at hrest
      rw [unpackWide, hword]
      simp only [unordered_ordered]
      show (setField under field tuple[field] >>= _) = _
      rw [setField, dif_pos hfield]
      exact hrest

/-- Rows with one ending compare as what stands before it. -/
theorem compare_append_lt {ι : Type} {f g : ι → UInt64} {rest : List UInt64} : ∀ {fields : List ι},
    compare (fields.map f ++ rest) (fields.map g ++ rest) = .lt ↔
      List.Lex (· < ·) (fields.map f) (fields.map g)
  | [] => by
      simp
  | i :: fields => by
      have ih : compare (fields.map f ++ rest) (fields.map g ++ rest) = .lt ↔ _ := compare_append_lt
      simp only [List.map_cons, List.cons_append, List.compare_cons_cons, List.cons_lex_cons_iff]
      rw [Ordering.then_eq_lt, ih, compare_uint64, Nat.compare_eq_lt, Nat.compare_eq_eq,
        UInt64.lt_iff_toNat_lt, UInt64.toNat_inj]

section
variable {codec : Codec} {spool : IntegerSpool} {spec : IntegerIndexSpec} {widths : List Nat}

/-- A wide key is exact for every codec. -/
theorem Codec.Describes.keyExact_wide (h : codec.Describes spool spec widths)
    (hspool : spool.Ranges) : KeyExact WideKey codec spool.tuples := by
  have hlength : codec.fields.length ≤ 4 := by
    rw [h.fields]
    exact h.valid.2.1
  have hfour := h.field_lt hspool
  have hpack : ∀ tuple : Tuple, ∃ key : WideKey, SortKey.pack codec tuple = .ok key ∧
      key.words.toList = codec.fields.map (wordOf tuple)
        ++ (List.replicate 4 (0 : UInt64)).drop codec.fields.length := by
    intro tuple
    obtain ⟨packed, hpacked, hlist⟩ := packWide_eq (.replicate 4 0) hfour
      (show 0 + codec.fields.length ≤ 4 by omega)
    refine ⟨⟨packed⟩, ?_, ?_⟩
    · show (packWide tuple codec.fields 0 (.replicate 4 0)).map WideKey.mk = _
      rw [hpacked]
      rfl
    · rw [hlist, Nat.zero_add, Vector.toList_replicate]
      rfl
  refine ⟨fun tuple _ => ?_, fun a _ b _ ka kb hka hkb => ?_, Nat.le_refl 32,
    fun _ _ _ _ pass hlow hhigh => absurd hhigh (Nat.not_lt.mpr hlow)⟩
  · obtain ⟨key, hkey, hwords⟩ := hpack tuple
    refine ⟨key, hkey, ?_⟩
    show unpackWide key codec.fields 0 (.replicate 4 0) = _
    rw [unpackWide_eq _ hfour fun i hi => ?_, overlay_zeros]
    rw [Nat.zero_add, ← Vector.getElem?_toList, hwords,
      List.getElem?_append_left (by simpa using hi),
      List.getElem?_map, List.getElem?_eq_getElem hi]
    rfl
  · obtain ⟨ka', hka', hwa⟩ := hpack a
    obtain ⟨kb', hkb', hwb⟩ := hpack b
    cases hka.symm.trans hka'
    cases hkb.symm.trans hkb'
    show compare ka.words.toList kb.words.toList = .lt ↔ _
    rw [hwa, hwb, compare_append_lt]
    exact lex_map_iff fun field _ => ⟨ordered_lt_iff, ⟨fun heq => by
      rw [← unordered_ordered (a[field]?.getD 0), show ordered _ = _ from heq, wordOf,
        unordered_ordered], fun heq => by rw [wordOf, wordOf, heq]⟩⟩

/-- The key type a number of bits takes has what packing promises. -/
theorem Codec.Describes.withKeyType (h : codec.Describes spool spec widths)
    (hspool : spool.Ranges) :
    withKeyType codec.bits fun K _ => KeyExact K codec spool.tuples := by
  unfold Sort.withKeyType
  split
  · next hbits => exact h.keyExact_uint64 hspool hbits
  · split
    · next hbits => exact h.keyExact_packed96 hspool hbits
    · split
      · next hbits => exact h.keyExact_word128 hspool hbits
      · exact h.keyExact_wide hspool

end

/-! ## What a spool is packed into -/

/-- Whatever is pushed to a new spool, a valid specification gives a codec over its sorted fields.
For each of the tuples no distance underflows and no shift of one reaches the end of the key or
loses a bit; in the key type of the codec, unpacking gives the sorted fields back, keys are ordered
as them, and the digits behind the passes are zero. -/
theorem key_packing_exact {fields : Nat} {empty spool : IntegerSpool} {rows : List (List Int64)}
    {spec : IntegerIndexSpec} (hcreate : IntegerSpool.create fields = .ok empty)
    (hpush : empty.pushAll rows = .ok spool) (hspec : spec.Valid fields) :
    ∃ codec, Codec.new spool spec = .ok codec ∧ codec.fields = spec.sortedFields ∧
      spool.tuples = rows.map padded ∧
      (∀ tuple ∈ spool.tuples, ∀ pair ∈ codec.fields.zip codec.shifts, ∃ distance,
        codec.delta tuple pair.1 = .ok distance ∧ pair.2 < max codec.bits 1 ∧
        distance <<< pair.2 < 2 ^ codec.bits) ∧
      withKeyType codec.bits fun K _ => KeyExact K codec spool.tuples := by
  have hempty := IntegerSpool.create_eq hcreate
  obtain ⟨htuples, hfields⟩ := IntegerSpool.pushAll_tuples hpush
  have hspool := (IntegerSpool.create_ranges hcreate).pushAll hpush
  rw [hempty.1] at hfields
  rw [hempty.2, List.nil_append] at htuples
  obtain ⟨codec, hcodec⟩ := Codec.new_ok hspool (hfields.symm ▸ hspec)
  obtain ⟨widths, h⟩ := Codec.new_describes hcodec
  refine ⟨codec, hcodec, h.fields, htuples, fun tuple hmem pair hpair => ?_, h.withKeyType hspool⟩
  obtain ⟨hdelta, hshift, hloss⟩ :=
    h.no_loss hspool hmem (show 0 < max codec.bits 1 by omega) (Nat.le_max_left _ _) pair hpair
  exact ⟨_, hdelta, hshift, hloss⟩

/-- A field over the whole range of its type beside a constant one. -/
theorem key_packing_exact_small :
    ∃ spool codec, (IntegerSpool.create 2 >>= fun empty =>
        empty.pushAll [[Int64.minValue, 5], [Int64.maxValue, 5]]) = .ok spool ∧
      Codec.new spool ⟨[0, 1], [0, 1], 2⟩ = .ok codec ∧
      withKeyType codec.bits fun K _ => KeyExact K codec spool.tuples := by
  have hvalid : IntegerIndexSpec.Valid ⟨[0, 1], [0, 1], 2⟩ 2 := by decide
  obtain ⟨codec, hcodec, -, -, -, hkeys⟩ := key_packing_exact (show _ = Except.ok _ from rfl)
    (show IntegerSpool.pushAll _ [[Int64.minValue, 5], [Int64.maxValue, 5]] = .ok _ from rfl) hvalid
  exact ⟨_, codec, rfl, hcodec, hkeys⟩

end Velr.Sort
