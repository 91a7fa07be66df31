import Mathlib.Data.List.Lex
import Mathlib.Data.Nat.Bitwise
import Mathlib.Order.Lattice
import Mathlib.Tactic.Ring

/-!
# Numbers made of bit fields

Values written side by side into one number, each into a field of a given width, the first one into
the most significant bits (`combine`). Writing them is a chain of shifts and ors (`foldl_or`),
reading one is a shift and a mask (`field_combine`), and the order of the numbers is the
lexicographic order of the values (`combine_lt_iff`).
-/

namespace BitFields

/-- The value of each field and its width. -/
abbrev Fields := List (Nat × Nat)

/-- The number of bits of the fields. -/
def width (fields : Fields) : Nat := (fields.map Prod.snd).sum

/-- The number the fields make up. -/
def combine : Fields → Nat
  | [] => 0
  | (value, _) :: rest => value * 2 ^ width rest + combine rest

/-- Every value fits its field. -/
def Fit (fields : Fields) : Prop := ∀ field ∈ fields, field.1 < 2 ^ field.2

/-- Where each field starts; a field without bits starts anywhere. -/
def offsets : List Nat → List Nat
  | [] => []
  | w :: widths => (if w = 0 then 0 else widths.sum) :: offsets widths

@[simp] theorem length_offsets (widths : List Nat) : (offsets widths).length = widths.length := by
  induction widths with
  | nil => rfl
  | cons w widths ih => simp [offsets, ih]

variable {fields : Fields} {value w : Nat}

@[simp] theorem width_cons : width ((value, w) :: fields) = w + width fields := rfl

theorem Fit.tail (h : Fit ((value, w) :: fields)) : Fit fields := fun f hf => h f (by simp [hf])

theorem Fit.head (h : Fit ((value, w) :: fields)) : value < 2 ^ w := h (value, w) (by simp)

/-- Fields that fit their widths make a number that fits the sum of the widths. -/
theorem combine_lt : ∀ {fields : Fields}, Fit fields → combine fields < 2 ^ width fields
  | [], _ => Nat.one_pos
  | (value, w) :: fields, h => by
      have hhead := h.head
      have htail := combine_lt h.tail
      have hle : (value + 1) * 2 ^ width fields ≤ 2 ^ w * 2 ^ width fields :=
        Nat.mul_le_mul_right _ hhead
      rw [combine, width_cons, Nat.pow_add]
      rw [Nat.add_mul] at hle
      omega

/-! ## Writing -/

/-- A field written behind others that lie above it. -/
theorem or_shift {key value offset : Nat} (h : value < 2 ^ w) :
    (key * 2 ^ (w + offset)) ||| (value <<< offset) = (key * 2 ^ w + value) * 2 ^ offset := by
  have hlt : value <<< offset < 2 ^ (w + offset) := by
    rw [Nat.shiftLeft_eq, Nat.pow_add]
    exact Nat.mul_lt_mul_of_pos_right h (Nat.two_pow_pos offset)
  rw [Nat.mul_comm key, ← Nat.two_pow_add_eq_or_of_lt hlt, Nat.shiftLeft_eq, Nat.pow_add]
  ring

/-- The number a chain of shifts and ors writes behind `key`. -/
theorem foldl_or : ∀ {fields : Fields} (key : Nat), Fit fields →
    ((fields.map Prod.fst).zip (offsets (fields.map Prod.snd))).foldl
        (fun key (value, offset) => key ||| (value <<< offset)) (key * 2 ^ width fields)
      = key * 2 ^ width fields + combine fields
  | [], key, _ => by simp [combine]
  | (value, w) :: fields, key, h => by
      simp only [List.map_cons, offsets, List.zip_cons_cons, List.foldl_cons, width_cons, combine]
      by_cases hw : w = 0
      · subst hw
        have hzero : value = 0 := by simpa using h.head
        subst hzero
        simp only [if_pos, Nat.zero_shiftLeft, Nat.or_zero, Nat.zero_add, Nat.zero_mul]
        exact foldl_or key h.tail
      · rw [if_neg hw]
        have hor : (key * 2 ^ (w + width fields)) ||| (value <<< width fields) = _ :=
          or_shift h.head
        simp only [width] at hor ⊢
        rw [hor]
        have ih := foldl_or (key * 2 ^ w + value) h.tail
        simp only [width] at ih
        rw [ih, Nat.pow_add]
        ring

/-- A field stays below the number's width. -/
theorem shift_lt : ∀ {fields : Fields}, Fit fields →
    ∀ pair ∈ (fields.map Prod.fst).zip (offsets (fields.map Prod.snd)),
      pair.1 <<< pair.2 < 2 ^ width fields
  | [], _, pair, hmem => by cases hmem
  | (value, w) :: fields, h, pair, hmem => by
      simp only [List.map_cons, offsets, List.zip_cons_cons, List.mem_cons] at hmem
      rcases hmem with rfl | hmem
      · have hhead := h.head
        simp only [width_cons, Nat.shiftLeft_eq]
        by_cases hw : w = 0
        · subst hw
          simp only [if_pos, Nat.pow_zero, Nat.mul_one]
          exact Nat.lt_of_lt_of_le hhead (Nat.two_pow_pos _)
        · rw [if_neg hw, Nat.pow_add]
          exact Nat.mul_lt_mul_of_pos_right hhead (Nat.two_pow_pos _)
      · refine Nat.lt_of_lt_of_le (shift_lt h.tail pair hmem) ?_
        rw [width_cons]
        exact Nat.pow_le_pow_right (by omega) (by omega)

/-- A field starts inside the number, if the number has bits at all. -/
theorem offset_lt : ∀ {widths : List Nat} {bound : Nat}, 0 < bound → widths.sum ≤ bound →
    ∀ offset ∈ offsets widths, offset < bound
  | [], _, _, _, offset, hmem => by cases hmem
  | w :: widths, bound, hpos, hle, offset, hmem => by
      rw [List.sum_cons] at hle
      simp only [offsets, List.mem_cons] at hmem
      rcases hmem with rfl | hmem
      · split <;> omega
      · exact offset_lt hpos (by omega) offset hmem

/-! ## Reading -/

/-- Shifting and masking reads a field back. -/
theorem field_combine : ∀ {fields : Fields} (high : Nat), Fit fields →
    ∀ pair ∈ fields.zip (offsets (fields.map Prod.snd)),
      ((high * 2 ^ width fields + combine fields) >>> pair.2) % 2 ^ pair.1.2 = pair.1.1
  | [], _, _, pair, hmem => by cases hmem
  | (value, w) :: fields, high, h, pair, hmem => by
      simp only [List.map_cons, offsets, List.zip_cons_cons, List.mem_cons] at hmem
      have hhead := h.head
      rcases hmem with rfl | hmem
      · by_cases hw : w = 0
        · subst hw
          have hzero : value = 0 := by simpa using hhead
          subst hzero
          simp [Nat.mod_one]
        · have hrest := combine_lt h.tail
          have hsplit : high * 2 ^ width ((value, w) :: fields) + combine ((value, w) :: fields)
              = combine fields + 2 ^ width fields * (high * 2 ^ w + value) := by
            rw [width_cons, combine, Nat.pow_add]
            ring
          rw [if_neg hw, hsplit, Nat.shiftRight_eq_div_pow]
          show (combine fields + 2 ^ width fields * _) / 2 ^ width fields % 2 ^ w = value
          rw [Nat.add_mul_div_left _ _ (Nat.two_pow_pos _), Nat.div_eq_of_lt hrest, Nat.zero_add,
            Nat.add_comm, Nat.add_mul_mod_self_right, Nat.mod_eq_of_lt hhead]
      · have hsplit : high * 2 ^ width ((value, w) :: fields) + combine ((value, w) :: fields)
            = (high * 2 ^ w + value) * 2 ^ width fields + combine fields := by
          rw [width_cons, combine, Nat.pow_add]
          ring
        rw [hsplit]
        exact field_combine (high * 2 ^ w + value) h.tail pair hmem

/-! ## The order -/

/-- Numbers of the same fields are ordered as their values are, the first difference deciding. -/
theorem combine_lt_iff {widths values values' : List Nat} (hl : values.length = widths.length)
    (hl' : values'.length = widths.length) (h : Fit (values.zip widths))
    (h' : Fit (values'.zip widths)) :
    combine (values.zip widths) < combine (values'.zip widths) ↔
      List.Lex (· < ·) values values' := by
  induction widths generalizing values values' with
  | nil =>
      obtain rfl := List.eq_nil_of_length_eq_zero hl
      obtain rfl := List.eq_nil_of_length_eq_zero hl'
      simp [combine]
  | cons w ws ih =>
      obtain ⟨v, vs, rfl⟩ := List.exists_cons_of_length_eq_add_one hl
      obtain ⟨v', vs', rfl⟩ := List.exists_cons_of_length_eq_add_one hl'
      simp only [List.length_cons, Nat.add_right_cancel_iff] at hl hl'
      simp only [List.zip_cons_cons] at h h' ⊢
      have hwidth : ∀ us : List Nat, us.length = ws.length → width (us.zip ws) = ws.sum := by
        intro us hus
        rw [width, List.map_snd_zip (by omega)]
      have hlt := combine_lt h.tail
      have hlt' := combine_lt h'.tail
      simp only [combine, hwidth vs hl, hwidth vs' hl'] at *
      rcases Nat.lt_trichotomy v v' with hv | hv | hv
      · have := Nat.mul_le_mul_right (2 ^ ws.sum) hv
        rw [Nat.succ_mul] at this
        exact ⟨fun _ => .rel hv, fun _ => by omega⟩
      · subst hv
        rw [List.lex_cons_iff, ← ih hl hl' h.tail h'.tail]
        omega
      · have := Nat.mul_le_mul_right (2 ^ ws.sum) hv
        rw [Nat.succ_mul] at this
        refine ⟨fun hlt => by omega, fun hlex => ?_⟩
        cases hlex with
        | cons _ => omega
        | rel hlt => omega

/-! ## Words of one width -/

/-- The number of a row of words of `w` bits, the first one the most significant. -/
def ofWords (w : Nat) : List Nat → Nat
  | [] => 0
  | x :: xs => x * 2 ^ (w * xs.length) + ofWords w xs

@[simp] theorem ofWords_singleton (w x : Nat) : ofWords w [x] = x := by
  simp [ofWords]

/-- Words of `w` bits make a number of `w` bits for each. -/
theorem ofWords_lt {w : Nat} : ∀ {xs : List Nat}, (∀ x ∈ xs, x < 2 ^ w) →
    ofWords w xs < 2 ^ (w * xs.length)
  | [], _ => Nat.one_pos
  | x :: xs, h => by
      have htail := ofWords_lt fun y (hy : y ∈ xs) => h y (by simp [hy])
      have hle := Nat.mul_le_mul_right (2 ^ (w * xs.length)) (h x (by simp))
      rw [Nat.succ_mul] at hle
      rw [ofWords, List.length_cons, Nat.mul_succ, Nat.pow_add, Nat.mul_comm (2 ^ (w * xs.length))]
      omega

/-- The numbers of rows of one length are ordered as the rows, the first difference deciding. -/
theorem compare_ofWords {w : Nat} : ∀ {xs ys : List Nat}, xs.length = ys.length →
    (∀ x ∈ xs, x < 2 ^ w) → (∀ y ∈ ys, y < 2 ^ w) →
    compare (ofWords w xs) (ofWords w ys) = compare xs ys
  | [], [], _, _, _ => rfl
  | x :: xs, y :: ys, hl, hx, hy => by
      have hl : xs.length = ys.length := by simpa using hl
      have hx' := fun z (hz : z ∈ xs) => hx z (by simp [hz])
      have hy' := fun z (hz : z ∈ ys) => hy z (by simp [hz])
      have ih := compare_ofWords hl hx' hy'
      have hltx := ofWords_lt hx'
      have hlty := ofWords_lt hy'
      rw [List.compare_cons_cons, ← ih, ofWords, ofWords, hl]
      rw [hl] at hltx
      rcases Nat.lt_trichotomy x y with h | h | h
      · have hle := Nat.mul_le_mul_right (2 ^ (w * ys.length)) h
        rw [Nat.succ_mul] at hle
        rw [Nat.compare_eq_lt.mpr h, Nat.compare_eq_lt.mpr (by omega)]
        rfl
      · subst h
        rw [Nat.compare_eq_eq.mpr rfl]
        simp only [Ordering.then]
        rw [Nat.compare_eq_ite_lt, Nat.compare_eq_ite_lt]
        simp only [Nat.add_lt_add_iff_left]
      · have hle := Nat.mul_le_mul_right (2 ^ (w * ys.length)) h
        rw [Nat.succ_mul] at hle
        rw [Nat.compare_eq_gt.mpr h, Nat.compare_eq_gt.mpr (by omega)]
        rfl

/-- A row of words is its number. -/
theorem ofWords_injective {w : Nat} {xs ys : List Nat} (hl : xs.length = ys.length)
    (hx : ∀ x ∈ xs, x < 2 ^ w) (hy : ∀ y ∈ ys, y < 2 ^ w) (h : ofWords w xs = ofWords w ys) :
    xs = ys := by
  have hcompare := compare_ofWords hl hx hy
  rw [h, Nat.compare_eq_eq.mpr rfl] at hcompare
  exact Std.LawfulEqCmp.eq_of_compare hcompare.symm

/-- A word of a row, counted from the least significant one. -/
theorem word_ofWords {w : Nat} : ∀ {xs : List Nat} {j : Nat} (hj : j < xs.length),
    (∀ x ∈ xs, x < 2 ^ w) →
    ofWords w xs / 2 ^ (w * j) % 2 ^ w = xs[xs.length - 1 - j]
  | x :: xs, j, hj, h => by
      have htail := fun y (hy : y ∈ xs) => h y (by simp [hy])
      have hlt := ofWords_lt htail
      rw [ofWords]
      rcases Nat.lt_or_ge j xs.length with hlow | hhigh
      · have hsplit : x * 2 ^ (w * xs.length) + ofWords w xs
            = ofWords w xs + 2 ^ (w * j) * (2 ^ w * (x * 2 ^ (w * (xs.length - j - 1)))) := by
          have hpow : 2 ^ (w * xs.length)
              = 2 ^ (w * j) * (2 ^ w * 2 ^ (w * (xs.length - j - 1))) := by
            have hlen : xs.length = j + (1 + (xs.length - j - 1)) := by omega
            rw [← Nat.pow_add, ← Nat.pow_add]
            conv => lhs; rw [hlen, Nat.mul_add, Nat.mul_add, Nat.mul_one]
          rw [hpow]
          ring
        rw [hsplit, Nat.add_mul_div_left _ _ (Nat.two_pow_pos _), Nat.add_mul_mod_self_left,
          word_ofWords hlow htail]
        have hindex : (x :: xs).length - 1 - j = (xs.length - 1 - j) + 1 := by
          rw [List.length_cons]
          omega
        simp only [hindex, List.getElem_cons_succ]
      · have hj : j = xs.length := by
          rw [List.length_cons] at hj
          omega
        subst hj
        rw [Nat.add_comm, Nat.add_mul_div_right _ _ (Nat.two_pow_pos _), Nat.div_eq_of_lt hlt,
          Nat.zero_add, Nat.mod_eq_of_lt (h x (by simp))]
        simp

/-- A byte of a row of words of `b` bytes lies in one of the words. -/
theorem byte_ofWords {b : Nat} (hb : 0 < b) (xs : List Nat) {pass word : Nat}
    (hpass : pass < b * xs.length) (h : ∀ x ∈ xs, x < 2 ^ (8 * b))
    (hget : xs[xs.length - 1 - pass / b]? = some word) :
    ofWords (8 * b) xs / 256 ^ pass % 256 = word >>> (pass % b * 8) &&& 255 := by
  have hj : pass / b < xs.length := Nat.div_lt_of_lt_mul hpass
  have hword := word_ofWords hj h
  rw [(List.getElem?_eq_some_iff.mp hget).2] at hword
  have hrest : pass % b < b := Nat.mod_lt _ hb
  have hpow : (256 : Nat) ^ pass = 2 ^ (8 * b * (pass / b)) * 2 ^ (pass % b * 8) := by
    have h256 : (256 : Nat) = 2 ^ 8 := rfl
    rw [h256, ← Nat.pow_mul, ← Nat.pow_add, Nat.mul_assoc, Nat.mul_comm (pass % b) 8, ← Nat.mul_add,
      Nat.div_add_mod]
  have hmask : ∀ n : Nat, n &&& 255 = n % 256 := fun n => Nat.and_two_pow_sub_one_eq_mod n 8
  rw [hmask, ← hword, Nat.shiftRight_eq_div_pow, hpow, ← Nat.div_div_eq_div_mul]
  have hwide : (2 : Nat) ^ (8 * b) = 2 ^ (pass % b * 8) * 2 ^ (8 * b - pass % b * 8) := by
    rw [← Nat.pow_add]
    congr 1
    omega
  have hbyte : (256 : Nat) ∣ 2 ^ (8 * b - pass % b * 8) :=
    Nat.pow_dvd_pow 2 (show 8 ≤ 8 * b - pass % b * 8 by omega)
  rw [hwide, Nat.mod_mul_right_div_self, Nat.mod_mod_of_dvd _ hbyte]

end BitFields
