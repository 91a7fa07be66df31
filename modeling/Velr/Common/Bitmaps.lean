import Mathlib.Algebra.Order.Ring.Nat
import Mathlib.Data.List.Basic
import Mathlib.Data.List.Range
import Mathlib.Tactic.Common

/-!
# Bitmaps and ranks

A set of numbers as a list of 64-bit words, and the rank of a number: how many members lie below it
(`ones`). The rank is what the words in front hold plus what the word's low bits hold (`ones_bit`),
and a list of the words that are not zero, found by the rank of a word, holds the same set
(`getElem?_filter_countP`).
-/

namespace Bitmaps

/-- A word of a bitmap. -/
abbrev Word := BitVec 64

/-- How many numbers below `n` satisfy `p`. -/
def ones (n : Nat) (p : Nat → Bool) : Nat := (List.range n).countP p

/-- `count_ones` -/
def countOnes (word : Word) : Nat := ones 64 word.getLsbD

/-- Whether a number is in a bitmap. -/
def bit (words : List Word) (i : Nat) : Bool := (words[i / 64]?.getD 0).getLsbD (i % 64)

variable {p q : Nat → Bool} {m n k i : Nat} {word : Word} {words : List Word}

@[simp] theorem ones_zero (p : Nat → Bool) : ones 0 p = 0 := rfl

/-- The positions below `m + n` are those below `m` and the `n` behind them. -/
theorem ones_add (m n : Nat) (p : Nat → Bool) :
    ones (m + n) p = ones m p + ones n (p <| m + ·) := by
  rw [ones, List.range_add, List.countP_append, List.countP_map]
  rfl

theorem ones_succ (n : Nat) (p : Nat → Bool) : ones (n + 1) p = ones n p + (p n).toNat := by
  rw [ones_add, ones, ones]
  cases hp : p n <;> simp [hp]

theorem ones_le (n : Nat) (p : Nat → Bool) : ones n p ≤ n := by
  have hle := List.countP_le_length (p := p) (l := List.range n)
  rwa [List.length_range] at hle

/-- More positions have no fewer ones. -/
theorem ones_mono (h : m ≤ n) : ones m p ≤ ones n p := by
  obtain ⟨k, rfl⟩ := Nat.le.dest h
  rw [ones_add]
  exact Nat.le_add_right ..

/-- A member has a lower rank than everything above it. -/
theorem ones_lt (hk : p k = true) (h : k < n) : ones k p < ones n p := by
  have hle := ones_mono (p := p) (Nat.succ_le_of_lt h)
  rw [ones_succ, hk, Bool.toNat_true] at hle
  omega

/-- Two members of one rank are the same. -/
theorem ones_inj (hm : p m = true) (hn : p n = true) (h : ones m p = ones n p) : m = n := by
  rcases Nat.lt_trichotomy m n with hlt | heq | hlt
  · have hones := ones_lt hm hlt
    omega
  · exact heq
  · have hones := ones_lt hn hlt
    omega

/-- The count depends on the positions that are counted only. -/
theorem ones_congr (h : ∀ i < n, p i = q i) : ones n p = ones n q :=
  List.countP_congr fun i hi => by rw [h i (List.mem_range.mp hi)]

theorem ones_eq_zero (h : ∀ i < n, p i = false) : ones n p = 0 := by
  rw [ones, List.countP_eq_zero]
  intro i hi
  rw [h i (List.mem_range.mp hi)]
  exact Bool.false_ne_true

/-- One more member among the numbers below `n`. -/
theorem ones_insert (hk : p k = false) (h : k < n) :
    ones n (fun i => decide (i = k) || p i) = ones n p + 1 := by
  obtain ⟨m, rfl⟩ := Nat.le.dest (Nat.succ_le_of_lt h)
  have hbelow : ones k (fun i => decide (i = k) || p i) = ones k p :=
    ones_congr fun i hi => by rw [decide_eq_false (by omega), Bool.false_or]
  have habove : ones m (fun i => decide (k.succ + i = k) || p (k.succ + i)) =
      ones m (p <| k.succ + ·) :=
    ones_congr fun i _ => by rw [decide_eq_false (by omega), Bool.false_or]
  rw [ones_add, ones_add, habove, ones_succ, ones_succ, hbelow, hk, decide_eq_true rfl]
  simp only [Bool.true_or, Bool.toNat_true, Bool.toNat_false]
  omega

/-! ## Words -/

/-- The bits under a mask of the low bits. -/
theorem countOnes_and_mask (word : Word) (h : k < 64) :
    countOnes (word &&& (((1 : Word) <<< k) - 1)) = ones k word.getLsbD := by
  have hmask : ∀ i, (((1 : Word) <<< k) - 1).getLsbD i = decide (i < k) := by
    intro i
    have hlt : 2 ^ k < 2 ^ 64 := Nat.pow_lt_pow_right (by decide) h
    have hvalue : (((1 : Word) <<< k) - 1).toNat = 2 ^ k - 1 := by
      have hone : ((1 : Word) <<< k).toNat = 2 ^ k := by
        rw [BitVec.toNat_shiftLeft]
        simp only [BitVec.ofNat_eq_ofNat, BitVec.toNat_ofNat, Nat.shiftLeft_eq]
        rw [Nat.one_mod_eq_one.mpr (by decide), Nat.one_mul, Nat.mod_eq_of_lt hlt]
      rw [BitVec.toNat_sub_of_le]
      · rw [hone]; rfl
      · rw [BitVec.le_def, hone]
        exact Nat.one_le_two_pow
    rw [BitVec.getLsbD, hvalue, Nat.testBit_two_pow_sub_one]
  have hsplit := ones_add k (64 - k) (word &&& (((1 : Word) <<< k) - 1)).getLsbD
  rw [Nat.add_sub_cancel' (Nat.le_of_lt h)] at hsplit
  have habove :
      ones (64 - k) (fun i => (word &&& (((1 : Word) <<< k) - 1)).getLsbD (k + i)) = 0 := by
    refine ones_eq_zero fun i _ => ?_
    rw [BitVec.getLsbD_and, hmask, decide_eq_false (by omega), Bool.and_false]
  rw [countOnes, hsplit, habove, Nat.add_zero]
  refine ones_congr fun i hi => ?_
  rw [BitVec.getLsbD_and, hmask, decide_eq_true hi, Bool.and_true]

/-- A shifted one has one bit. -/
theorem getLsbD_shift_one (h : k < 64) : ((1 : Word) <<< k).getLsbD i = decide (i = k) := by
  rw [BitVec.getLsbD_shiftLeft]
  by_cases hik : i = k
  · subst hik
    simp [h]
  · rw [decide_eq_false hik]
    by_cases hlt : i < k
    · simp [hlt]
    · have hsub : 0 < i - k := by omega
      simp only [BitVec.ofNat_eq_ofNat, BitVec.getLsbD_one, Bool.and_eq_false_iff,
        decide_eq_false_iff_not]
      right
      omega

/-- Whether a bit is set, as the sources test it. -/
theorem and_shift_one_eq_zero (h : k < 64) :
    word &&& ((1 : Word) <<< k) = 0 ↔ word.getLsbD k = false := by
  constructor
  · intro hzero
    have hbit := congrArg (·.getLsbD k) hzero
    simp only [BitVec.getLsbD_and, getLsbD_shift_one h] at hbit
    simpa using hbit
  · intro hbit
    refine BitVec.eq_of_getLsbD_eq fun i _ => ?_
    rw [BitVec.getLsbD_and, getLsbD_shift_one h]
    by_cases hik : i = k
    · rw [hik, hbit]
      simp
    · simp [hik]

/-! ## Lists of words -/

/-- The rank of a number: what the words in front hold, and the low bits of its own. -/
theorem ones_bit (words : List Word) {q r : Nat} (hr : r ≤ 64) (hq : q ≤ words.length) :
    ones (64 * q + r) (bit words) =
      ((words.take q).map countOnes).sum + ones r (words[q]?.getD 0).getLsbD := by
  induction q generalizing r with
  | zero =>
      rw [Nat.mul_zero, Nat.zero_add, List.take_zero, List.map_nil, List.sum_nil, Nat.zero_add]
      refine ones_congr fun i hi => ?_
      rw [bit, Nat.div_eq_of_lt (by omega), Nat.mod_eq_of_lt (by omega)]
  | succ q ih =>
      have hfull := ih (Nat.le_refl 64) (by omega)
      have hlt : q < words.length := hq
      rw [Nat.mul_succ, ones_add, hfull, List.take_succ_eq_append_getElem hlt, List.map_append,
        List.sum_append, List.map_singleton, List.sum_singleton, countOnes,
        List.getElem?_eq_getElem hlt, Option.getD_some]
      congr 1
      refine ones_congr fun i hi => ?_
      rw [bit, show (64 * q + 64 + i) / 64 = q + 1 by omega,
        show (64 * q + 64 + i) % 64 = i by omega]

/-- The elements of a list that satisfy a test, counted by their places. -/
theorem ones_any {α : Type} (f : α → Bool) {xs : List α} : ∀ {n : Nat}, n ≤ xs.length →
    ones n (fun i => xs[i]?.any f) = (xs.take n).countP f
  | 0, _ => by rw [ones_zero, List.take_zero, List.countP_nil]
  | n + 1, h => by
      have hlt : n < xs.length := h
      rw [ones_succ, ones_any f (Nat.le_of_lt hlt), List.take_succ_eq_append_getElem hlt,
        List.countP_append, List.countP_singleton, List.getElem?_eq_getElem hlt, Option.any_some]
      cases f xs[n] <;> rfl

/-- An element that a filter keeps stands behind the kept ones in front of it. -/
theorem getElem?_filter_countP {α : Type} {f : α → Bool} {x : α} : ∀ {xs : List α} {i : Nat},
    xs[i]? = some x → f x = true → (xs.filter f)[(xs.take i).countP f]? = some x
  | y :: xs, 0, h, hx => by
      cases h
      rw [List.filter_cons_of_pos hx]
      rfl
  | y :: xs, i + 1, h, hx => by
      have hrest : (xs.filter f)[(xs.take i).countP f]? = some x := getElem?_filter_countP h hx
      cases hy : f y with
      | false =>
          rw [List.filter_cons_of_neg (by rw [hy]; decide), List.take_succ_cons,
            List.countP_cons_of_neg (by rw [hy]; decide)]
          exact hrest
      | true =>
          rw [List.filter_cons_of_pos hy, List.take_succ_cons, List.countP_cons_of_pos hy,
            List.getElem?_cons_succ]
          exact hrest

end Bitmaps
