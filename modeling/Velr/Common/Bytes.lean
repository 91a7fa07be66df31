import Mathlib.Algebra.Order.Ring.Nat
import Mathlib.Data.List.Basic
import Mathlib.Tactic.Common

/-!
# Byte strings

Big-endian numbers, slices and in-place copies, as the page formats of this development use
them. `overwrite bs i new` is `bs[i..i + new.len()].copy_from_slice(new)`; two overwrites of
adjacent ranges are one overwrite of the joined range (`overwrite_overwrite`), which turns a
page image built field by field into a concatenation.
-/

namespace ByteString

abbrev Bytes := List UInt8

/-! ## Big-endian numbers -/

/-- The low `n` bytes of `v`, most significant first. -/
def toBE : Nat → Nat → Bytes
  | 0, _ => []
  | n + 1, v => toBE n (v / 256) ++ [UInt8.ofNat v]

/-- The number a big-endian byte string spells. -/
def ofBE (bs : Bytes) : Nat := bs.foldl (fun n b => n * 256 + b.toNat) 0

@[simp] theorem length_toBE (n v : Nat) : (toBE n v).length = n := by
  induction n generalizing v with
  | zero => rfl
  | succ n ih => simp [toBE, ih]

@[simp] theorem ofBE_nil : ofBE [] = 0 := rfl

/-- The last byte has the lowest weight. -/
theorem ofBE_concat (bs : Bytes) (b : UInt8) : ofBE (bs ++ [b]) = ofBE bs * 256 + b.toNat := by
  simp [ofBE, List.foldl_append]

/-- Reading back what was written keeps the low `8 * n` bits. -/
theorem ofBE_toBE (n v : Nat) : ofBE (toBE n v) = v % 256 ^ n := by
  induction n generalizing v with
  | zero => simp [toBE, Nat.mod_one]
  | succ n ih =>
      have hpow : 256 ^ (n + 1) = 256 * 256 ^ n := by rw [Nat.pow_succ, Nat.mul_comm]
      rw [toBE, ofBE_concat, ih, hpow, Nat.mod_mul]
      simp only [UInt8.toNat_ofNat']
      omega

/-- A number that fits is read back from its big-endian bytes. -/
theorem ofBE_toBE_of_lt {n v : Nat} (h : v < 256 ^ n) : ofBE (toBE n v) = v := by
  rw [ofBE_toBE, Nat.mod_eq_of_lt h]

/-! ## Little-endian numbers -/

/-- The low `n` bytes of `v`, least significant first. -/
def toLE (n v : Nat) : Bytes := (toBE n v).reverse

/-- The number a little-endian byte string spells. -/
def ofLE (bs : Bytes) : Nat := ofBE bs.reverse

@[simp] theorem length_toLE (n v : Nat) : (toLE n v).length = n := by
  rw [toLE, List.length_reverse, length_toBE]

/-- A number that fits is read back from its little-endian bytes. -/
theorem ofLE_toLE_of_lt {n v : Nat} (h : v < 256 ^ n) : ofLE (toLE n v) = v := by
  rw [ofLE, toLE, List.reverse_reverse, ofBE_toBE_of_lt h]

/-! ## Slices -/

/-- `bs[i..i + n]`, cut short where `bs` ends. -/
def slice (bs : Bytes) (i n : Nat) : Bytes := (bs.drop i).take n

theorem length_slice {bs : Bytes} {i n : Nat} (h : i + n ≤ bs.length) :
    (slice bs i n).length = n := by
  simp only [slice, List.length_take, List.length_drop]
  omega

/-- A slice that lies in the left part of a concatenation. -/
theorem slice_append_left {a b : Bytes} {i n : Nat} (h : i + n ≤ a.length) :
    slice (a ++ b) i n = slice a i n := by
  simp only [slice]
  rw [List.drop_append_of_le_length (by omega),
    List.take_append_of_le_length (by simp only [List.length_drop]; omega)]

/-- A slice that starts in the right part of a concatenation. -/
theorem slice_append_right {a b : Bytes} {i n : Nat} (h : a.length ≤ i) :
    slice (a ++ b) i n = slice b (i - a.length) n := by
  simp only [slice]
  rw [List.drop_append, List.drop_eq_nil_of_le h, List.nil_append]

/-- The slice of a concatenation that is exactly its middle part. -/
theorem slice_middle {a b c : Bytes} {i n : Nat} (hi : i = a.length) (hn : n = b.length) :
    slice (a ++ (b ++ c)) i n = b := by
  simp [slice, hi, hn]

/-! ## Copying into a byte string -/

/-- `bs` with the bytes from `i` on replaced by `new`. -/
def overwrite (bs : Bytes) (i : Nat) (new : Bytes) : Bytes :=
  bs.take i ++ new ++ bs.drop (i + new.length)

/-- Writing inside of bytes keeps their number. -/
theorem length_overwrite {s b : Bytes} {i : Nat} (h : i + b.length ≤ s.length) :
    (overwrite s i b).length = s.length := by
  simp only [overwrite, List.length_append, List.length_take, List.length_drop]
  omega

/-- Copying adjacent ranges one after the other copies their concatenation. -/
theorem overwrite_overwrite {s a b : Bytes} {i : Nat} (h : i + a.length ≤ s.length) :
    overwrite (overwrite s i a) (i + a.length) b = overwrite s i (a ++ b) := by
  have hlen : (s.take i ++ a).length = i + a.length := by
    simp only [List.length_append, List.length_take]; omega
  simp only [overwrite]
  rw [List.take_append_of_le_length (by omega), List.take_of_length_le (by omega),
    List.drop_append, List.drop_eq_nil_of_le (by omega), List.nil_append, hlen, List.drop_drop]
  simp only [List.length_append, List.append_assoc]
  congr 4
  omega

/-- Copying to the front leaves the bytes behind the copy in place. -/
theorem overwrite_zero (bs new : Bytes) : overwrite bs 0 new = new ++ bs.drop new.length := by
  simp [overwrite]

/-- What lies at or behind the end of a copy is unchanged. -/
theorem drop_overwrite_of_le {bs new : Bytes} {i j : Nat} (hi : i + new.length ≤ bs.length)
    (h : i + new.length ≤ j) : (overwrite bs i new).drop j = bs.drop j := by
  have hlen : (bs.take i ++ new).length = i + new.length := by
    simp only [List.length_append, List.length_take]; omega
  rw [overwrite, List.drop_append, List.drop_eq_nil_of_le (by omega), List.nil_append, hlen,
    List.drop_drop]
  congr 1
  omega

/-- From the start of a copy on, the bytes are the copy and then the old bytes. -/
theorem drop_overwrite_self {bs new : Bytes} {i : Nat} (h : i ≤ bs.length) :
    (overwrite bs i new).drop i = new ++ bs.drop (i + new.length) := by
  rw [overwrite, List.append_assoc, List.drop_append,
    List.drop_eq_nil_of_le (by simp only [List.length_take]; omega), List.nil_append]
  simp [List.length_take, Nat.min_eq_left h]

/-- A copy reads back. -/
theorem slice_overwrite_self {bs new : Bytes} {i n : Nat} (h : i + new.length ≤ bs.length)
    (hn : n = new.length) : slice (overwrite bs i new) i n = new := by
  rw [slice, drop_overwrite_self (by omega), hn, List.take_left']
  rfl

/-- What lies in front of a copy or behind it reads as before. -/
theorem slice_overwrite_of_disjoint {bs new : Bytes} {i j n : Nat}
    (hj : j + new.length ≤ bs.length) (h : i + n ≤ j ∨ j + new.length ≤ i) :
    slice (overwrite bs j new) i n = slice bs i n := by
  rcases h with h | h
  · have htake : slice (bs.take j) i n = slice bs i n := by
      rw [slice, slice, List.drop_take, List.take_take, Nat.min_eq_left (by omega)]
    rw [overwrite, List.append_assoc, slice_append_left, htake]
    rw [List.length_take]
    omega
  · rw [slice, drop_overwrite_of_le hj h, slice]

end ByteString
