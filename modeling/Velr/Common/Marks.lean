import Velr.Common.Bitmaps

/-!
# Marks in bytes

A set of numbers as a list of bytes, eight to a byte. Setting the bit of a number adds that number
(`bit_mark`), and one more number is counted where it was not in the set (`ones_bit_mark`).
-/

namespace Marks

/-- Whether a number is in a set. -/
def bit (bytes : List (BitVec 8)) (i : Nat) : Bool := (bytes[i / 8]?.getD 0).getLsbD (i % 8)

/-- The mask of a number in its byte. -/
def mask (i : Nat) : BitVec 8 := 1 <<< (i % 8)

/-- `bytes[i / 8] |= mask` -/
def mark (bytes : List (BitVec 8)) (i : Nat) : List (BitVec 8) :=
  bytes.modify (i / 8) (· ||| mask i)

variable {bytes : List (BitVec 8)} {i j n : Nat}

@[simp] theorem length_mark : (mark bytes i).length = bytes.length := List.length_modify _ _ _

/-- A mask has the bit of its page. -/
theorem getLsbD_mask (i k : Nat) : (mask i).getLsbD k = decide (k = i % 8) := by
  have hmask : mask i = BitVec.twoPow 8 (i % 8) := rfl
  rw [hmask, BitVec.getLsbD_twoPow, decide_eq_true (show i % 8 < 8 by omega), Bool.true_and]
  exact decide_eq_decide.mpr eq_comm

/-- The test of a mask, as sources write it. -/
theorem and_mask_eq_zero (byte : BitVec 8) (i : Nat) :
    byte &&& mask i = 0 ↔ byte.getLsbD (i % 8) = false := by
  have hmask : mask i = BitVec.twoPow 8 (i % 8) := rfl
  rw [hmask, BitVec.and_twoPow]
  cases byte.getLsbD (i % 8) with
  | false => simp
  | true =>
      simp only [if_true, Bool.true_eq_false, iff_false]
      intro hzero
      have hbit := congrArg (·.getLsbD (i % 8)) hzero
      simp only [BitVec.getLsbD_twoPow] at hbit
      rw [decide_eq_true (show i % 8 < 8 by omega)] at hbit
      simp at hbit

/-- Zeros have no bit set. -/
theorem bit_replicate (n i : Nat) : bit (List.replicate n 0) i = false := by
  rw [bit, List.getElem?_replicate]
  split <;> simp

/-- Marking a number adds it to the set. -/
theorem bit_mark (h : i / 8 < bytes.length) (j : Nat) :
    bit (mark bytes i) j = (decide (j = i) || bit bytes j) := by
  by_cases hbyte : i / 8 = j / 8
  · have hlt : j / 8 < bytes.length := hbyte ▸ h
    have hsame : j = i ↔ j % 8 = i % 8 := by omega
    simp only [bit, mark, List.getElem?_modify, hbyte, if_true]
    rw [List.getElem?_eq_getElem hlt, Option.map_eq_map, Option.map_some, Option.getD_some,
      Option.getD_some, BitVec.getLsbD_or, getLsbD_mask, Bool.or_comm, decide_eq_decide.mpr hsame]
  · have hother : j ≠ i := fun heq => hbyte (by rw [heq])
    simp only [bit, mark, List.getElem?_modify, hbyte, if_false]
    rw [Option.map_eq_map, Option.map_id', decide_eq_false hother, Bool.false_or]

/-- A number that was not in the set is one more. -/
theorem ones_bit_mark (h : (i + 1) / 8 < bytes.length) (hfree : bit bytes (i + 1) = false)
    (hi : i < n) :
    Bitmaps.ones n (fun j => bit (mark bytes (i + 1)) (j + 1)) =
      Bitmaps.ones n (fun j => bit bytes (j + 1)) + 1 := by
  have hinsert := Bitmaps.ones_insert (p := fun j => bit bytes (j + 1)) hfree hi
  rw [← hinsert]
  refine Bitmaps.ones_congr fun j _ => ?_
  rw [bit_mark h, decide_eq_decide.mpr Nat.succ_inj]

end Marks
