import Mathlib.Algebra.Order.Ring.Nat
import Mathlib.Data.List.DropRight

/-!
# Whitespace

`char::is_whitespace` and the trimming of text.
-/

namespace Whitespace

/-- `char::is_whitespace`: the characters of the Unicode property `White_Space`. -/
def isWhitespace (c : Char) : Bool :=
  let n := c.toNat
  (9 ≤ n && n ≤ 13) || n == 0x20 || n == 0x85 || n == 0xA0 || n == 0x1680 ||
    (0x2000 ≤ n && n ≤ 0x200A) || n == 0x2028 || n == 0x2029 || n == 0x202F || n == 0x205F ||
    n == 0x3000

/-- `str::trim_start` -/
def trimStart (text : List Char) : List Char := text.dropWhile isWhitespace

/-- `str::trim_end` -/
def trimEnd (text : List Char) : List Char := text.rdropWhile isWhitespace

/-- `str::trim` -/
def trim (text : List Char) : List Char := trimEnd (trimStart text)

variable {text ws : List Char}

/-- Whitespace at the end is trimmed. -/
theorem trimEnd_append (h : ∀ c ∈ ws, isWhitespace c = true) (text : List Char) :
    trimEnd (text ++ ws) = trimEnd text := by
  have hreverse : ∀ c ∈ ws.reverse, isWhitespace c = true := fun c hc =>
    h c (List.mem_reverse.mp hc)
  rw [trimEnd, trimEnd, List.rdropWhile, List.rdropWhile, List.reverse_append,
    List.dropWhile_append_of_pos hreverse]

/-- Whitespace at the start is trimmed. -/
theorem trimStart_append (h : ∀ c ∈ ws, isWhitespace c = true) (text : List Char) :
    trimStart (ws ++ text) = trimStart text :=
  List.dropWhile_append_of_pos h

/-- Whitespace in front of a text does not change what `trim` leaves. -/
theorem trim_append_left (h : ∀ c ∈ ws, isWhitespace c = true) (text : List Char) :
    trim (ws ++ text) = trim text := by
  rw [trim, trim, trimStart_append h]

/-- Neither does whitespace behind it. -/
theorem trim_append_right (h : ∀ c ∈ ws, isWhitespace c = true) (text : List Char) :
    trim (text ++ ws) = trim text := by
  rw [trim, trim, trimStart, trimStart, List.dropWhile_append]
  split
  · rename_i hblank
    rw [List.isEmpty_iff.mp hblank, List.dropWhile_eq_nil_iff.mpr h]
  · exact trimEnd_append h _

/-- What `trim_start` takes away is whitespace. -/
theorem eq_trimStart (text : List Char) :
    ∃ ws, (∀ c ∈ ws, isWhitespace c = true) ∧ text = ws ++ trimStart text :=
  ⟨text.takeWhile isWhitespace, fun _ => List.mem_takeWhile_imp,
    List.takeWhile_append_dropWhile.symm⟩

/-- What `trim_end` takes away is whitespace. -/
theorem eq_trimEnd (text : List Char) :
    ∃ ws, (∀ c ∈ ws, isWhitespace c = true) ∧ text = trimEnd text ++ ws :=
  ⟨text.rtakeWhile isWhitespace, fun _ => List.mem_rtakeWhile_imp,
    List.rdropWhile_append_rtakeWhile.symm⟩

end Whitespace
