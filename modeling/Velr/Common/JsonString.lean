import Mathlib.Algebra.Order.Ring.Nat
import Mathlib.Data.List.Basic
import Mathlib.Tactic.Common

/-!
# JSON string literals

The string literals of JSON and the text each stands for: characters from U+0020 on but for the
quote and the backslash, the two-character escapes, and `\u` with four hex digits for a UTF-16 code
unit, where two units make up a character beyond U+FFFF.
-/

namespace JsonString

/-- A hex digit of either case. -/
def hexValue (c : Char) : Option Nat :=
  if '0' ≤ c ∧ c ≤ '9' then some (c.toNat - 48)
  else if 'A' ≤ c ∧ c ≤ 'F' then some (c.toNat - 55)
  else if 'a' ≤ c ∧ c ≤ 'f' then some (c.toNat - 87)
  else none

/-- Four hex digits. -/
def hexUnit : List Char → Option (Nat × List Char)
  | a :: b :: c :: d :: rest => do
      let a ← hexValue a
      let b ← hexValue b
      let c ← hexValue c
      let d ← hexValue d
      some (a * 0x1000 + b * 0x100 + c * 0x10 + d, rest)
  | _ => none

/-- A character behind `\u`: one code unit, or two surrogates. -/
def unicodeEscape (text : List Char) : Option (Char × List Char) := do
  let (unit, rest) ← hexUnit text
  if 0xD800 ≤ unit ∧ unit < 0xDC00 then
    match rest with
    | '\\' :: 'u' :: rest => do
        let (low, rest) ← hexUnit rest
        if 0xDC00 ≤ low ∧ low < 0xE000 then
          some (Char.ofNat (0x10000 + (unit - 0xD800) * 0x400 + (low - 0xDC00)), rest)
        else none
    | _ => none
  else if 0xDC00 ≤ unit ∧ unit < 0xE000 then none
  else some (Char.ofNat unit, rest)

/-- The first character of what is between the quotes. -/
def char : List Char → Option (Char × List Char)
  | [] => none
  | '"' :: _ => none
  | '\\' :: '"' :: rest => some ('"', rest)
  | '\\' :: '\\' :: rest => some ('\\', rest)
  | '\\' :: '/' :: rest => some ('/', rest)
  | '\\' :: 'b' :: rest => some ('\x08', rest)
  | '\\' :: 'f' :: rest => some ('\x0c', rest)
  | '\\' :: 'n' :: rest => some ('\n', rest)
  | '\\' :: 'r' :: rest => some ('\r', rest)
  | '\\' :: 't' :: rest => some ('\t', rest)
  | '\\' :: 'u' :: rest => unicodeEscape rest
  | '\\' :: _ => none
  | c :: rest => if c.toNat < 0x20 then none else some (c, rest)

variable {text rest : List Char} {c : Char}

theorem hexUnit_lt {unit : Nat} (h : hexUnit text = some (unit, rest)) :
    rest.length < text.length := by
  unfold hexUnit at h
  split at h
  · obtain ⟨_, -, h⟩ := Option.bind_eq_some_iff.mp h
    obtain ⟨_, -, h⟩ := Option.bind_eq_some_iff.mp h
    obtain ⟨_, -, h⟩ := Option.bind_eq_some_iff.mp h
    obtain ⟨_, -, h⟩ := Option.bind_eq_some_iff.mp h
    cases h
    simp only [List.length_cons]
    omega
  · cases h

/-- An escape takes some of the text. -/
theorem unicodeEscape_lt (h : unicodeEscape text = some (c, rest)) :
    rest.length < text.length := by
  unfold unicodeEscape at h
  obtain ⟨⟨unit, back⟩, hunit, h⟩ := Option.bind_eq_some_iff.mp h
  have hlt := hexUnit_lt hunit
  dsimp only at h
  split at h
  · split at h
    · obtain ⟨⟨low, back'⟩, hlow, h⟩ := Option.bind_eq_some_iff.mp h
      have hlt' := hexUnit_lt hlow
      simp only [List.length_cons] at hlt
      dsimp only at h
      split at h
      · obtain rfl := (Prod.mk.inj (Option.some.inj h)).2
        omega
      · cases h
    · cases h
  · split at h
    · cases h
    · obtain rfl := (Prod.mk.inj (Option.some.inj h)).2
      exact hlt

/-- So does every character of a literal. -/
theorem char_lt (h : char text = some (c, rest)) : rest.length < text.length := by
  have htwo (a b : Char) (back : List Char) : back.length < (a :: b :: back).length :=
    Nat.lt_succ_of_lt (Nat.lt_succ_self _)
  unfold char at h
  split at h
  case h_11 => exact Nat.lt_succ_of_lt (Nat.lt_succ_of_lt (unicodeEscape_lt h))
  case h_13 =>
    split at h
    · cases h
    · obtain rfl := (Prod.mk.inj (Option.some.inj h)).2
      exact Nat.lt_succ_self _
  case h_1 | h_2 | h_12 => cases h
  all_goals
    cases h
    exact htwo _ _ _

/-- What stands in front of the closing quote, with which the literal ends. -/
def body (text : List Char) : Option (List Char) :=
  if text = ['"'] then some []
  else
    match _hchar : char text with
    | none => none
    | some (c, rest) => (body rest).map (c :: ·)
termination_by text.length
decreasing_by exact char_lt _hchar

/-- The text of a literal, or none where it is not one. -/
def decode : List Char → Option (List Char)
  | '"' :: text => body text
  | _ => none

/-- An upper-case hex digit. -/
def hexDigit (n : Nat) : Char := Char.ofNat (if n < 10 then 48 + n else 55 + n)

/-- Four upper-case hex digits. -/
def hex4 (n : Nat) : List Char :=
  [hexDigit (n / 0x1000 % 0x10), hexDigit (n / 0x100 % 0x10), hexDigit (n / 0x10 % 0x10),
    hexDigit (n % 0x10)]

/-- A hex digit is read back. -/
theorem hexValue_hexDigit {n : Nat} (h : n < 16) : hexValue (hexDigit n) = some n := by
  revert n
  decide

/-- So are the four digits of a code unit. -/
theorem hexUnit_hex4 {n : Nat} (h : n < 0x10000) (rest : List Char) :
    hexUnit (hex4 n ++ rest) = some (n, rest) := by
  have hvalue (k : Nat) : hexValue (hexDigit (k % 0x10)) = some (k % 0x10) :=
    hexValue_hexDigit (Nat.mod_lt k (by decide))
  simp only [hex4, List.cons_append, List.nil_append, hexUnit, hvalue, Option.bind_eq_bind,
    Option.bind_some, Option.some.injEq, Prod.mk.injEq, and_true]
  omega

/-- A code unit below the surrogates. -/
theorem unicodeEscape_hex4 {n : Nat} (h : n < 0xD800) (rest : List Char) :
    unicodeEscape (hex4 n ++ rest) = some (Char.ofNat n, rest) := by
  rw [unicodeEscape, hexUnit_hex4 (by omega)]
  simp only [Option.bind_eq_bind, Option.bind_some]
  rw [if_neg (by omega), if_neg (by omega)]

/-- A character that needs no escape. -/
theorem char_plain {c : Char} (hquote : c ≠ '"') (hback : c ≠ '\\') (hc : 0x20 ≤ c.toNat)
    (rest : List Char) : char (c :: rest) = some (c, rest) := by
  unfold char
  split <;> simp_all

/-- A character in front of more of a literal. -/
theorem body_cons (hchar : char text = some (c, rest)) :
    body text = (body rest).map (c :: ·) := by
  have hopen : text ≠ ['"'] := by
    rintro rfl
    cases hchar
  rw [body, if_neg hopen]
  split
  · rename_i hnone
    rw [hchar] at hnone
    cases hnone
  · rename_i hsome
    rw [hchar] at hsome
    cases hsome
    rfl

end JsonString
