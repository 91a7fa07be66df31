import Mathlib.Algebra.Order.Ring.Nat
import Mathlib.Data.List.Basic
import Mathlib.Tactic.Common

/-!
# Text by byte offsets

A string is sliced at offsets of its UTF-8 bytes, which must lie on the boundaries of its
characters, and a scanner is a loop over such an offset (`scan`). A position is known by the text
behind it (`At`): where a loop stands at one, it slices at a boundary.
-/

namespace StrSlice

/-- `str::len` -/
def len (text : List Char) : Nat := (text.map Char.utf8Size).sum

/-- `text[index..]`, which panics off a boundary. -/
def sliceFrom : List Char → Nat → Option (List Char)
  | text, 0 => some text
  | [], _ + 1 => none
  | c :: text, n + 1 =>
      if c.utf8Size ≤ n + 1 then sliceFrom text (n + 1 - c.utf8Size) else none

/-- `text[..index]` -/
def sliceTo (text : List Char) (index : Nat) : Option (List Char) :=
  (sliceFrom text index).map fun rest => text.take (text.length - rest.length)

/-- `text[start..stop]` -/
def slice (text : List Char) (start stop : Nat) : Option (List Char) :=
  if stop < start then none else (sliceFrom text start).bind fun rest => sliceTo rest (stop - start)

/-- `str::find`: the offset of the first occurrence. -/
def find (pattern : List Char) : List Char → Option Nat
  | [] => if pattern = [] then some 0 else none
  | c :: text =>
      if pattern.isPrefixOf (c :: text) then some 0
      else (find pattern text).map (c.utf8Size + ·)

@[simp] theorem len_nil : len [] = 0 := rfl

@[simp] theorem len_cons (c : Char) (text : List Char) : len (c :: text) = c.utf8Size + len text :=
  rfl

@[simp] theorem len_append (front back : List Char) :
    len (front ++ back) = len front + len back := by
  simp [len]

theorem len_pos {text : List Char} (h : text ≠ []) : 0 < len text := by
  cases text with
  | nil => exact absurd rfl h
  | cons c text => exact Nat.add_pos_left c.utf8Size_pos _

theorem sliceFrom_zero (text : List Char) : sliceFrom text 0 = some text := by
  cases text <;> rfl

/-- The slice from behind a front is the rest. -/
theorem sliceFrom_append (front rest : List Char) :
    sliceFrom (front ++ rest) (len front) = some rest := by
  induction front with
  | nil => exact sliceFrom_zero rest
  | cons c front ih =>
      have hpos := c.utf8Size_pos
      obtain ⟨n, hn⟩ : ∃ n, len (c :: front) = n + 1 :=
        ⟨len (c :: front) - 1, by rw [len_cons]; omega⟩
      have hless : c.utf8Size ≤ n + 1 := by rw [← hn, len_cons]; omega
      have hrest : n + 1 - c.utf8Size = len front := by rw [← hn, len_cons]; omega
      rw [hn, List.cons_append, sliceFrom, if_pos hless, hrest, ih]

/-- The slice up to a front is the front. -/
theorem sliceTo_append (front rest : List Char) :
    sliceTo (front ++ rest) (len front) = some front := by
  rw [sliceTo, sliceFrom_append, Option.map_some, List.length_append, Nat.add_sub_cancel,
    List.take_left]

/-! ## Positions -/

/-- `rest` begins at an offset of the text. -/
def At (text : List Char) (index : Nat) (rest : List Char) : Prop :=
  ∃ front, text = front ++ rest ∧ index = len front

variable {text rest : List Char} {index : Nat}

/-- The whole text is at offset 0. -/
theorem at_zero (text : List Char) : At text 0 text := ⟨[], rfl, rfl⟩

/-- The slice from an offset is the text there. -/
theorem At.sliceFrom (h : At text index rest) : sliceFrom text index = some rest := by
  obtain ⟨front, rfl, rfl⟩ := h
  exact sliceFrom_append front rest

/-- A slice that exists is the text at its offset. -/
theorem at_of_sliceFrom (h : sliceFrom text index = some rest) : At text index rest := by
  induction text generalizing index with
  | nil =>
      cases index with
      | zero => cases h; exact at_zero []
      | succ n => cases h
  | cons c text ih =>
      cases index with
      | zero => cases h; exact at_zero (c :: text)
      | succ n =>
          rw [StrSlice.sliceFrom] at h
          split at h
          · rename_i hless
            obtain ⟨front, htext, hindex⟩ := ih h
            refine ⟨c :: front, congrArg (c :: ·) htext, ?_⟩
            rw [len_cons]
            omega
          · cases h

/-- Behind some more of the text. -/
theorem At.append {piece : List Char} (h : At text index (piece ++ rest)) :
    At text (index + len piece) rest := by
  obtain ⟨front, rfl, rfl⟩ := h
  exact ⟨front ++ piece, by rw [List.append_assoc], by rw [len_append]⟩

/-- Behind a character the rest of the text is at the next boundary. -/
theorem At.cons {c : Char} (h : At text index (c :: rest)) :
    At text (index + c.utf8Size) rest := by
  have happend := @At.append text rest index [c] h
  rwa [len_cons, len_nil, Nat.add_zero] at happend

/-- The slice over a piece is the piece. -/
theorem At.slice {piece : List Char} (h : At text index (piece ++ rest)) :
    slice text index (index + len piece) = some piece := by
  rw [StrSlice.slice, if_neg (by omega), h.sliceFrom, Option.bind_some, Nat.add_sub_cancel_left,
    sliceTo_append]

/-- An offset with a character is inside of the text. -/
theorem At.lt {c : Char} (h : At text index (c :: rest)) : index < len text := by
  obtain ⟨front, rfl, rfl⟩ := h
  have hpos := c.utf8Size_pos
  rw [len_append, len_cons]
  omega

/-- The offset with nothing behind it is the length of the text. -/
theorem At.eq_len (h : At text index []) : index = len text := by
  obtain ⟨front, rfl, rfl⟩ := h
  rw [List.append_nil]

/-! ## Loops -/

/-- What one round of a loop over an offset does. -/
inductive Round (σ : Type) where
  | next (index : Nat) (st : σ)
  | stop (index : Nat) (st : σ)

/-- `while index < text.len()`; `none` where a round panics or goes no further, so that the loop
would not end. -/
def scan {σ : Type} (round : Nat → σ → Option (Round σ)) (stop index : Nat) (st : σ) :
    Option (Nat × σ) :=
  if index < stop then
    match round index st with
    | none => none
    | some (.stop index st) => some (index, st)
    | some (.next next st) => if index < next then scan round stop next st else none
  else some (index, st)
termination_by stop - index

variable {σ : Type} {round : Nat → σ → Option (Round σ)} {stop : Nat} {st st' : σ}

/-- A loop at its end has nothing to do. -/
theorem scan_end : scan round stop stop st = some (stop, st) := by
  rw [scan, if_neg (Nat.lt_irrefl stop)]

/-- A round that stops ends the loop. -/
theorem scan_stop {last : Nat} (hlt : index < stop)
    (hround : round index st = some (.stop last st')) :
    scan round stop index st = some (last, st') := by
  rw [scan, if_pos hlt, hround]

/-- A round that moves on is followed by the next. -/
theorem scan_next {next : Nat} (hlt : index < stop)
    (hround : round index st = some (.next next st')) (hforward : index < next) :
    scan round stop index st = scan round stop next st' := by
  rw [scan, if_pos hlt, hround]
  exact if_pos hforward

end StrSlice
