import Mathlib.Data.List.Forall2
import Velr.Csv.FastPath

/-!
# Quoted fields

A record is written with its fields in quotes and the quotes in them doubled, or as they stand where
nothing in them asks for quotes. This module reads it back: `parseFields_record` when it is
complete, and `parseFields_partial` when it breaks off inside a field.
-/

namespace Velr.Csv

open ByteString Utf8

/-! ## Writing -/

/-- A text with its quotes doubled. -/
def double (quote : Char) : List Char → List Char
  | [] => []
  | c :: text =>
      if c = quote then quote :: quote :: double quote text else c :: double quote text

/-- A field in quotes. -/
def quoteField (quote : Char) (text : String) : List Char :=
  quote :: (double quote text.toList ++ [quote])

/-- A record without its terminator. -/
def writeRecord (delimiter quote : Char) : List String → List Char
  | [] => []
  | [text] => quoteField quote text
  | text :: cells => quoteField quote text ++ delimiter :: writeRecord delimiter quote cells

/-- A character that ends a physical line. -/
def isNewline (c : Char) : Prop := c = '\n' ∨ c = '\r'

/-- A cell in quotes, or as it stands. -/
def Cell.write (quote : Char) (cell : Cell) : List Char :=
  if cell.quoted then quoteField quote cell.text else cell.text.toList

/-- A record of cells without its terminator. -/
def writeCells (delimiter quote : Char) : List Cell → List Char
  | [] => []
  | [cell] => cell.write quote
  | cell :: cells => cell.write quote ++ delimiter :: writeCells delimiter quote cells

/-- A cell that stands without quotes has no character that asks for them. -/
def Cell.Writable (delimiter quote : Char) (cell : Cell) : Prop :=
  cell.quoted = false → ∀ c ∈ cell.text.toList, c ≠ delimiter ∧ c ≠ quote ∧ ¬ isNewline c

/-- Quoted cells are written with their quotes doubled. -/
theorem writeCells_quoted (delimiter quote : Char) (cells : List String) :
    writeCells delimiter quote (cells.map fun text => { text, quoted := true }) =
      writeRecord delimiter quote cells := by
  induction cells with
  | nil => rfl
  | cons cell cells ih =>
      cases cells with
      | nil => rfl
      | cons cell' cells =>
          rw [List.map_cons] at ih
          rw [List.map_cons, List.map_cons]
          exact congrArg (quoteField quote cell ++ delimiter :: ·) ih

variable {d : Dialect} {raw : Bytes} {stop textStart position span : Nat} {output : Bytes}
  {escaped : Bool}

/-! ## Slices -/

theorem between_eq (raw : Bytes) (start stop : Nat) :
    between raw start stop = (raw.drop start).take (stop - start) := List.drop_take

/-- A range is its front and its back. -/
theorem between_append {start middle : Nat} (h : start ≤ middle) (count : Nat) :
    between raw start (middle + count) =
      between raw start middle ++ between raw middle (middle + count) := by
  rw [between_eq, between_eq, between_eq, Nat.add_sub_cancel_left,
    show middle + count - start = (middle - start) + count by omega, List.take_add, List.drop_drop,
    Nat.add_sub_cancel' h]

/-- Behind a front of a range is the rest of it. -/
theorem between_drop {x y : Bytes} (h : between raw position stop = x ++ y) :
    between raw (position + x.length) stop = y := by
  rw [between, ← List.drop_drop]
  rw [between] at h
  rw [h, List.drop_left]

/-- A front of a range is in front. -/
theorem between_take {x y : Bytes} (h : between raw position stop = x ++ y) :
    between raw position (position + x.length) = x := by
  rw [between_eq] at h ⊢
  have hlen := congrArg List.length h
  rw [List.length_take, List.length_append] at hlen
  have htake := congrArg (List.take x.length) h
  rw [List.take_left, List.take_take, Nat.min_eq_left (by omega)] at htake
  rwa [Nat.add_sub_cancel_left]

/-- What stands in front of `stop` fits there. -/
theorem between_le {x y : Bytes} (hle : position ≤ stop)
    (h : between raw position stop = x ++ y) : position + x.length ≤ stop := by
  have hlen := congrArg List.length h
  rw [between_eq, List.length_take, List.length_append] at hlen
  omega

/-! ## The scan for a closing quote -/

/-- A range that begins with the bytes of a character starts with it. -/
theorem startsWith_append {c : Char} {rest : Bytes}
    (h : between raw position stop = encode c ++ rest) : startsWith c raw position stop = true := by
  rw [startsWith, h, List.isPrefixOf_iff_prefix]
  exact List.prefix_append _ _

/-- A character of one byte that is in front is found first. -/
theorem memchr_of_startsWith {c : Char} {b : UInt8} (hc : encode c = [b])
    (h : startsWith c raw position stop = true) :
    memchr b (between raw position stop) = some 0 := by
  rw [startsWith, hc, List.isPrefixOf_iff_prefix] at h
  obtain ⟨rest, hrest⟩ := h
  rw [← hrest, memchr]
  simp [List.findIdx?_cons]

/-- What the loop does at a byte that begins no quote. -/
theorem quotedLoop_scan (hlegacy : d.legacy = false) (hlt : position < stop)
    (hquote : startsWith d.quote raw position stop = false) :
    quotedLoop d raw stop textStart position span output escaped =
      match encode d.quote with
      | [b] =>
          match memchr b (between raw position stop) with
          | some offset => quotedLoop d raw stop textStart (position + offset) span output escaped
          | none => do
              fieldLength (output.length + stop - span) d.limit
              pure none
      | _ => quotedLoop d raw stop textStart (position + 1) span output escaped := by
  rw [quotedLoop]
  simp only [hlegacy, Bool.false_eq_true, false_and, if_false]
  rw [if_neg (by omega), dif_neg (by rw [hquote]; exact Bool.false_ne_true)]
  split
  · next b hb _ =>
      split
      · next hfind => simp only [hb, hfind]
      · next hfind => simp only [hb, hfind]
  · next hno =>
      split
      · next b hb => exact absurd rfl (hno b hb)
      · rfl

/-- A byte that begins no quote is passed over, alone or with all bytes up to the next quote. -/
theorem quotedLoop_skip (hlegacy : d.legacy = false) (hstop : stop ≤ raw.length)
    (hlt : position < stop) (hquote : startsWith d.quote raw position stop = false) :
    quotedLoop d raw stop textStart position span output escaped =
      quotedLoop d raw stop textStart (position + 1) span output escaped := by
  rw [quotedLoop_scan hlegacy hlt hquote]
  split
  · next b hb =>
      have hcons :
          between raw position stop = raw[position] :: between raw (position + 1) stop := by
        rw [between, List.drop_eq_getElem_cons (by rw [List.length_take]; omega),
          List.getElem_take]
        rfl
      have hne : (raw[position] == b) = false := by
        rw [startsWith, hb, hcons] at hquote
        simp only [List.isPrefixOf, Bool.and_true, beq_eq_false_iff_ne] at hquote
        exact beq_eq_false_iff_ne.mpr (Ne.symm hquote)
      have hmemchr : memchr b (between raw position stop) =
          (memchr b (between raw (position + 1) stop)).map (· + 1) := by
        rw [hcons, memchr, List.findIdx?_cons, hne]
        simp [memchr]
      have hclosed (h : memchr b (between raw (position + 1) stop) ≠ some 0) :
          startsWith d.quote raw (position + 1) stop = false := by
        by_contra hquote'
        rw [Bool.not_eq_false] at hquote'
        exact h (memchr_of_startsWith hb hquote')
      rw [hmemchr]
      cases hfind : memchr b (between raw (position + 1) stop) with
      | none =>
          simp only [Option.map_none]
          by_cases hend : stop ≤ position + 1
          · rw [quotedLoop, if_pos hend]
          · rw [quotedLoop_scan hlegacy (by omega) (hclosed (by rw [hfind]; simp)), hb]
            simp only [hfind]
      | some offset =>
          simp only [Option.map_some]
          cases offset with
          | zero => rfl
          | succ offset =>
              have hlt' : position + 1 < stop := by
                rw [memchr, List.findIdx?_eq_some_iff_getElem] at hfind
                have := hfind.1
                rw [between, List.length_drop, List.length_take] at this
                omega
              rw [quotedLoop_scan hlegacy hlt' (hclosed (by rw [hfind]; simp)), hb]
              simp only [hfind]
              rw [show position + (offset + 1 + 1) = position + 1 + (offset + 1) by omega]
  · rfl

/-- A character that is no quote is passed over. -/
theorem quotedLoop_char {c : Char} {rest : List Char} (hlegacy : d.legacy = false)
    (hstop : stop ≤ raw.length) (hle : position ≤ stop) (hc : c ≠ d.quote)
    (h : between raw position stop = encodeAll (c :: rest)) :
    quotedLoop d raw stop textStart position span output escaped =
      quotedLoop d raw stop textStart (position + (encode c).length) span output escaped := by
  have hfits := between_le hle h
  have hquote (i : Nat) (hi : i < (encode c).length) :
      startsWith d.quote raw (position + i) stop = false := by
    by_contra hstarts
    rw [Bool.not_eq_false, startsWith, List.isPrefixOf_iff_prefix,
      between, ← List.drop_drop] at hstarts
    obtain ⟨tail, htail⟩ := hstarts
    rw [between] at h
    rw [h] at htail
    obtain ⟨before, after, htext, hi'⟩ := exists_of_drop htail.symm
    cases before with
    | nil =>
        cases htext
        exact hc rfl
    | cons c' before =>
        cases htext
        rw [encodeAll_cons, List.length_append] at hi'
        omega
  have hskip (n : Nat) (hn : n ≤ (encode c).length) :
      quotedLoop d raw stop textStart position span output escaped =
        quotedLoop d raw stop textStart (position + n) span output escaped := by
    induction n with
    | zero => rfl
    | succ n ih =>
        rw [ih (by omega), quotedLoop_skip hlegacy hstop (by omega) (hquote n (by omega))]
        rfl
  exact hskip _ (Nat.le_refl _)

/-- What the loop holds when it has passed over `done`. -/
structure Scanned (raw : Bytes) (textStart position span : Nat) (output : Bytes) (escaped : Bool)
    (done : Bytes) : Prop where
  le : span ≤ position
  done : output ++ between raw span position = done
  plain : escaped = false → output = [] ∧ span = textStart

/-- The length that is checked at a quote. -/
theorem Scanned.length {done : Bytes} (h : Scanned raw textStart position span output escaped done)
    (hposition : position ≤ raw.length) :
    (if escaped = true then
        (if escaped = true then output ++ between raw span position else output).length
      else position - textStart) = done.length := by
  cases escaped with
  | true => simp only [if_true, h.done]
  | false =>
      obtain ⟨rfl, rfl⟩ := h.plain rfl
      rw [← h.done, List.nil_append, between_eq, List.length_take, List.length_drop]
      have := h.le
      simp only [Bool.false_eq_true, if_false]
      omega

/-- What a doubled quote has in front of it. -/
theorem Scanned.escape {done : Bytes}
    (h : Scanned raw textStart position span output escaped done) :
    (if escaped = true then
        (if escaped = true then output ++ between raw span position else output)
      else
        (if escaped = true then output ++ between raw span position else output) ++
          between raw textStart position) = done := by
  cases escaped with
  | true => simp only [if_true, h.done]
  | false =>
      obtain ⟨rfl, rfl⟩ := h.plain rfl
      simpa using h.done

theorem fieldLength_ok {length limit : Nat} (h : length ≤ limit) :
    fieldLength length limit = .ok () := if_neg (Nat.not_lt.mpr h)

/-- A doubled quote is one quote of the text. -/
theorem quotedLoop_double {done : Bytes} {rest : List Char} (hle : position ≤ stop)
    (hstop : stop ≤ raw.length) (h : Scanned raw textStart position span output escaped done)
    (hlimit : done.length ≤ d.limit)
    (htext : between raw position stop = encodeAll (d.quote :: d.quote :: rest)) :
    quotedLoop d raw stop textStart position span output escaped =
      quotedLoop d raw stop textStart (position + (encode d.quote).length + (encode d.quote).length)
        (position + (encode d.quote).length + (encode d.quote).length) (done ++ encode d.quote)
        true := by
  have hfits := between_le hle htext
  have hpos := length_encode_pos d.quote
  have hquote := startsWith_append htext
  have hquote' := startsWith_append (between_drop htext)
  rw [quotedLoop, if_neg (by omega), dif_pos hquote]
  simp only [h.length (by omega), fieldLength_ok hlimit]
  rw [if_pos hquote', h.escape]

/-- The text of a field, up to where it is cut. -/
theorem quotedLoop_text (hlegacy : d.legacy = false) (hstop : stop ≤ raw.length)
    (text rest : List Char) {done : Bytes} (hle : position ≤ stop)
    (h : Scanned raw textStart position span output escaped done)
    (hlimit : (done ++ encodeAll text).length ≤ d.limit)
    (htext : between raw position stop = encodeAll (double d.quote text ++ rest)) :
    ∃ position' span' output' escaped', position' ≤ stop ∧
      position' = position + (encodeAll (double d.quote text)).length ∧
      Scanned raw textStart position' span' output' escaped' (done ++ encodeAll text) ∧
      between raw position' stop = encodeAll rest ∧
      quotedLoop d raw stop textStart position span output escaped =
        quotedLoop d raw stop textStart position' span' output' escaped' := by
  induction text generalizing position span output escaped done with
  | nil =>
      exact ⟨position, span, output, escaped, hle, rfl, by simpa using h, htext, rfl⟩
  | cons c text ih =>
      rw [List.length_append, encodeAll_cons, List.length_append] at hlimit
      have happend : done ++ encodeAll (c :: text) = done ++ encode c ++ encodeAll text := by
        rw [encodeAll_cons, List.append_assoc]
      rw [happend]
      by_cases hc : c = d.quote
      · subst hc
        rw [double, if_pos rfl] at htext ⊢
        have hle' := between_le hle htext
        have hrest := between_drop htext
        have hle'' := between_le hle' hrest
        have hscanned : Scanned raw textStart
            (position + (encode d.quote).length + (encode d.quote).length)
            (position + (encode d.quote).length + (encode d.quote).length)
            (done ++ encode d.quote) true (done ++ encode d.quote) :=
          ⟨Nat.le_refl _, by simp [between_eq], nofun⟩
        obtain ⟨position', span', output', escaped', hpos, heq, hscanned', hrest', hloop⟩ :=
          ih hle'' hscanned (by simp only [List.length_append]; omega) (between_drop hrest)
        refine ⟨position', span', output', escaped', hpos, ?_, hscanned', hrest', ?_⟩
        · rw [heq]
          simp only [encodeAll_cons, List.length_append]
          omega
        · rw [quotedLoop_double hle hstop h (by omega) htext, hloop]
      · rw [double, if_neg hc] at htext ⊢
        have hle' := between_le hle htext
        have hscanned : Scanned raw textStart (position + (encode c).length) span output escaped
            (done ++ encode c) := by
          refine ⟨Nat.le_add_right_of_le h.le, ?_, h.plain⟩
          rw [between_append h.le, between_take htext, ← List.append_assoc, h.done]
        obtain ⟨position', span', output', escaped', hpos, heq, hscanned', hrest', hloop⟩ :=
          ih hle' hscanned (by simp only [List.length_append]; omega) (between_drop htext)
        refine ⟨position', span', output', escaped', hpos, ?_, hscanned', hrest', ?_⟩
        · rw [heq]
          simp only [encodeAll_cons, List.length_append]
          omega
        · rw [quotedLoop_char hlegacy hstop hle hc htext, hloop]

/-! ## Fields -/

/-- The field reads as a text. -/
def FieldText.Spells (raw : Bytes) (text : List Char) : FieldText → Prop
  | .span start stop => between raw start stop = encodeAll text
  | .decoded string => string = String.ofList text

/-- At the start of a field nothing is scanned. -/
theorem Scanned.start (raw : Bytes) (position : Nat) :
    Scanned raw position position position [] false [] :=
  ⟨Nat.le_refl _, by simp [between_eq], fun _ => ⟨rfl, rfl⟩⟩

/-- A range that begins with another character does not start with it. -/
theorem startsWith_eq_false {c : Char} {rest : List Char}
    (h : between raw position stop = encodeAll rest) (hc : rest.head? ≠ some c) :
    startsWith c raw position stop = false := by
  by_contra hstarts
  rw [Bool.not_eq_false, startsWith, List.isPrefixOf_iff_prefix, h] at hstarts
  obtain ⟨tail, htail⟩ := hstarts
  cases rest with
  | nil => exact encode_ne_nil c (List.append_eq_nil_iff.mp htail).1
  | cons c' rest =>
      rw [encodeAll_cons] at htail
      exact hc (congrArg some (encode_append_inj htail).symm)

/-- A closing quote in front of a delimiter or the end. -/
theorem quotedLoop_end {done : Bytes} {rest : List Char} (hle : position ≤ stop)
    (hstop : stop ≤ raw.length) (h : Scanned raw textStart position span output escaped done)
    (hlimit : done.length ≤ d.limit)
    (htext : between raw position stop = encodeAll (d.quote :: rest))
    (hquote : rest.head? ≠ some d.quote)
    (hrest : rest = [] ∨ rest.head? = some d.delimiter) :
    quotedLoop d raw stop textStart position span output escaped =
      .ok (some (position + (encode d.quote).length,
        if escaped then output ++ between raw span position else output, escaped)) := by
  rw [encodeAll_cons] at htext
  have hfits := between_le hle htext
  have hpos := length_encode_pos d.quote
  have hbehind := between_drop htext
  have hclosed : ¬ (position + (encode d.quote).length < stop ∧
      (!startsWith d.delimiter raw (position + (encode d.quote).length) stop) = true) := by
    rintro ⟨hlt, hdelimiter⟩
    cases rest with
    | nil =>
        have hlen := congrArg List.length hbehind
        simp only [between_eq, List.length_take, List.length_drop, encodeAll_nil,
          List.length_nil] at hlen
        omega
    | cons c rest =>
        obtain rfl : c = d.delimiter := by simpa using hrest
        rw [startsWith_append hbehind] at hdelimiter
        cases hdelimiter
  rw [quotedLoop, if_neg (by omega), dif_pos (startsWith_append htext)]
  simp only [h.length (by omega), fieldLength_ok hlimit]
  rw [if_neg (by rw [startsWith_eq_false hbehind hquote]; exact Bool.false_ne_true),
    if_neg hclosed]

/-- A quoted field of the record. -/
theorem parseField_quoted (hlegacy : d.legacy = false) (htrim : d.trim = false)
    (hstop : stop ≤ raw.length) (text rest : List Char) {fieldStart : Nat}
    (hle : fieldStart ≤ stop) (hlimit : (encodeAll text).length ≤ d.limit)
    (htext : between raw fieldStart stop =
      encodeAll (d.quote :: (double d.quote text ++ d.quote :: rest)))
    (hquote : rest.head? ≠ some d.quote) (hrest : rest = [] ∨ rest.head? = some d.delimiter) :
    ∃ field next, parseField d raw stop fieldStart = .ok (some (field, next)) ∧
      field.quoted = true ∧ field.text.Spells raw text ∧ next ≤ stop ∧
      between raw next stop = encodeAll rest := by
  rw [encodeAll_cons] at htext
  have hopen := startsWith_append htext
  obtain ⟨position', span', output', escaped', hpos, heq, hscanned, hclose, hloop⟩ :=
    quotedLoop_text hlegacy hstop text (d.quote :: rest) (between_le hle htext)
      (Scanned.start raw _) (by simpa using hlimit) (between_drop htext)
  rw [List.nil_append] at hscanned
  have hend := quotedLoop_end hpos hstop hscanned hlimit hclose hquote hrest
  rw [encodeAll_cons] at hclose
  have hfits := between_le hpos hclose
  have hbehind := between_drop hclose
  rw [parseField]
  simp only [htrim, Bool.false_eq_true, if_false, if_pos hopen, hloop, hend]
  cases escaped' with
  | true =>
      simp only [if_true, hscanned.done, fromUtf8_encodeAll]
      exact ⟨_, _, rfl, rfl, rfl, hfits, hbehind⟩
  | false =>
      obtain ⟨rfl, rfl⟩ := hscanned.plain rfl
      refine ⟨_, _, rfl, rfl, ?_, hfits, hbehind⟩
      rw [Nat.add_sub_cancel]
      exact hscanned.done

/-- A quoted field that breaks off. -/
theorem parseField_open (hlegacy : d.legacy = false) (htrim : d.trim = false)
    (hstop : stop ≤ raw.length) (text : List Char) {fieldStart : Nat}
    (hle : fieldStart ≤ stop) (hlimit : (encodeAll text).length ≤ d.limit)
    (htext : between raw fieldStart stop = encodeAll (d.quote :: double d.quote text)) :
    parseField d raw stop fieldStart = .ok none := by
  rw [encodeAll_cons] at htext
  have hopen := startsWith_append htext
  obtain ⟨position', span', output', escaped', hpos, heq, hscanned, hrest, hloop⟩ :=
    quotedLoop_text hlegacy hstop text [] (between_le hle htext) (Scanned.start raw _)
      (by simpa using hlimit) (by rw [between_drop htext, List.append_nil])
  rw [List.nil_append] at hscanned
  have hend : stop ≤ position' := by
    have hlen := congrArg List.length hrest
    simp only [between_eq, List.length_take, List.length_drop, encodeAll_nil,
      List.length_nil] at hlen
    omega
  have hlength : output'.length + stop - span' ≤ d.limit := by
    have hdone := congrArg List.length hscanned.done
    rw [List.length_append, between_eq, List.length_take, List.length_drop] at hdone
    have := hscanned.le
    omega
  rw [parseField]
  simp only [htrim, Bool.false_eq_true, if_false, if_pos hopen, hloop]
  rw [quotedLoop, if_pos hend, fieldLength_ok hlength]
  rfl

/-- An unquoted field ends no later than a delimiter stands. -/
theorem unquotedEnd_le (d : Dialect) {fieldStart : Nat} (hle : fieldStart ≤ position)
    (h : startsWith d.delimiter raw position stop = true) :
    unquotedEnd d.delimiter raw stop fieldStart ≤ position := by
  unfold unquotedEnd
  split
  · next b hb =>
      have hbyte : (between raw fieldStart stop)[position - fieldStart]? = some b := by
        rw [startsWith, hb, List.isPrefixOf_iff_prefix] at h
        obtain ⟨rest, hrest⟩ := h
        rw [between, List.getElem?_drop, Nat.add_sub_cancel' hle]
        have hhead := congrArg (·[0]?) hrest
        simpa [between] using hhead.symm
      cases hfind : memchr b (between raw fieldStart stop) with
      | none =>
          have hnone := List.findIdx?_eq_none_iff.mp hfind b (List.mem_of_getElem? hbyte)
          simp at hnone
      | some offset =>
          rw [Option.getD_some]
          by_contra hlt
          obtain ⟨_, -, hbefore⟩ := List.findIdx?_eq_some_iff_getElem.mp hfind
          obtain ⟨hlength, hget⟩ := List.getElem?_eq_some_iff.mp hbyte
          exact hbefore (position - fieldStart) (by omega) (by simpa using hget)
  · fun_induction scanDelimiter d.delimiter raw stop fieldStart with
    | case1 fieldStart hno ih =>
        refine ih (Nat.lt_of_le_of_ne hle ?_)
        rintro rfl
        have hnot := hno.2
        rw [h] at hnot
        cases hnot
    | case2 fieldStart _ => exact hle

/-- The end of a text without the delimiter. -/
theorem unquotedEnd_text {text rest : List Char} {fieldStart : Nat} (hle : fieldStart ≤ stop)
    (hstop : stop ≤ raw.length) (hclean : ∀ c ∈ text, c ≠ d.delimiter)
    (htext : between raw fieldStart stop = encodeAll (text ++ rest))
    (hrest : rest = [] ∨ rest.head? = some d.delimiter) :
    unquotedEnd d.delimiter raw stop fieldStart = fieldStart + (encodeAll text).length := by
  obtain ⟨hend, hclose⟩ := unquotedEnd_close d raw hle
  have hge := unquotedEnd_ge d.delimiter raw stop fieldStart
  have hbehind : between raw (fieldStart + (encodeAll text).length) stop = encodeAll rest :=
    between_drop (by rw [htext, encodeAll_append])
  have hlength := between_le hle (htext.trans (encodeAll_append text rest))
  refine Nat.le_antisymm ?_ ?_
  · rcases hrest with rfl | hrest
    · have hlen := congrArg List.length hbehind
      simp only [between_eq, List.length_take, List.length_drop, encodeAll_nil,
        List.length_nil] at hlen
      omega
    · obtain ⟨rest, rfl⟩ : ∃ rest', rest = d.delimiter :: rest' := by
        cases rest with
        | nil => cases hrest
        | cons c rest => exact ⟨rest, by rw [Option.some.inj hrest]⟩
      exact unquotedEnd_le d (Nat.le_add_right _ _) (startsWith_append hbehind)
  · by_contra hlt
    have hstarts := hclose (by omega)
    rw [startsWith, List.isPrefixOf_iff_prefix] at hstarts
    obtain ⟨tail, htail⟩ := hstarts
    have hdrop : (encodeAll (text ++ rest)).drop
        (unquotedEnd d.delimiter raw stop fieldStart - fieldStart) =
          encode d.delimiter ++ tail := by
      rw [← htext, between, List.drop_drop, Nat.add_sub_cancel' hge, htail]
      rfl
    obtain ⟨before, after, hwhole, hoffset⟩ := exists_of_drop hdrop
    -- The delimiter would stand inside the text.
    have hshort : (encodeAll before).length < (encodeAll text).length := by omega
    rcases List.append_eq_append_iff.mp hwhole with ⟨more, rfl, -⟩ | ⟨more, rfl, hmore⟩
    · rw [encodeAll_append, List.length_append] at hshort
      omega
    · cases more with
      | nil => simp at hshort
      | cons c more =>
          rw [List.cons_append, List.cons.injEq] at hmore
          exact hclean c (by simp) hmore.1.symm

/-- A field of the record that stands without quotes. -/
theorem parseField_plain (htrim : d.trim = false) (hstop : stop ≤ raw.length)
    {text rest : List Char} {fieldStart : Nat} (hle : fieldStart ≤ stop)
    (hclean : ∀ c ∈ text, c ≠ d.delimiter ∧ c ≠ d.quote)
    (hlimit : (encodeAll text).length ≤ d.limit)
    (htext : between raw fieldStart stop = encodeAll (text ++ rest))
    (hquote : rest.head? ≠ some d.quote) (hrest : rest = [] ∨ rest.head? = some d.delimiter) :
    ∃ field next, parseField d raw stop fieldStart = .ok (some (field, next)) ∧
      field.quoted = false ∧ field.text.Spells raw text ∧ next ≤ stop ∧
      between raw next stop = encodeAll rest := by
  have hopen : startsWith d.quote raw fieldStart stop = false := by
    refine startsWith_eq_false htext ?_
    cases text with
    | nil => exact hquote
    | cons c text => exact fun h => (hclean c List.mem_cons_self).2 (Option.some.inj h)
  have hend := unquotedEnd_text hle hstop (fun c hc => (hclean c hc).1) htext hrest
  rw [encodeAll_append] at htext
  refine ⟨{ text := .span fieldStart (fieldStart + (encodeAll text).length), quoted := false },
    fieldStart + (encodeAll text).length, ?_, rfl, between_take htext, between_le hle htext,
    between_drop htext⟩
  rw [parseField]
  simp only [htrim, Bool.false_eq_true, if_false, hopen, hend, Nat.add_sub_cancel_left,
    fieldLength_ok hlimit]

/-! ## Records -/

/-- The field reads as a cell. -/
def Field.Reads (raw : Bytes) (field : Field) (cell : Cell) : Prop :=
  field.quoted = cell.quoted ∧ field.text.Spells raw cell.text.toList

/-- A cell that was written is read back. -/
theorem parseField_cell (hlegacy : d.legacy = false) (htrim : d.trim = false)
    (hstop : stop ≤ raw.length) {cell : Cell} (hcell : cell.Writable d.delimiter d.quote)
    {rest : List Char} (hle : position ≤ stop)
    (hlimit : (encodeAll cell.text.toList).length ≤ d.limit)
    (htext : between raw position stop = encodeAll (cell.write d.quote ++ rest))
    (hquote : rest.head? ≠ some d.quote) (hrest : rest = [] ∨ rest.head? = some d.delimiter) :
    ∃ field next, parseField d raw stop position = .ok (some (field, next)) ∧
      field.Reads raw cell ∧ next ≤ stop ∧ between raw next stop = encodeAll rest := by
  rw [Cell.write] at htext
  cases hquoted : cell.quoted with
  | true =>
      rw [hquoted, if_pos rfl, quoteField, List.cons_append, List.append_assoc,
        List.singleton_append] at htext
      obtain ⟨field, next, hfield, hmark, hspells, hnext, hbehind⟩ :=
        parseField_quoted hlegacy htrim hstop cell.text.toList rest hle hlimit htext hquote hrest
      exact ⟨field, next, hfield, ⟨hmark.trans hquoted.symm, hspells⟩, hnext, hbehind⟩
  | false =>
      rw [hquoted, if_neg Bool.false_ne_true] at htext
      have hclean : ∀ c ∈ cell.text.toList, c ≠ d.delimiter ∧ c ≠ d.quote := fun c hc =>
        ⟨(hcell hquoted c hc).1, (hcell hquoted c hc).2.1⟩
      obtain ⟨field, next, hfield, hmark, hspells, hnext, hbehind⟩ :=
        parseField_plain htrim hstop hle hclean hlimit htext hquote hrest
      exact ⟨field, next, hfield, ⟨hmark.trans hquoted.symm, hspells⟩, hnext, hbehind⟩

/-- What a record consists of: its first cell, and the others behind a delimiter. -/
theorem writeCells_cons (delimiter quote : Char) (cell : Cell) (cells : List Cell) :
    ∃ rest, writeCells delimiter quote (cell :: cells) = cell.write quote ++ rest ∧
      (cells = [] ∧ rest = [] ∨
        cells ≠ [] ∧ rest = delimiter :: writeCells delimiter quote cells) := by
  cases cells with
  | nil => exact ⟨[], (List.append_nil _).symm, .inl ⟨rfl, rfl⟩⟩
  | cons cell' cells => exact ⟨_, rfl, .inr ⟨nofun, rfl⟩⟩

/-- A written record reads as its cells. -/
theorem parseFields_record (hlegacy : d.legacy = false) (htrim : d.trim = false)
    (hstop : stop ≤ raw.length) (hne : d.delimiter ≠ d.quote) {cells : List Cell}
    (hcells : cells ≠ []) (hwritable : ∀ cell ∈ cells, cell.Writable d.delimiter d.quote)
    (hlimit : ∀ cell ∈ cells, (encodeAll cell.text.toList).length ≤ d.limit)
    (hle : position ≤ stop)
    (htext : between raw position stop = encodeAll (writeCells d.delimiter d.quote cells)) :
    ∃ fields, parseFields d raw stop position = .ok (.complete fields) ∧
      List.Forall₂ (Field.Reads raw) fields cells := by
  induction cells generalizing position with
  | nil => exact absurd rfl hcells
  | cons cell cells ih =>
      obtain ⟨rest, hrecord, hrest⟩ := writeCells_cons d.delimiter d.quote cell cells
      rw [hrecord] at htext
      have hhead : rest.head? ≠ some d.quote ∧ (rest = [] ∨ rest.head? = some d.delimiter) := by
        rcases hrest with ⟨_, rfl⟩ | ⟨_, rfl⟩
        · exact ⟨nofun, .inl rfl⟩
        · exact ⟨by simpa using hne, .inr rfl⟩
      obtain ⟨field, next, hfield, hreads, hnext, hbehind⟩ :=
        parseField_cell hlegacy htrim hstop (hwritable cell List.mem_cons_self) hle
          (hlimit cell List.mem_cons_self) htext hhead.1 hhead.2
      rw [parseFields_eq, hfield]
      simp only
      rcases hrest with ⟨rfl, rfl⟩ | ⟨hmore, rfl⟩
      · have hend : next = stop := by
          have hlen := congrArg List.length hbehind
          simp only [between_eq, List.length_take, List.length_drop, encodeAll_nil,
            List.length_nil] at hlen
          omega
        rw [if_pos hend]
        exact ⟨[field], rfl, .cons hreads .nil⟩
      · rw [encodeAll_cons] at hbehind
        have hfits := between_le hnext hbehind
        have hpos := length_encode_pos d.delimiter
        obtain ⟨fields, hfields, hall⟩ := ih hmore
          (fun cell hcell => hwritable cell (List.mem_cons_of_mem _ hcell))
          (fun cell hcell => hlimit cell (List.mem_cons_of_mem _ hcell)) hfits
          (between_drop hbehind)
        rw [if_neg (by omega), if_neg (by omega), hfields]
        exact ⟨field :: fields, rfl, .cons hreads hall⟩

/-- A record that breaks off inside a quoted field, behind some complete cells. -/
def writePartial (delimiter quote : Char) : List Cell → List Char → List Char
  | [], text => quote :: double quote text
  | cell :: cells, text =>
      cell.write quote ++ delimiter :: writePartial delimiter quote cells text

/-- A record that breaks off inside a field needs more. -/
theorem parseFields_partial (hlegacy : d.legacy = false) (htrim : d.trim = false)
    (hstop : stop ≤ raw.length) (hne : d.delimiter ≠ d.quote) {cells : List Cell}
    {text : List Char} (hwritable : ∀ cell ∈ cells, cell.Writable d.delimiter d.quote)
    (hlimit : ∀ cell ∈ cells, (encodeAll cell.text.toList).length ≤ d.limit)
    (hlimit' : (encodeAll text).length ≤ d.limit) (hle : position ≤ stop)
    (htext : between raw position stop =
      encodeAll (writePartial d.delimiter d.quote cells text)) :
    parseFields d raw stop position = .ok .more := by
  induction cells generalizing position with
  | nil => rw [parseFields_eq, parseField_open hlegacy htrim hstop text hle hlimit' htext]
  | cons cell cells ih =>
      rw [writePartial] at htext
      obtain ⟨field, next, hfield, _, hnext, hbehind⟩ :=
        parseField_cell hlegacy htrim hstop (hwritable cell List.mem_cons_self) hle
          (hlimit cell List.mem_cons_self) htext (by simpa using hne) (.inr rfl)
      rw [encodeAll_cons] at hbehind
      have hfits := between_le hnext hbehind
      have hpos := length_encode_pos d.delimiter
      rw [parseFields_eq, hfield]
      simp only
      rw [if_neg (by omega), if_neg (by omega),
        ih (fun cell hcell => hwritable cell (List.mem_cons_of_mem _ hcell))
          (fun cell hcell => hlimit cell (List.mem_cons_of_mem _ hcell)) hfits
          (between_drop hbehind)]

/-! ## Where a record breaks off -/

/-- A front of a quoted text ends inside of the text or behind its closing quote. -/
theorem prefix_double {quote c : Char} (hc : c ≠ quote) {text front rest : List Char}
    (h : front ++ [c] <+: double quote text ++ quote :: rest) :
    (∃ text', text' <+: text ∧ front = double quote text') ∨
      ∃ front', front = double quote text ++ quote :: front' ∧ front' ++ [c] <+: rest := by
  induction text generalizing front with
  | nil =>
      cases front with
      | nil => exact absurd (List.cons_prefix_cons.mp h).1 hc
      | cons x front =>
          obtain ⟨hx, hrest⟩ := List.cons_prefix_cons.mp h
          exact .inr ⟨front, by rw [hx]; rfl, hrest⟩
  | cons y text ih =>
      by_cases hy : y = quote
      · rw [double, if_pos hy] at h ⊢
        match front, h with
        | [], h => exact absurd (List.cons_prefix_cons.mp h).1 hc
        | [_], h => exact absurd (List.cons_prefix_cons.mp (List.cons_prefix_cons.mp h).2).1 hc
        | x :: x' :: front, h =>
            obtain ⟨hx, htail⟩ := List.cons_prefix_cons.mp h
            obtain ⟨hx', hrest⟩ := List.cons_prefix_cons.mp htail
            rcases ih hrest with ⟨text', htext, hfront⟩ | ⟨front', hfront, hinitial⟩
            · exact .inl ⟨y :: text', List.cons_prefix_cons.mpr ⟨rfl, htext⟩,
                by rw [double, if_pos hy, hx, hx', hfront]⟩
            · exact .inr ⟨front', by rw [hx, hx', hfront]; rfl, hinitial⟩
      · rw [double, if_neg hy] at h ⊢
        cases front with
        | nil => exact .inl ⟨[], List.nil_prefix, rfl⟩
        | cons x front =>
            obtain ⟨hx, hrest⟩ := List.cons_prefix_cons.mp h
            rcases ih hrest with ⟨text', htext, hfront⟩ | ⟨front', hfront, hinitial⟩
            · exact .inl ⟨y :: text', List.cons_prefix_cons.mpr ⟨rfl, htext⟩,
                by rw [double, if_neg hy, hx, hfront]⟩
            · exact .inr ⟨front', by rw [hx, hfront]; rfl, hinitial⟩

/-- A character that is not in a text comes behind it. -/
theorem prefix_plain {c : Char} {text front rest : List Char} (hc : c ∉ text)
    (h : front ++ [c] <+: text ++ rest) :
    ∃ front', front = text ++ front' ∧ front' ++ [c] <+: rest := by
  induction text generalizing front with
  | nil => exact ⟨front, rfl, h⟩
  | cons x text ih =>
      rw [List.mem_cons, not_or] at hc
      cases front with
      | nil => exact absurd (List.cons_prefix_cons.mp h).1 hc.1
      | cons y front =>
          obtain ⟨hy, htail⟩ := List.cons_prefix_cons.mp h
          obtain ⟨front', hfront, hinitial⟩ := ih hc.2 htail
          exact ⟨front', by rw [hy, hfront]; rfl, hinitial⟩

/-- A record that breaks off in front of a newline breaks off inside a quoted field. -/
theorem exists_partial {delimiter quote c : Char} (hdelimiter : c ≠ delimiter) (hquote : c ≠ quote)
    (hc : isNewline c) {cells : List Cell}
    (hwritable : ∀ cell ∈ cells, cell.Writable delimiter quote) {front : List Char}
    (h : front ++ [c] <+: writeCells delimiter quote cells) :
    ∃ cells' text, front = writePartial delimiter quote cells' text ∧ cells' ⊆ cells ∧
      ∃ cell ∈ cells, text <+: cell.text.toList := by
  induction cells generalizing front with
  | nil => simp [writeCells] at h
  | cons cell cells ih =>
      obtain ⟨rest, hrecord, hrest⟩ := writeCells_cons delimiter quote cell cells
      rw [hrecord] at h
      -- The record breaks off inside the first cell, or behind it.
      have hcase : (∃ text', text' <+: cell.text.toList ∧ front = quote :: double quote text') ∨
          ∃ front', front = cell.write quote ++ front' ∧ front' ++ [c] <+: rest := by
        rw [Cell.write] at h ⊢
        cases hquoted : cell.quoted with
        | true =>
            rw [hquoted, if_pos rfl, quoteField, List.cons_append, List.append_assoc,
              List.singleton_append] at h
            rw [if_pos rfl, quoteField]
            cases front with
            | nil => exact absurd (List.cons_prefix_cons.mp h).1 hquote
            | cons x front =>
                obtain ⟨hx, hfield⟩ := List.cons_prefix_cons.mp h
                rcases prefix_double hquote hfield with
                  ⟨text', htext, hfront⟩ | ⟨front', hfront, hinitial⟩
                · exact .inl ⟨text', htext, by rw [hx, hfront]⟩
                · exact .inr ⟨front', by simp [hx, hfront], hinitial⟩
        | false =>
            rw [hquoted, if_neg Bool.false_ne_true] at h
            rw [if_neg Bool.false_ne_true]
            have hclean := hwritable cell List.mem_cons_self hquoted
            exact .inr (prefix_plain (fun hmem => (hclean c hmem).2.2 hc) h)
      rcases hcase with ⟨text', htext, hfront⟩ | ⟨front', hfront, hinitial⟩
      · exact ⟨[], text', hfront, List.nil_subset _, cell, List.mem_cons_self, htext⟩
      · rcases hrest with ⟨_, rfl⟩ | ⟨_, rfl⟩
        · simp at hinitial
        · cases front' with
          | nil => exact absurd (List.cons_prefix_cons.mp hinitial).1 hdelimiter
          | cons x' front' =>
              obtain ⟨hx', htail⟩ := List.cons_prefix_cons.mp hinitial
              obtain ⟨cells', text, hfront', hsubset, cell', hcell', htext⟩ :=
                ih (fun cell hcell => hwritable cell (List.mem_cons_of_mem _ hcell)) htail
              exact ⟨cell :: cells', text, by rw [hfront, hx', hfront', writePartial],
                List.cons_subset_cons _ hsubset, cell', List.mem_cons_of_mem _ hcell', htext⟩

end Velr.Csv
