import Velr.Csv.Quoting
import Velr.Csv.Transparent

/-!
# Reading a written table back

A field with a newline in it is in quotes, so the newline ends a physical line and not the record:
the slow path assembles the record from its lines (`assemble_written`), and the fast path does what
the slow path does (`next_agrees`).
-/

namespace Velr.Csv

open ByteString Utf8

/-- The line terminators. -/
inductive Terminator where
  | lf
  | cr
  | crlf

def Terminator.text : Terminator → List Char
  | .lf => ['\n']
  | .cr => ['\r']
  | .crlf => ['\r', '\n']

/-- A table, each record behind the other. -/
def writeTable (delimiter quote : Char) (terminator : Terminator) :
    List (List String) → List Char
  | [] => []
  | cells :: records =>
      writeRecord delimiter quote cells ++ terminator.text ++
        writeTable delimiter quote terminator records

/-- The physical lines that end in a text: with a line feed, or with a carriage return that has none
behind it. -/
def lineBreaks : List Char → Nat
  | [] => 0
  | c :: rest =>
      if c = '\n' ∨ c = '\r' ∧ rest.head? ≠ some '\n' then lineBreaks rest + 1
      else lineBreaks rest

/-- The rows of a table that stands behind a text. -/
def rowsOf (delimiter quote : Char) (terminator : Terminator) (before : List Char) :
    List (List String) → List Row
  | [] => []
  | cells :: records =>
      { line := lineBreaks before + 1
        cells := cells.map fun text => { text, quoted := true } } ::
        rowsOf delimiter quote terminator
          (before ++ (writeRecord delimiter quote cells ++ terminator.text)) records

/-! ## Lines of a text -/

/-- The end of a physical line in front of `rest`. -/
inductive Break (rest : List Char) : List Char → Prop where
  | lf : Break rest ['\n']
  | crlf : Break rest ['\r', '\n']
  | cr : rest.head? ≠ some '\n' → Break rest ['\r']

/-- A character of one byte has this byte nowhere but in itself. -/
theorem mem_encode {b : UInt8} {c c' : Char} (hc : encode c = [b]) (hb : isContinuation b = false)
    (h : b ∈ encode c') : c' = c := by
  obtain ⟨first, tail, hencode, _, htail⟩ := encode_shape c'
  rw [hencode] at h
  rcases List.mem_cons.mp h with rfl | hmem
  · exact encode_append_inj (x := []) (y := tail) (by rw [hencode, hc]; simp)
  · rw [htail b hmem] at hb
    cases hb

/-- A text without line breaks has none in its bytes. -/
theorem findNewline_text {text : List Char} (h : ∀ c ∈ text, ¬ isNewline c) :
    findNewline (encodeAll text) = none := by
  rw [findNewline, List.findIdx?_eq_none_iff]
  intro b hb
  obtain ⟨c, hc, hmem⟩ := List.mem_flatMap.mp hb
  by_contra hnewline
  simp only [Bool.or_eq_false_iff, not_and_or, Bool.not_eq_false, beq_iff_eq] at hnewline
  rcases hnewline with rfl | rfl
  · exact h c hc (.inl (mem_encode (c := '\n') rfl (by decide) hmem))
  · exact h c hc (.inr (mem_encode (c := '\r') rfl (by decide) hmem))

/-- The line that ends with the first newline. -/
theorem lineOf_newline {front tail output : Bytes} {b : UInt8} {maximum : Nat}
    (hfront : findNewline front = none) (hb : b = lf ∨ b = cr)
    (hfits : output.length + (front.length + 1) ≤ maximum) :
    lineOf maximum (front ++ b :: tail) output =
      if b = cr ∧ tail.head? = some lf then
        if output.length + (front.length + 1) = maximum then
          .error "CSV record exceeds bounded import memory"
        else .ok (front.length + 2, tail.drop 1, output ++ (front ++ [b]) ++ [lf])
      else .ok (front.length + 1, tail, output ++ (front ++ [b])) := by
  have hfind : findNewline (front ++ b :: tail) = some front.length := by
    rw [findNewline_append_none hfront, findNewline, List.findIdx?_cons, if_pos (by simpa using hb)]
    simp
  have hget (offset : Nat) :
      (front ++ b :: tail)[front.length + offset]? = (b :: tail)[offset]? := by
    rw [List.getElem?_append_right (Nat.le_add_right _ _), Nat.add_sub_cancel_left]
  have hlf : (front ++ b :: tail)[front.length + 1]? = tail.head? := by
    rw [hget, List.getElem?_cons_succ, List.head?_eq_getElem?]
  have hcr : (front ++ b :: tail)[front.length]? = some cr ↔ b = cr := by
    have := hget 0
    rw [Nat.add_zero] at this
    rw [this, List.getElem?_cons_zero, Option.some.injEq]
  rw [lineOf, hfind]
  simp only [hlf, hcr, if_neg (Nat.not_lt.mpr hfits), List.take_length_add_append,
    List.drop_length_add_append, List.take_succ_cons, List.take_zero, List.drop_succ_cons,
    List.drop_zero]

/-- The line at the front of a text. -/
theorem lineOf_text {front brk rest : List Char} {maximum : Nat} {output : Bytes}
    (hfront : ∀ c ∈ front, ¬ isNewline c) (hbreak : Break rest brk)
    (hfits : output.length + (encodeAll (front ++ brk)).length ≤ maximum) :
    lineOf maximum (encodeAll (front ++ brk ++ rest)) output =
      .ok ((encodeAll (front ++ brk)).length, encodeAll rest,
        output ++ encodeAll (front ++ brk)) := by
  have hnone := findNewline_text hfront
  have hcr : encode '\r' = [cr] := rfl
  have hlf : encode '\n' = [lf] := rfl
  cases hbreak with
  | lf =>
      simp only [encodeAll_append, encodeAll_cons, encodeAll_nil, hlf, List.append_nil,
        List.append_assoc, List.singleton_append, List.length_append,
          List.length_singleton] at hfits ⊢
      rw [lineOf_newline hnone (.inl rfl) hfits, if_neg (fun h => absurd h.1 (by decide))]
  | crlf =>
      simp only [encodeAll_append, encodeAll_cons, encodeAll_nil, hcr, hlf, List.append_nil,
        List.append_assoc, List.length_append, List.length_cons, List.length_nil,
        List.cons_append, List.nil_append] at hfits ⊢
      rw [lineOf_newline hnone (.inr rfl) (by omega), if_pos ⟨rfl, rfl⟩, if_neg (by omega)]
      simp
  | cr h =>
      have hhead : (encodeAll rest).head? ≠ some lf := by
        intro hsome
        cases rest with
        | nil => cases hsome
        | cons c rest =>
            rw [encodeAll_cons, List.head?_append_of_ne_nil _ (encode_ne_nil c)] at hsome
            exact h (congrArg some (mem_encode hlf (by decide) (List.mem_of_head? hsome)))
      simp only [encodeAll_append, encodeAll_cons, encodeAll_nil, hcr, List.append_nil,
        List.append_assoc, List.singleton_append, List.length_append,
          List.length_singleton] at hfits ⊢
      rw [lineOf_newline hnone (.inr rfl) hfits, if_neg (fun h => hhead h.2)]

/-- Such a text adds no line. -/
theorem lineBreaks_front {front rest : List Char} (h : ∀ c ∈ front, ¬ isNewline c) :
    lineBreaks (front ++ rest) = lineBreaks rest := by
  induction front with
  | nil => rfl
  | cons c front ih =>
      have hc := h c List.mem_cons_self
      rw [List.cons_append, lineBreaks, if_neg, ih fun c hmem => h c (List.mem_cons_of_mem _ hmem)]
      exact fun hnewline => hc (hnewline.imp_right And.left)

/-- A line break adds one. -/
theorem lineBreaks_break {front brk rest : List Char} (hfront : ∀ c ∈ front, ¬ isNewline c)
    (hbreak : Break rest brk) :
    lineBreaks (front ++ brk ++ rest) = lineBreaks rest + 1 := by
  rw [List.append_assoc, lineBreaks_front hfront]
  cases hbreak with
  | lf => simp [lineBreaks]
  | crlf => simp [lineBreaks]
  | cr h => simp [lineBreaks, h]

/-- The line breaks of two texts add up, unless they split one. -/
theorem lineBreaks_append {text rest : List Char} (h : rest.head? ≠ some '\n') :
    lineBreaks (text ++ rest) = lineBreaks text + lineBreaks rest := by
  induction text with
  | nil => simp [lineBreaks]
  | cons c text ih =>
      have hhead : (text ++ rest).head? ≠ some '\n' ↔ text.head? ≠ some '\n' := by
        cases text with
        | nil => simp [h]
        | cons c' text => rfl
      simp only [List.cons_append, lineBreaks, hhead, ih]
      split
      · omega
      · rfl

/-! ## Record ends -/

/-- A line feed ends a record, with the carriage return in front of it. -/
theorem recordEnd_lf (bytes : Bytes) :
    recordEnd (bytes ++ [lf]) =
      if bytes[bytes.length - 1]? = some cr then bytes.length - 1 else bytes.length := by
  have hlast : (bytes ++ [lf])[bytes.length]? = some lf := by simp
  have hlen : (bytes ++ [lf]).length - 1 = bytes.length := by simp
  rw [recordEnd]
  simp only [hlen, hlast, and_true]
  rw [if_pos (by simp)]
  cases bytes with
  | nil => rfl
  | cons b bytes =>
      have hprevious : (b :: bytes ++ [lf])[(b :: bytes).length - 1]? =
          (b :: bytes)[(b :: bytes).length - 1]? := List.getElem?_append_left (by simp)
      rw [hprevious]
      simp

/-- A carriage return ends a record. -/
theorem recordEnd_cr (bytes : Bytes) : recordEnd (bytes ++ [cr]) = bytes.length := by
  have hlast : (bytes ++ [cr])[bytes.length]? = some cr := by simp
  have hlen : (bytes ++ [cr]).length - 1 = bytes.length := by simp
  have hne : ¬ some cr = some lf := by decide
  rw [recordEnd]
  simp only [hlen, hlast, hne, and_false, if_false, and_true]
  rw [if_pos (by simp)]

/-- The last byte of a text is a carriage return only if its last character is. -/
theorem last_cr {text : List Char}
    (h : (encodeAll text)[(encodeAll text).length - 1]? = some cr) :
    ∃ front, text = front ++ ['\r'] := by
  rcases List.eq_nil_or_concat text with rfl | ⟨front, c, rfl⟩
  · simp at h
  · have hpos := length_encode_pos c
    rw [List.concat_eq_append] at h ⊢
    rw [encodeAll_append, encodeAll_cons, encodeAll_nil, List.append_nil, List.length_append,
      List.getElem?_append_right (by omega)] at h
    exact ⟨front, by rw [mem_encode (c := '\r') rfl (by decide) (List.mem_of_getElem? h)]⟩

/-- What is in front of the terminator of a text: it ends with a newline, and so does what is in
front of it behind a carriage return. -/
theorem recordEnd_text (text : List Char) {c : Char} (hc : isNewline c) :
    ∃ front brk, text ++ [c] = front ++ brk ∧
      recordEnd (encodeAll (text ++ [c])) = (encodeAll front).length ∧
      (front = text ∨ text = front ++ ['\r']) := by
  have hcr : encode '\r' = [cr] := rfl
  have hlf : encode '\n' = [lf] := rfl
  rw [encodeAll_append, encodeAll_cons, encodeAll_nil, List.append_nil]
  rcases hc with rfl | rfl
  · rw [hlf, recordEnd_lf]
    split
    · next hlast =>
        obtain ⟨front, rfl⟩ := last_cr hlast
        exact ⟨front, ['\r', '\n'], by simp, by simp [hcr], .inr rfl⟩
    · exact ⟨text, ['\n'], rfl, rfl, .inl rfl⟩
  · rw [hcr, recordEnd_cr]
    exact ⟨text, ['\r'], rfl, rfl, .inl rfl⟩

/-! ## Records over several lines -/

/-- The dialect in which a table is written and read back. -/
structure Dialect.Quoting (d : Dialect) : Prop where
  legacy : d.legacy = false
  trim : d.trim = false
  distinct : d.delimiter ≠ d.quote
  delimiter : ¬ isNewline d.delimiter
  quote : ¬ isNewline d.quote

variable {d : Dialect}

theorem between_front (front tail : Bytes) : between (front ++ tail) 0 front.length = front := by
  rw [between, List.drop_zero, List.take_left]

/-- A record that breaks off at a newline needs more. -/
theorem parseRecord_more (hd : d.Quoting) {cells : List Cell}
    (hwritable : ∀ cell ∈ cells, cell.Writable d.delimiter d.quote)
    (hlimit : ∀ cell ∈ cells, (encodeAll cell.text.toList).length ≤ d.limit) {text : List Char}
    {c : Char} (hc : isNewline c)
    (h : text ++ [c] <+: writeCells d.delimiter d.quote cells) :
    parseRecord d (encodeAll (text ++ [c])) = .ok .more := by
  obtain ⟨front, brk, htext, hend, hfront⟩ := recordEnd_text text hc
  have hpartial : ∃ c', isNewline c' ∧ front ++ [c'] <+: writeCells d.delimiter d.quote cells := by
    rcases hfront with rfl | rfl
    · exact ⟨c, hc, h⟩
    · exact ⟨'\r', .inr rfl, (List.prefix_append _ _).trans h⟩
  obtain ⟨c', hc', hinitial⟩ := hpartial
  have hdelimiter : c' ≠ d.delimiter := fun heq => hd.delimiter (heq ▸ hc')
  have hquote : c' ≠ d.quote := fun heq => hd.quote (heq ▸ hc')
  obtain ⟨cells', partialText, hwritten, hsubset, cell, hcell, hpart⟩ :=
    exists_partial hdelimiter hquote hc' hwritable hinitial
  have hlimit' : (encodeAll partialText).length ≤ d.limit := by
    obtain ⟨rest, hrest⟩ := hpart
    have := hlimit cell hcell
    rw [← hrest, encodeAll_append, List.length_append] at this
    omega
  rw [parseRecord, hend, htext, encodeAll_append]
  refine parseFields_partial hd.legacy hd.trim ?_ hd.distinct
    (fun cell hcell => hwritable cell (hsubset hcell))
    (fun cell hcell => hlimit cell (hsubset hcell)) hlimit' (Nat.zero_le _) ?_
  · rw [List.length_append]
    exact Nat.le_add_right _ _
  · rw [between_front, hwritten]

/-- A record does not end with a carriage return. -/
theorem writeCells_last (hd : d.Quoting) {cells : List Cell}
    (hwritable : ∀ cell ∈ cells, cell.Writable d.delimiter d.quote) :
    ∀ front, writeCells d.delimiter d.quote cells ≠ front ++ ['\r'] := by
  induction cells with
  | nil => exact fun front h => absurd h (by simp [writeCells])
  | cons cell cells ih =>
      intro front h
      obtain ⟨rest, hrecord, ⟨_, rfl⟩ | ⟨_, rfl⟩⟩ := writeCells_cons d.delimiter d.quote cell cells
      · rw [hrecord, List.append_nil, Cell.write] at h
        cases hquoted : cell.quoted with
        | true =>
            rw [hquoted, if_pos rfl, quoteField, ← List.cons_append] at h
            exact hd.quote (.inr (by simpa using (List.append_inj' h rfl).2))
        | false =>
            rw [hquoted, if_neg Bool.false_ne_true] at h
            have hmem : '\r' ∈ cell.text.toList := by simp [h]
            exact (hwritable cell List.mem_cons_self hquoted _ hmem).2.2 (.inr rfl)
      · rw [hrecord] at h
        rcases List.eq_nil_or_concat (writeCells d.delimiter d.quote cells) with
          hempty | ⟨front', c, hmore⟩
        · rw [hempty] at h
          exact hd.delimiter (.inr (by simpa using (List.append_inj' h rfl).2))
        · rw [hmore, List.concat_eq_append, ← List.cons_append, ← List.append_assoc] at h
          have hc : c = '\r' := by simpa using (List.append_inj' h rfl).2
          exact ih (fun cell hcell => hwritable cell (List.mem_cons_of_mem _ hcell)) front'
            (by rw [hmore, List.concat_eq_append, hc])

/-- A record with its terminator reads as its cells. -/
theorem parseRecord_complete (hd : d.Quoting) (terminator : Terminator) {cells : List Cell}
    (hcells : cells ≠ []) (hwritable : ∀ cell ∈ cells, cell.Writable d.delimiter d.quote)
    (hlimit : ∀ cell ∈ cells, (encodeAll cell.text.toList).length ≤ d.limit) :
    ∃ fields, parseRecord d (encodeAll (writeCells d.delimiter d.quote cells ++ terminator.text)) =
        .ok (.complete fields) ∧
      List.Forall₂ (Field.Reads (encodeAll
        (writeCells d.delimiter d.quote cells ++ terminator.text))) fields cells := by
  have hend : recordEnd (encodeAll (writeCells d.delimiter d.quote cells ++ terminator.text)) =
      (encodeAll (writeCells d.delimiter d.quote cells)).length := by
    have hlast : ¬ (encodeAll (writeCells d.delimiter d.quote cells))[(encodeAll
        (writeCells d.delimiter d.quote cells)).length - 1]? = some cr := by
      intro hcr
      obtain ⟨front, hfront⟩ := last_cr hcr
      exact writeCells_last hd hwritable front hfront
    have hcr : encode '\r' = [cr] := rfl
    have hlf : encode '\n' = [lf] := rfl
    cases terminator with
    | lf =>
        rw [Terminator.text, encodeAll_append, encodeAll_cons, encodeAll_nil, List.append_nil, hlf,
          recordEnd_lf, if_neg hlast]
    | cr =>
        rw [Terminator.text, encodeAll_append, encodeAll_cons, encodeAll_nil, List.append_nil, hcr,
          recordEnd_cr]
    | crlf =>
        rw [Terminator.text, encodeAll_append, encodeAll_cons, encodeAll_cons, encodeAll_nil,
          List.append_nil, hcr, hlf, ← List.append_assoc, recordEnd_lf]
        simp
  rw [parseRecord, hend]
  refine parseFields_record hd.legacy hd.trim ?_ hd.distinct hcells hwritable hlimit
    (Nat.zero_le _) ?_
  · rw [encodeAll_append, List.length_append]
    exact Nat.le_add_right _ _
  · rw [encodeAll_append, between_front]

/-- The first newline of a text. -/
theorem exists_newline (text : List Char) :
    (∀ c ∈ text, ¬ isNewline c) ∨
      ∃ front c rest, text = front ++ c :: rest ∧ isNewline c ∧ ∀ c ∈ front, ¬ isNewline c := by
  induction text with
  | nil => exact .inl nofun
  | cons c text ih =>
      by_cases hc : isNewline c
      · exact .inr ⟨[], c, text, rfl, hc, nofun⟩
      · rcases ih with hnone | ⟨front, c', rest, rfl, hc', hfront⟩
        · exact .inl (List.forall_mem_cons.mpr ⟨hc, hnone⟩)
        · exact .inr ⟨c :: front, c', rest, rfl, hc', List.forall_mem_cons.mpr ⟨hc, hfront⟩⟩

/-- The next line of a record: it ends inside the record, or with it. -/
theorem next_line (terminator : Terminator) {todo after : List Char}
    (htodo : ∀ front, todo ≠ front ++ ['\r']) (hafter : after.head? ≠ some '\n') :
    ∃ front brk, (∀ c ∈ front, ¬ isNewline c) ∧
      ((∃ todo' before c, todo = front ++ brk ++ todo' ∧ brk = before ++ [c] ∧ isNewline c ∧
          Break (todo' ++ (terminator.text ++ after)) brk) ∨
        todo = front ∧ brk = terminator.text ∧ Break after brk) := by
  rcases exists_newline todo with hnone | ⟨front, c, rest, rfl, hc, hfront⟩
  · refine ⟨todo, terminator.text, hnone, .inr ⟨rfl, rfl, ?_⟩⟩
    cases terminator with
    | lf => exact .lf
    | cr => exact .cr hafter
    | crlf => exact .crlf
  · rcases hc with rfl | rfl
    · exact ⟨front, ['\n'], hfront, .inl ⟨rest, [], '\n', by simp, rfl, .inl rfl, .lf⟩⟩
    · cases rest with
      | nil => exact absurd rfl (htodo front)
      | cons c rest =>
          by_cases hc : c = '\n'
          · subst hc
            exact ⟨front, ['\r', '\n'], hfront,
              .inl ⟨rest, ['\r'], '\n', by simp, rfl, .inl rfl, .crlf⟩⟩
          · exact ⟨front, ['\r'], hfront,
              .inl ⟨c :: rest, [], '\r', by simp, rfl, .inr rfl, .cr (by simpa using hc)⟩⟩

/-- What begins with neither a newline nor a byte-order mark is not blank and keeps its front. -/
theorem text_shape {c : Char} (hc : ¬ isNewline c) {first : Bool}
    (hmark : first = true → c ≠ '\ufeff') (tail : List Char) :
    dropMark first (encodeAll (c :: tail)) = encodeAll (c :: tail) ∧
      isBlank (encodeAll (c :: tail)) = false := by
  have hbytes : byteOrderMark = encode '\ufeff' := by decide
  have hlf : encode '\n' = [lf] := rfl
  have hcr : encode '\r' = [cr] := rfl
  rw [encodeAll_cons]
  constructor
  · rw [dropMark, if_neg]
    intro h
    rw [Bool.and_eq_true, List.isPrefixOf_iff_prefix, hbytes] at h
    obtain ⟨hfirst, rest, hrest⟩ := h
    exact hmark hfirst (encode_append_inj hrest).symm
  · have hne (c' : Char) (hc' : isNewline c') (x : Bytes) :
        encode c ++ encodeAll tail ≠ encode c' ++ x := by
      intro heq
      exact hc (encode_append_inj heq ▸ hc')
    simp only [isBlank, Bool.or_eq_false_iff, beq_eq_false_iff_ne]
    exact ⟨⟨hne '\n' (.inl rfl) [], hne '\r' (.inr rfl) [lf]⟩, hne '\r' (.inr rfl) []⟩

/-- What a reader asks of a record that it is to read back. -/
structure Dialect.Writes (d : Dialect) (terminator : Terminator) (recordLimit : Nat)
    (cells : List Cell) : Prop where
  ne_nil : cells ≠ []
  writable : ∀ cell ∈ cells, cell.Writable d.delimiter d.quote
  limit : ∀ cell ∈ cells, (encodeAll cell.text.toList).length ≤ d.limit
  size : (encodeAll (writeCells d.delimiter d.quote cells ++ terminator.text)).length ≤ recordLimit
  head : ∃ c tail, writeCells d.delimiter d.quote cells = c :: tail ∧ ¬ isNewline c

/-- A line break that something follows is one without it. -/
theorem Break.of_append {rest after brk : List Char} (h : Break (rest ++ after) brk)
    (hrest : rest ≠ []) : Break rest brk := by
  cases h with
  | lf => exact .lf
  | crlf => exact .crlf
  | cr h => exact .cr (by rwa [List.head?_append_of_ne_nil _ hrest] at h)

/-- A terminator is a line break at the end of the text. -/
theorem Terminator.break_nil (terminator : Terminator) : Break [] terminator.text := by
  cases terminator with
  | lf => exact .lf
  | cr => exact .cr nofun
  | crlf => exact .crlf

theorem Terminator.text_ne_nil (terminator : Terminator) : terminator.text ≠ [] := by
  cases terminator <;> exact nofun

theorem Break.ne_nil {rest brk : List Char} (h : Break rest brk) : brk ≠ [] := by
  cases h <;> exact nofun

/-- `physical_line` on a text. -/
theorem physicalLine_text {maximum : Nat} {input : Input} {front brk rest : List Char}
    {output : Bytes} (h : input.Chunked) (hrest : input.rest = encodeAll (front ++ brk ++ rest))
    (hfront : ∀ c ∈ front, ¬ isNewline c) (hbreak : Break rest brk)
    (hfits : output.length + (encodeAll (front ++ brk)).length ≤ maximum) :
    ∃ read next, physicalLine maximum input output 0 =
        .ok (read, next, output ++ encodeAll (front ++ brk)) ∧
      read ≠ 0 ∧ next.Chunked ∧ next.rest = encodeAll rest := by
  have hreads : Reads 0 (physicalLine maximum input output 0) (lineOf maximum input.rest output) :=
    physicalLine_reads h
  rw [hrest, lineOf_text hfront hbreak hfits] at hreads
  cases hline : physicalLine maximum input output 0 with
  | error e => rw [hline] at hreads; exact absurd hreads id
  | ok result =>
      obtain ⟨read, next, output'⟩ := result
      rw [hline] at hreads
      obtain ⟨hread, hnext, hchunked, rfl⟩ := hreads
      refine ⟨read, next, rfl, ?_, hchunked, hnext⟩
      rw [hread, encodeAll_append, List.length_append]
      obtain ⟨c, brk', rfl⟩ := List.exists_cons_of_ne_nil hbreak.ne_nil
      have := length_encode_pos c
      rw [encodeAll_cons, List.length_append]
      omega

/-- The slow path assembles a written record from its lines. -/
theorem assemble_written {r : Reader} (hd : r.dialect.Quoting) (hmultiline : r.multiline = true)
    (hchunked : r.input.Chunked) (terminator : Terminator) {cells : List Cell}
    (hwrites : r.dialect.Writes terminator r.recordLimit cells)
    (hmark : r.first = true →
      (writeCells r.dialect.delimiter r.dialect.quote cells).head? ≠ some '\ufeff')
    {done todo after : List Char} (recordLine : Nat)
    (hrecord : done ++ todo = writeCells r.dialect.delimiter r.dialect.quote cells)
    (hafter : after.head? ≠ some '\n')
    (hrest : r.input.rest = encodeAll (todo ++ (terminator.text ++ after))) :
    ∃ input fields, assemble r (encodeAll done) recordLine =
        .ok (some { line := recordLine
                    raw := encodeAll (writeCells r.dialect.delimiter r.dialect.quote cells ++
                      terminator.text)
                    fields },
          { r with
            input, first := false, line := r.line + lineBreaks (todo ++ terminator.text) }) ∧
      input.Chunked ∧ input.rest = encodeAll after ∧
      List.Forall₂ (Field.Reads (encodeAll (writeCells r.dialect.delimiter r.dialect.quote cells ++
        terminator.text))) fields cells := by
  induction hn : todo.length using Nat.strongRecOn generalizing r done todo with
  | ind n ih => ?_
  subst hn
  have htodo (front : List Char) : todo ≠ front ++ ['\r'] := by
    rintro rfl
    rw [← List.append_assoc] at hrecord
    exact writeCells_last hd hwrites.writable _ hrecord.symm
  obtain ⟨lead, back, hlead, hnewline⟩ := hwrites.head
  have hleads (text : List Char) (hne : text ≠ [])
      (hinitial : text <+:
        writeCells r.dialect.delimiter r.dialect.quote cells ++ terminator.text) :
      ∃ tail, text = lead :: tail := by
    obtain ⟨c, tail, rfl⟩ := List.exists_cons_of_ne_nil hne
    rw [hlead] at hinitial
    exact ⟨tail, by rw [(List.cons_prefix_cons.mp hinitial).1]⟩
  have hfirst : r.first = true → lead ≠ '\ufeff' := by
    intro hfirst heq
    exact hmark hfirst (by rw [hlead, heq]; rfl)
  have hroom (text : List Char)
      (hinitial : text <+:
        writeCells r.dialect.delimiter r.dialect.quote cells ++ terminator.text) :
      (encodeAll text).length ≤ r.recordLimit := by
    have hsize := hwrites.size
    obtain ⟨rest, hrest⟩ := hinitial
    rw [← hrest, encodeAll_append, List.length_append] at hsize
    omega
  obtain ⟨front, brk, hfront, hcase⟩ := next_line terminator htodo hafter
  rw [assemble_eq]
  rcases hcase with ⟨todo', before, c, rfl, rfl, hc, hbreak⟩ | ⟨rfl, rfl, hbreak⟩
  · -- the line ends inside the record, which is read on
    have hwhole : done ++ (front ++ (before ++ [c])) ++ todo' =
        writeCells r.dialect.delimiter r.dialect.quote cells := by
      rw [← hrecord, List.append_assoc]
    have hpart : done ++ (front ++ (before ++ [c])) <+:
        writeCells r.dialect.delimiter r.dialect.quote cells := ⟨todo', hwhole⟩
    have hpart' := hpart.trans (List.prefix_append _ terminator.text)
    have hfits := hroom _ hpart'
    rw [encodeAll_append, List.length_append] at hfits
    obtain ⟨read, next, hline, hread, hnext, hbehind⟩ :=
      physicalLine_text hchunked (by rw [hrest]; simp) hfront hbreak hfits
    have hsplit : done ++ (front ++ (before ++ [c])) = done ++ (front ++ before) ++ [c] := by
      simp
    have hmore := parseRecord_more hd hwrites.writable hwrites.limit hc (hsplit ▸ hpart)
    rw [← hsplit] at hmore
    obtain ⟨tail, htail⟩ := hleads _ (by simp) hpart'
    obtain ⟨hkept, hblank⟩ := text_shape hnewline hfirst tail
    rw [← htail] at hkept hblank
    have hbreak' : Break (todo' ++ terminator.text ++ after) (before ++ [c]) := by
      rwa [List.append_assoc]
    have hbreaks := lineBreaks_break hfront
      (hbreak'.of_append (by simp [terminator.text_ne_nil]))
    rw [hline, ← encodeAll_append]
    simp only [hkept, hblank, hmore]
    rw [if_neg hread, if_neg Bool.false_ne_true, if_pos hmultiline]
    obtain ⟨input, fields, hassemble, hchunked', hrest', hquotes⟩ :=
      @ih todo'.length (by simp only [List.length_append, List.length_singleton]; omega)
        { r with input := next, first := false, line := r.line + 1 } hd hmultiline hnext hwrites
        nofun _ _ hwhole hbehind rfl
    refine ⟨input, fields, ?_, hchunked', hrest', hquotes⟩
    have hlines : r.line + lineBreaks (front ++ (before ++ [c]) ++ todo' ++ terminator.text) =
        r.line + 1 + lineBreaks (todo' ++ terminator.text) := by
      rw [List.append_assoc, hbreaks]
      omega
    rw [hassemble, hlines]
  · -- the line ends with the record
    have hwhole : done ++ (todo ++ terminator.text) =
        writeCells r.dialect.delimiter r.dialect.quote cells ++ terminator.text := by
      rw [← List.append_assoc, hrecord]
    have hfits := hroom (done ++ (todo ++ terminator.text)) ⟨[], by rw [hwhole, List.append_nil]⟩
    rw [encodeAll_append, List.length_append] at hfits
    obtain ⟨read, next, hline, hread, hnext, hbehind⟩ :=
      physicalLine_text hchunked (by rw [hrest, List.append_assoc]) hfront hbreak hfits
    obtain ⟨fields, hparse, hquotes⟩ :=
      parseRecord_complete hd terminator hwrites.ne_nil hwrites.writable hwrites.limit
    obtain ⟨tail, htail⟩ := hleads _ (by simp [terminator.text_ne_nil]) (List.prefix_refl _)
    obtain ⟨hkept, hblank⟩ := text_shape hnewline hfirst tail
    rw [← htail] at hkept hblank
    have hbreaks := lineBreaks_break hfront terminator.break_nil
    rw [List.append_nil] at hbreaks
    rw [hline, ← encodeAll_append, hwhole]
    simp only [hkept, hblank, hparse]
    rw [if_neg hread, if_neg Bool.false_ne_true, checked, fromUtf8_encodeAll, hbreaks]
    exact ⟨next, fields, rfl, hnext, hbehind, hquotes⟩

/-! ## Tables -/

/-- The cells of a record that a written record was read as. -/
theorem cells_written {raw : Bytes} {line : Nat} {fields : List Field} {cells : List Cell}
    (hwithin : ∀ field ∈ fields, field.text.Within raw)
    (hreads : List.Forall₂ (Field.Reads raw) fields cells) :
    Record.cells { line, raw, fields } = some cells := by
  rw [Record.cells]
  induction hreads with
  | nil => rfl
  | @cons field cell fields cells hfield _ ih =>
      have hcell : field.cell raw = some cell := by
        obtain ⟨hquoted, hspells⟩ := hfield
        have hfield := hwithin field List.mem_cons_self
        unfold Field.cell
        cases htext : field.text with
        | decoded string =>
            rw [htext] at hspells
            obtain rfl : string = String.ofList cell.text.toList := hspells
            simp [hquoted]
        | span start stop =>
            rw [htext] at hspells hfield
            have hspells : between raw start stop = encodeAll cell.text.toList := hspells
            have hfield : start ≤ stop ∧ stop ≤ raw.length ∧ isCharBoundary raw start = true ∧
              isCharBoundary raw stop = true := hfield
            simp only [strSlice]
            rw [if_pos hfield, hspells, fromUtf8_encodeAll, String.ofList_toList, hquoted]
            rfl
      have ih := ih fun field hmem => hwithin field (List.mem_cons_of_mem _ hmem)
      simp only at ih
      simp only [List.mapM_cons, hcell, ih]
      rfl

/-- What the size limits of a reader ask of a table. -/
def Fits (delimiter quote : Char) (terminator : Terminator) (fieldLimit recordLimit : Nat)
    (records : List (List String)) : Prop :=
  ∀ cells ∈ records, (∀ text ∈ cells, (asBytes text).length ≤ fieldLimit) ∧
    (encodeAll (writeRecord delimiter quote cells ++ terminator.text)).length ≤ recordLimit

/-- The records of a table, each behind the other. -/
def writeTableCells (delimiter quote : Char) (terminator : Terminator) :
    List (List Cell) → List Char
  | [] => []
  | cells :: records =>
      writeCells delimiter quote cells ++ terminator.text ++
        writeTableCells delimiter quote terminator records

/-- The rows of a table of cells that stands behind a text. -/
def rowsOfCells (delimiter quote : Char) (terminator : Terminator) (before : List Char) :
    List (List Cell) → List Row
  | [] => []
  | cells :: records =>
      { line := lineBreaks before + 1, cells } ::
        rowsOfCells delimiter quote terminator
          (before ++ (writeCells delimiter quote cells ++ terminator.text)) records

/-- The rows have the cells of the records. -/
theorem rowsOfCells_cells (delimiter quote : Char) (terminator : Terminator)
    (records : List (List Cell)) (before : List Char) :
    (rowsOfCells delimiter quote terminator before records).map Row.cells = records := by
  induction records generalizing before with
  | nil => rfl
  | cons cells records ih => rw [rowsOfCells, List.map_cons, ih]

/-- A record does not begin with a line feed. -/
theorem Dialect.Writes.head_ne {terminator : Terminator} {recordLimit : Nat} {cells : List Cell}
    (h : d.Writes terminator recordLimit cells) (after : List Char) :
    (writeCells d.delimiter d.quote cells ++ after).head? ≠ some '\n' := by
  obtain ⟨c, tail, hcells, hc⟩ := h.head
  rw [hcells]
  exact fun hhead => hc (.inl (Option.some.inj hhead))

/-- Neither does a table. -/
theorem writeTableCells_head {terminator : Terminator} {recordLimit : Nat}
    {records : List (List Cell)}
    (hrecords : ∀ cells ∈ records, d.Writes terminator recordLimit cells) :
    (writeTableCells d.delimiter d.quote terminator records).head? ≠ some '\n' := by
  cases records with
  | nil => exact nofun
  | cons cells records =>
      rw [writeTableCells, List.append_assoc]
      exact (hrecords cells List.mem_cons_self).head_ne _

/-- At the end of the text there is no record. -/
theorem nextSlow_end {r : Reader} (hr : r.Settled) (hahead : r.ahead = []) :
    ∃ r', r.nextSlow = .ok (none, r') := by
  have hreads : Reads 0
      (physicalLine r.recordLimit (r.input.consume r.pendingConsume) [] 0)
      (lineOf r.recordLimit [] []) := by
    rw [← hahead]
    exact physicalLine_reads (hr.chunked.consume _)
  have hempty : lineOf r.recordLimit [] [] = .ok (0, [], []) := by simp [lineOf, findNewline]
  rw [hempty] at hreads
  rw [Reader.nextSlow, assemble_eq]
  cases hline : physicalLine r.recordLimit (r.input.consume r.pendingConsume) [] 0 with
  | error e => rw [hline] at hreads; exact absurd hreads id
  | ok result =>
      obtain ⟨read, next, output⟩ := result
      rw [hline] at hreads
      obtain ⟨rfl, _, _, rfl⟩ := hreads
      exact ⟨_, rfl⟩

/-- The slow path reads a written record back. -/
theorem nextSlow_written {r : Reader} (hd : r.dialect.Quoting) (hmultiline : r.multiline = true)
    (hr : r.Settled) (terminator : Terminator) {cells : List Cell}
    (hwrites : r.dialect.Writes terminator r.recordLimit cells)
    (hmark : r.first = true →
      (writeCells r.dialect.delimiter r.dialect.quote cells).head? ≠ some '\ufeff')
    {after : List Char} (hafter : after.head? ≠ some '\n')
    (hahead : r.ahead = encodeAll (writeCells r.dialect.delimiter r.dialect.quote cells ++
      terminator.text ++ after)) :
    ∃ record input, r.nextSlow = .ok (some record,
        { r with
          input, pendingConsume := 0, first := false
          line := r.line + lineBreaks
            (writeCells r.dialect.delimiter r.dialect.quote cells ++ terminator.text) }) ∧
      record.line = r.line + 1 ∧ record.cells = some cells ∧
      input.Chunked ∧ input.rest = encodeAll after := by
  have hchunked := hr.chunked.consume r.pendingConsume
  obtain ⟨input, fields, hnext, hchunked', hrest, hreads⟩ := @assemble_written
    { r with input := r.input.consume r.pendingConsume, pendingConsume := 0 } hd hmultiline
    hchunked terminator cells hwrites hmark [] _ after
    (r.line + 1) (List.nil_append _) hafter (by rw [← List.append_assoc]; exact hahead)
  dsimp only [encodeAll_nil] at hnext hreads
  obtain ⟨hparse, htext, _⟩ := assemble_record
    (r := { r with input := r.input.consume r.pendingConsume, pendingConsume := 0 }) hchunked
    (.inl rfl) hnext
  obtain ⟨text, htext⟩ := Option.isSome_iff_exists.mp htext
  exact ⟨_, input, hnext, rfl, cells_written (parseRecord_within hparse htext) hreads, hchunked',
    hrest⟩

/-- The slow path reads a written table back. -/
theorem readAll_written {r : Reader} (hd : r.dialect.Quoting) (hmultiline : r.multiline = true)
    (hr : r.Settled) (terminator : Terminator) {records : List (List Cell)}
    (before : List Char)
    (hrecords : ∀ cells ∈ records, r.dialect.Writes terminator r.recordLimit cells)
    (hmark : r.first = true → ∀ cells ∈ records.head?,
      (writeCells r.dialect.delimiter r.dialect.quote cells).head? ≠ some '\ufeff')
    (hline : r.line = lineBreaks before)
    (hahead : r.ahead =
      encodeAll (writeTableCells r.dialect.delimiter r.dialect.quote terminator records))
    {n : Nat} (hn : records.length < n) :
    readAll Reader.nextSlow n r =
      some (rowsOfCells r.dialect.delimiter r.dialect.quote terminator before records, none) := by
  induction records generalizing r before n with
  | nil =>
      obtain ⟨n, rfl⟩ := Nat.exists_eq_succ_of_ne_zero (Nat.ne_of_gt hn)
      obtain ⟨r', hnext⟩ := nextSlow_end hr hahead
      rw [readAll, hnext]
      rfl
  | cons cells records ih =>
      obtain ⟨n, rfl⟩ := Nat.exists_eq_succ_of_ne_zero (Nat.ne_of_gt (Nat.zero_lt_of_lt hn))
      obtain ⟨hwrites, hrecords'⟩ := List.forall_mem_cons.mp hrecords
      obtain ⟨record, input, hnext, hstart, hcells, hchunked, hrest⟩ :=
        nextSlow_written hd hmultiline hr terminator hwrites
          (fun hfirst => hmark hfirst cells rfl) (writeTableCells_head hrecords') hahead
      have hbreaks : lineBreaks (before ++ (writeCells r.dialect.delimiter r.dialect.quote cells ++
          terminator.text)) = r.line + lineBreaks
            (writeCells r.dialect.delimiter r.dialect.quote cells ++ terminator.text) := by
        rw [hline]
        exact lineBreaks_append (hwrites.head_ne _)
      have hrows := @ih { r with
          input, pendingConsume := 0, first := false,
          line := r.line + lineBreaks
            (writeCells r.dialect.delimiter r.dialect.quote cells ++ terminator.text) }
        hd hmultiline ⟨hchunked, Nat.zero_le _⟩ _ hrecords' (by simp) hbreaks.symm hrest
        n (Nat.lt_of_succ_lt_succ hn)
      rw [readAll, hnext]
      simp only [hcells, hrows]
      rw [hstart, hline]
      rfl

/-- Every record takes a byte at least. -/
theorem length_records (delimiter quote : Char) (terminator : Terminator)
    (records : List (List Cell)) :
    records.length ≤ (encodeAll (writeTableCells delimiter quote terminator records)).length := by
  induction records with
  | nil => exact Nat.zero_le _
  | cons cells records ih =>
      have : 0 < (encodeAll terminator.text).length := by cases terminator <;> decide
      simp only [writeTableCells, encodeAll_append, List.length_append, List.length_cons]
      omega

/-- A table of cells reads back as it was, whatever chunks its bytes come in. -/
theorem cells_round_trip (opts : Options) (terminator : Terminator)
    (records : List (List Cell)) (chunks : List Bytes) {r : Reader}
    (hr : r = Reader.new { buffer := [], chunks } opts) (hquoting : r.dialect.Quoting)
    (hmultiline : opts.multiline = true)
    (hrecords : ∀ cells ∈ records, r.dialect.Writes terminator r.recordLimit cells)
    (hmark : ∀ cells ∈ records.head?,
      (writeCells opts.delimiter opts.quote cells).head? ≠ some '\ufeff')
    (hchunks : ∀ c ∈ chunks, c ≠ [])
    (hbytes : chunks.flatten =
      encodeAll (writeTableCells opts.delimiter opts.quote terminator records)) :
    ∀ n > chunks.flatten.length, readAll Reader.next n r =
      some (rowsOfCells opts.delimiter opts.quote terminator [] records, none) := by
  subst hr
  intro n hn
  have hsettled : (Reader.new { buffer := [], chunks } opts).Settled := ⟨hchunks, Nat.zero_le _⟩
  have hahead : (Reader.new { buffer := [], chunks } opts).ahead = chunks.flatten := by
    simp [Reader.new, Reader.ahead, Input.consume, Input.rest]
  obtain ⟨result, hresult⟩ := readAll_agrees hsettled.agree
  obtain ⟨hnext, hslow⟩ := hresult n (by rwa [hahead])
  have hlength : records.length ≤ chunks.flatten.length := by
    rw [hbytes]
    exact length_records _ _ _ _
  have hread := readAll_written hquoting hmultiline hsettled terminator [] hrecords
    (fun _ => hmark) rfl (by rw [hahead, hbytes]; rfl) (Nat.lt_of_le_of_lt hlength hn)
  rw [hnext, ← hslow, hread]
  rfl

/-! ## Tables in quotes -/

/-- The cells of a record of which every field is in quotes. -/
def quotedCells (cells : List String) : List Cell := cells.map fun text => { text, quoted := true }

/-- A table of quoted texts is one of quoted cells. -/
theorem writeTable_eq (delimiter quote : Char) (terminator : Terminator)
    (records : List (List String)) :
    writeTable delimiter quote terminator records =
      writeTableCells delimiter quote terminator (records.map quotedCells) := by
  induction records with
  | nil => rfl
  | cons cells records ih =>
      rw [List.map_cons, writeTable, writeTableCells, ih, quotedCells, writeCells_quoted]

/-- So are its rows. -/
theorem rowsOf_eq (delimiter quote : Char) (terminator : Terminator)
    (records : List (List String)) (before : List Char) :
    rowsOf delimiter quote terminator before records =
      rowsOfCells delimiter quote terminator before (records.map quotedCells) := by
  induction records generalizing before with
  | nil => rfl
  | cons cells records ih =>
      rw [List.map_cons, rowsOf, rowsOfCells, ih, quotedCells, writeCells_quoted]

/-- A record in quotes begins with one. -/
theorem writeCells_quotedCells {delimiter quote : Char} {cells : List String} (h : cells ≠ []) :
    ∃ tail, writeCells delimiter quote (quotedCells cells) = quote :: tail := by
  obtain ⟨cell, cells, rfl⟩ := List.exists_cons_of_ne_nil h
  obtain ⟨rest, hwritten, _⟩ :=
    writeCells_cons delimiter quote { text := cell, quoted := true } (quotedCells cells)
  exact ⟨_, hwritten⟩

/-- A table that is written with every field in quotes reads back as it was, whatever chunks its
bytes come in. -/
theorem table_round_trip (opts : Options) (terminator : Terminator)
    (records : List (List String)) (chunks : List Bytes)
    (hmultiline : opts.multiline = true) (hlegacy : opts.legacyQuoting = false)
    (htrim : opts.trimStrings = false) (hdistinct : opts.delimiter ≠ opts.quote)
    (hdelimiter : ¬ isNewline opts.delimiter) (hquote : ¬ isNewline opts.quote)
    (hmark : opts.quote ≠ '\ufeff') (hrecords : ∀ cells ∈ records, cells ≠ [])
    (hfits : Fits opts.delimiter opts.quote terminator opts.bufferBytes
      (max (opts.memoryBytes / 2) (opts.bufferBytes * 2)) records)
    (hchunks : ∀ c ∈ chunks, c ≠ [])
    (hbytes : chunks.flatten =
      encodeAll (writeTable opts.delimiter opts.quote terminator records)) :
    ∀ n > chunks.flatten.length, readAll Reader.next n (Reader.new { buffer := [], chunks } opts) =
      some (rowsOf opts.delimiter opts.quote terminator [] records, none) := by
  have hquoting : (Reader.new { buffer := [], chunks } opts).dialect.Quoting :=
    ⟨hlegacy, htrim, hdistinct, hdelimiter, hquote⟩
  rw [rowsOf_eq]
  rw [writeTable_eq] at hbytes
  refine cells_round_trip opts terminator _ chunks rfl hquoting hmultiline ?_ ?_ hchunks hbytes
  · intro cells hmem
    obtain ⟨texts, htexts, rfl⟩ := List.mem_map.mp hmem
    obtain ⟨hlimit, hsize⟩ := hfits texts htexts
    obtain ⟨tail, hhead⟩ := @writeCells_quotedCells opts.delimiter opts.quote texts
      (hrecords texts htexts)
    refine ⟨?_, fun cell hcell => ?_, fun cell hcell => ?_, ?_, ⟨_, tail, hhead, hquote⟩⟩
    · rw [quotedCells]
      exact fun h => hrecords texts htexts (List.map_eq_nil_iff.mp h)
    · obtain ⟨text, -, rfl⟩ := List.mem_map.mp hcell
      exact nofun
    · obtain ⟨text, htext, rfl⟩ := List.mem_map.mp hcell
      rw [← asBytes_eq]
      exact hlimit text htext
    · rw [quotedCells, writeCells_quoted]
      exact hsize
  · intro cells hmem
    obtain ⟨texts, htexts, rfl⟩ := List.mem_map.mp (List.mem_of_mem_head? hmem)
    obtain ⟨tail, hhead⟩ := @writeCells_quotedCells opts.delimiter opts.quote texts
      (hrecords texts htexts)
    rw [hhead]
    exact fun h => hmark (Option.some.inj h)

/-- A field with a quote and a newline in it, in chunks of which two end inside a terminator. -/
theorem table_round_trip_small :
    readAll Reader.next 19 (Reader.new
      { buffer := []
        chunks :=
          [[34, 97, 34, 34, 13], [10, 98, 34, 44, 34, 34, 13], [10, 34, 99, 34, 13, 10]] }
      sampleOptions) =
        some (rowsOf ',' '"' .crlf [] [["a\"\r\nb", ""], ["c"]], none) :=
  table_round_trip sampleOptions .crlf [["a\"\r\nb", ""], ["c"]]
    [[34, 97, 34, 34, 13], [10, 98, 34, 44, 34, 34, 13], [10, 34, 99, 34, 13, 10]] rfl rfl rfl
    (by decide) (by simp [isNewline, sampleOptions]) (by simp [isNewline, sampleOptions])
    (by decide) (by simp) (by unfold Fits; decide) (by simp) (by decide) 19 (by decide)

example : rowsOf ',' '"' .crlf [] [["a\"\r\nb", ""], ["c"]] =
    [{ line := 1, cells := [⟨"a\"\r\nb", true⟩, ⟨"", true⟩] },
      { line := 3, cells := [⟨"c", true⟩] }] := by
  decide

end Velr.Csv
