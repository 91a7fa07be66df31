import Velr.Common.JsonString
import Velr.Csv.RoundTrip

/-!
# Output encodings

The TSV, JSON and CSV writers of `runtime/table.rs` and how their output reads back
(`outputs_lossless`): a TSV field loses its tabs and line feeds to escapes, a JSON string is a
literal for its text, and a CSV field without quotes has nothing that the CSV reader of the import
takes for more than a text.
-/

namespace Velr.Output

open Csv (Cell isNewline quoteField writeCells writeTableCells)
open ByteString Utf8

/-- A result table: the column names and the display strings of its rows. -/
structure Table where
  columnNames : List String
  rows : List (List String)
  width : ∀ row ∈ rows, row.length = columnNames.length

/-- The header and the rows. -/
def Table.lines (t : Table) : List (List String) := t.columnNames :: t.rows

/-! ## Writers -/

/-- What `escape_tsv` writes for a character. -/
def escapeTsvChar : Char → List Char
  | '\\' => ['\\', '\\']
  | '\t' => ['\\', 't']
  | '\n' => ['\\', 'n']
  | '\r' => ['\\', 'r']
  | c => [c]

/-- `escape_tsv` -/
def escapeTsv (s : String) : List Char := s.toList.flatMap escapeTsvChar

/-- A line of `render_tsv`. -/
def tsvLine (fields : List String) : List Char := ['\t'].intercalate (fields.map escapeTsv)

/-- `render_tsv` -/
def renderTsv (t : Table) : List Char := t.lines.flatMap fun fields => tsvLine fields ++ ['\n']

/-- What `json_quote` writes for a character. -/
def jsonQuoteChar : Char → List Char
  | '"' => ['\\', '"']
  | '\\' => ['\\', '\\']
  | '\n' => ['\\', 'n']
  | '\r' => ['\\', 'r']
  | '\t' => ['\\', 't']
  | '\x08' => ['\\', 'b']
  | '\x0c' => ['\\', 'f']
  | c => if c.toNat < 0x20 then '\\' :: 'u' :: JsonString.hex4 c.toNat else [c]

/-- `json_quote` -/
def jsonQuote (s : String) : List Char := '"' :: (s.toList.flatMap jsonQuoteChar ++ ['"'])

/-- `needs_quotes` of `csv_escape` -/
def needsQuotes (s : String) : Bool :=
  s.toList.contains ',' || s.toList.contains '"' || s.toList.contains '\n' || s.toList.contains '\r'

/-- `csv_escape` -/
def csvEscape (s : String) : List Char :=
  if !needsQuotes s then s.toList
  else '"' :: (s.toList.flatMap (fun c => if c = '"' then ['"', c] else [c]) ++ ['"'])

/-- `write_csv_row` -/
def writeCsvRow (fields : List String) : List Char :=
  [','].intercalate (fields.map csvEscape) ++ ['\n']

/-- `render_csv_stream` -/
def renderCsv (t : Table) : List Char := t.lines.flatMap writeCsvRow

/-! ## TSV -/

/-- The escapes of a TSV field undone. -/
def unescapeTsv : List Char → List Char
  | '\\' :: '\\' :: text => '\\' :: unescapeTsv text
  | '\\' :: 't' :: text => '\t' :: unescapeTsv text
  | '\\' :: 'n' :: text => '\n' :: unescapeTsv text
  | '\\' :: 'r' :: text => '\r' :: unescapeTsv text
  | c :: text => c :: unescapeTsv text
  | [] => []

/-- A TSV text split on line feeds and tabs; the last line feed ends the last line. -/
def readTsv (text : List Char) : List (List String) :=
  (text.splitOn '\n').dropLast.map fun line =>
    (line.splitOn '\t').map fun field => String.ofList (unescapeTsv field)

/-- What `escape_tsv` writes for a character: one of four escapes, or the character. -/
theorem escapeTsvChar_cases (c : Char) :
    c = '\\' ∧ escapeTsvChar c = ['\\', '\\'] ∨ c = '\t' ∧ escapeTsvChar c = ['\\', 't'] ∨
      c = '\n' ∧ escapeTsvChar c = ['\\', 'n'] ∨ c = '\r' ∧ escapeTsvChar c = ['\\', 'r'] ∨
      (c ≠ '\\' ∧ c ≠ '\t' ∧ c ≠ '\n' ∧ c ≠ '\r') ∧ escapeTsvChar c = [c] := by
  unfold escapeTsvChar
  split <;> simp_all

/-- A character that is no backslash stands for itself. -/
theorem unescapeTsv_plain {c : Char} (hc : c ≠ '\\') (text : List Char) :
    unescapeTsv (c :: text) = c :: unescapeTsv text := by
  rw [unescapeTsv] <;> exact fun _ h => absurd h hc

/-- Reading the escapes gives the text back. -/
theorem unescapeTsv_flatMap (text : List Char) :
    unescapeTsv (text.flatMap escapeTsvChar) = text := by
  induction text with
  | nil => rfl
  | cons c text ih =>
      rw [List.flatMap_cons]
      rcases escapeTsvChar_cases c with ⟨rfl, h⟩ | ⟨rfl, h⟩ | ⟨rfl, h⟩ | ⟨rfl, h⟩ | ⟨hc, h⟩
      · exact congrArg ('\\' :: ·) ih
      · exact congrArg ('\t' :: ·) ih
      · exact congrArg ('\n' :: ·) ih
      · exact congrArg ('\r' :: ·) ih
      · rw [h, List.singleton_append, unescapeTsv_plain hc.1, ih]

/-- An escaped field has no tab and no line feed. -/
theorem notMem_escapeTsv {c : Char} (hc : c = '\t' ∨ c = '\n') (s : String) :
    c ∉ escapeTsv s := by
  intro hmem
  obtain ⟨d, -, hd⟩ := List.mem_flatMap.mp hmem
  rcases escapeTsvChar_cases d with ⟨-, h⟩ | ⟨-, h⟩ | ⟨-, h⟩ | ⟨-, h⟩ | ⟨⟨_, htab, hline, _⟩, h⟩
  · rcases hc with rfl | rfl <;> simp [h] at hd
  · rcases hc with rfl | rfl <;> simp [h] at hd
  · rcases hc with rfl | rfl <;> simp [h] at hd
  · rcases hc with rfl | rfl <;> simp [h] at hd
  · rw [h, List.mem_singleton] at hd
    subst hd
    exact hc.elim htab hline

theorem mem_intercalate {sep c : Char} {pieces : List (List Char)}
    (h : c ∈ [sep].intercalate pieces) : c = sep ∨ ∃ piece ∈ pieces, c ∈ piece := by
  induction pieces with
  | nil => exact absurd h List.not_mem_nil
  | cons piece pieces ih =>
      cases pieces with
      | nil =>
          rw [List.intercalate_singleton] at h
          exact .inr ⟨piece, List.mem_cons_self, h⟩
      | cons piece' pieces =>
          rw [List.intercalate_cons_cons, List.mem_append, List.mem_append,
            List.mem_singleton] at h
          rcases h with (h | h) | h
          · exact .inr ⟨piece, List.mem_cons_self, h⟩
          · exact .inl h
          · exact (ih h).imp_right fun ⟨piece'', hmem, hc⟩ =>
              ⟨piece'', List.mem_cons_of_mem _ hmem, hc⟩

/-- A line of such fields has no line feed. -/
theorem notMem_tsvLine (fields : List String) : '\n' ∉ tsvLine fields := by
  intro hmem
  rcases mem_intercalate hmem with h | ⟨piece, hpiece, hc⟩
  · cases h
  · obtain ⟨field, -, rfl⟩ := List.mem_map.mp hpiece
    exact notMem_escapeTsv (.inr rfl) field hc

/-- Lines that each end with a line feed. -/
theorem splitOn_lines {lines : List (List Char)} (h : ∀ line ∈ lines, '\n' ∉ line) :
    (lines.flatMap (· ++ ['\n'])).splitOn '\n' = lines ++ [[]] := by
  induction lines with
  | nil => rfl
  | cons line lines ih =>
      obtain ⟨hline, hlines⟩ := List.forall_mem_cons.mp h
      rw [List.flatMap_cons, List.append_assoc, List.singleton_append,
        List.splitOn_append_cons_self_of_not_mem hline, ih hlines, List.cons_append]

/-- The fields of a line are those it was written from. -/
theorem read_tsvLine {fields : List String} (h : fields ≠ []) :
    ((tsvLine fields).splitOn '\t').map (fun field => String.ofList (unescapeTsv field)) =
      fields := by
  have hclean : ∀ piece ∈ fields.map escapeTsv, '\t' ∉ piece := by
    intro piece hpiece
    obtain ⟨field, -, rfl⟩ := List.mem_map.mp hpiece
    exact notMem_escapeTsv (.inl rfl) field
  rw [tsvLine, List.splitOn_intercalate '\t' hclean (by simpa using h), List.map_map]
  refine (List.map_congr_left fun field _ => ?_).trans (List.map_id fields)
  rw [Function.comp_apply, escapeTsv, unescapeTsv_flatMap, String.ofList_toList]
  rfl

/-- A table with columns has no line without fields. -/
theorem Table.lines_ne_nil {t : Table} (h : t.columnNames ≠ []) :
    ∀ fields ∈ t.lines, fields ≠ [] := by
  intro fields hfields
  rcases List.mem_cons.mp hfields with rfl | hrow
  · exact h
  · rintro rfl
    exact h (List.eq_nil_of_length_eq_zero (t.width [] hrow).symm)

/-- The lines of a table with columns are read back from its TSV text. -/
theorem readTsv_renderTsv {t : Table} (h : t.columnNames ≠ []) :
    readTsv (renderTsv t) = t.lines := by
  have hlines : renderTsv t = (t.lines.map tsvLine).flatMap (· ++ ['\n']) := by
    rw [renderTsv, List.flatMap_map]
  have hclean : ∀ line ∈ t.lines.map tsvLine, '\n' ∉ line := by
    intro line hline
    obtain ⟨fields, -, rfl⟩ := List.mem_map.mp hline
    exact notMem_tsvLine fields
  rw [readTsv, hlines, splitOn_lines hclean, List.dropLast_concat, List.map_map]
  refine (List.map_congr_left fun fields hfields => ?_).trans (List.map_id t.lines)
  exact read_tsvLine (t.lines_ne_nil h fields hfields)

/-! ## JSON -/

/-- What `json_quote` writes for a character: an escape of two characters that stands for it, a `\u`
escape with its code, or the character. -/
theorem jsonQuoteChar_cases (c : Char) :
    (∃ e, jsonQuoteChar c = ['\\', e] ∧ 0x20 ≤ e.toNat ∧
      ∀ rest, JsonString.char ('\\' :: e :: rest) = some (c, rest)) ∨
    c.toNat < 0x20 ∧ jsonQuoteChar c = '\\' :: 'u' :: JsonString.hex4 c.toNat ∨
    (c ≠ '"' ∧ c ≠ '\\' ∧ 0x20 ≤ c.toNat) ∧ jsonQuoteChar c = [c] := by
  unfold jsonQuoteChar
  split
  case h_8 hquote hback _ _ _ _ _ =>
    split
    · exact .inr (.inl ⟨‹_›, rfl⟩)
    · exact .inr (.inr ⟨⟨hquote, hback, Nat.le_of_not_lt ‹_›⟩, rfl⟩)
  all_goals exact .inl ⟨_, rfl, by decide, fun _ => rfl⟩

/-- The first character of a literal is read back, and the rest is left. -/
theorem char_jsonQuoteChar (c : Char) (rest : List Char) :
    JsonString.char (jsonQuoteChar c ++ rest) = some (c, rest) := by
  rcases jsonQuoteChar_cases c with ⟨e, h, -, hchar⟩ | ⟨hc, h⟩ | ⟨⟨hquote, hback, hc⟩, h⟩
  · rw [h]
    exact hchar rest
  · have hescape := @JsonString.unicodeEscape_hex4 c.toNat (by omega) rest
    rw [h, List.cons_append, List.cons_append, JsonString.char, hescape, Char.ofNat_toNat]
  · rw [h]
    exact JsonString.char_plain hquote hback hc rest

/-- So are all characters up to the closing quote. -/
theorem body_jsonQuote (text : List Char) :
    JsonString.body (text.flatMap jsonQuoteChar ++ ['"']) = some text := by
  induction text with
  | nil => rw [List.flatMap_nil, List.nil_append, JsonString.body, if_pos rfl]
  | cons c text ih =>
      rw [List.flatMap_cons, List.append_assoc,
        JsonString.body_cons (char_jsonQuoteChar c _), ih, Option.map_some]

/-- `json_quote` writes a JSON literal for the text. -/
theorem decode_jsonQuote (s : String) : JsonString.decode (jsonQuote s) = some s.toList := by
  rw [jsonQuote, JsonString.decode, body_jsonQuote]

/-- A hex digit is no control character. -/
theorem hexDigit_ge {n : Nat} (h : n < 16) : 0x20 ≤ (JsonString.hexDigit n).toNat := by
  revert n
  decide

/-- A literal has no raw control character. -/
theorem jsonQuote_ge (s : String) : ∀ c ∈ jsonQuote s, 0x20 ≤ c.toNat := by
  have hescape : ∀ c d, d ∈ jsonQuoteChar c → 0x20 ≤ d.toNat := by
    intro c d hd
    have hdigit (n : Nat) : 0x20 ≤ (JsonString.hexDigit (n % 0x10)).toNat :=
      hexDigit_ge (Nat.mod_lt n (by decide))
    rcases jsonQuoteChar_cases c with ⟨e, h, he, -⟩ | ⟨-, h⟩ | ⟨⟨-, -, hc⟩, h⟩
    · rw [h, List.mem_cons, List.mem_singleton] at hd
      rcases hd with rfl | rfl
      · decide
      · exact he
    · rw [h] at hd
      simp only [JsonString.hex4, List.mem_cons, List.not_mem_nil, or_false] at hd
      rcases hd with rfl | rfl | rfl | rfl | rfl | rfl
      · decide
      · decide
      · exact hdigit _
      · exact hdigit _
      · exact hdigit _
      · exact hdigit _
    · rw [h, List.mem_singleton] at hd
      rwa [hd]
  intro c hc
  rw [jsonQuote, List.mem_cons, List.mem_append, List.mem_singleton] at hc
  rcases hc with rfl | hc | rfl
  · decide
  · obtain ⟨d, -, hd⟩ := List.mem_flatMap.mp hc
    exact hescape d c hd
  · decide

/-! ## CSV -/

/-- The cell that a field reads back as. -/
def csvCell (s : String) : Cell := { text := s, quoted := needsQuotes s }

/-- A cell without quotes has no comma, quote or line break. -/
theorem needsQuotes_eq_false {s : String} (h : needsQuotes s = false) :
    ∀ c ∈ s.toList, c ≠ ',' ∧ c ≠ '"' ∧ ¬ isNewline c := by
  simp only [needsQuotes, Bool.or_eq_false_iff, List.contains_eq_mem, decide_eq_false_iff_not] at h
  obtain ⟨⟨⟨hcomma, hquote⟩, hlf⟩, hcr⟩ := h
  refine fun c hc => ⟨?_, ?_, ?_⟩
  · rintro rfl
    exact hcomma hc
  · rintro rfl
    exact hquote hc
  · rintro (rfl | rfl)
    · exact hlf hc
    · exact hcr hc

/-- Such a cell may be written without quotes. -/
theorem csvCell_writable (s : String) : (csvCell s).Writable ',' '"' := needsQuotes_eq_false

/-- Doubling the quotes, character by character. -/
theorem double_eq (text : List Char) :
    Csv.double '"' text = text.flatMap fun c => if c = '"' then ['"', c] else [c] := by
  induction text with
  | nil => rfl
  | cons c text ih =>
      rw [Csv.double, List.flatMap_cons, ih]
      split
      · rename_i hc
        rw [hc]
        rfl
      · rfl

/-- `csv_escape` writes the cell as a CSV writer does that quotes where it must. -/
theorem csvEscape_eq (s : String) : csvEscape s = (csvCell s).write '"' := by
  rw [csvEscape, Cell.write, csvCell, quoteField, double_eq]
  cases needsQuotes s <;> rfl

/-- A row is written as the line of its cells. -/
theorem writeCsvRow_eq (fields : List String) :
    writeCsvRow fields = writeCells ',' '"' (fields.map csvCell) ++ ['\n'] := by
  rw [writeCsvRow]
  congr 1
  induction fields with
  | nil => rfl
  | cons field fields ih =>
      cases fields with
      | nil =>
          rw [List.map_singleton, List.intercalate_singleton]
          exact csvEscape_eq field
      | cons field' fields =>
          rw [List.map_cons] at ih
          rw [List.map_cons, List.map_cons, List.intercalate_cons_cons, ih, csvEscape_eq,
            List.append_assoc]
          rfl

/-- `render_csv` writes the lines of the table with commas, quotes and line feeds. -/
theorem renderCsv_eq (t : Table) :
    renderCsv t = writeTableCells ',' '"' .lf (t.lines.map fun fields => fields.map csvCell) := by
  rw [renderCsv]
  generalize t.lines = lines
  induction lines with
  | nil => rfl
  | cons fields lines ih =>
      rw [List.flatMap_cons, List.map_cons, writeTableCells, ih, writeCsvRow_eq]
      rfl

/-- A record of several fields begins with no newline, and with a byte-order mark only where its
first field does. -/
theorem head_csvCells {field : String} {fields : List String} (h : fields ≠ []) :
    ∃ c tail, writeCells ',' '"' ((field :: fields).map csvCell) = c :: tail ∧ ¬ isNewline c ∧
      (c = '\ufeff' → field.toList.head? = some '\ufeff') := by
  obtain ⟨rest, hrecord, ⟨hnil, -⟩ | ⟨-, rfl⟩⟩ :=
    Csv.writeCells_cons ',' '"' (csvCell field) (fields.map csvCell)
  · exact absurd (List.map_eq_nil_iff.mp hnil) h
  rw [List.map_cons, hrecord, Cell.write, csvCell]
  dsimp only
  cases hquoted : needsQuotes field with
  | true => exact ⟨'"', _, rfl, by simp [isNewline], fun h => absurd h (by decide)⟩
  | false =>
      rw [if_neg Bool.false_ne_true]
      cases htext : field.toList with
      | nil => exact ⟨',', _, rfl, by simp [isNewline], fun h => absurd h (by decide)⟩
      | cons c tail =>
          have hclean := needsQuotes_eq_false hquoted c (by rw [htext]; exact List.mem_cons_self)
          exact ⟨c, _, rfl, hclean.2.2, fun h => by rw [h]; rfl⟩

/-- The reader of the import reads the lines of a table with two columns or more back from its CSV
text, if the dialect has commas and quotes and the bounds hold the fields and the records. -/
theorem readCsv_renderCsv (t : Table) (opts : Csv.Options) (chunks : List Bytes)
    (hdelimiter : opts.delimiter = ',') (hquote : opts.quote = '"')
    (hmultiline : opts.multiline = true) (hlegacy : opts.legacyQuoting = false)
    (htrim : opts.trimStrings = false) (hcolumns : 2 ≤ t.columnNames.length)
    (hmark : ∀ name ∈ t.columnNames.head?, name.toList.head? ≠ some '\ufeff')
    (hfields : ∀ fields ∈ t.lines, ∀ field ∈ fields, (asBytes field).length ≤ opts.bufferBytes)
    (hrecords : ∀ fields ∈ t.lines, (encodeAll (writeCsvRow fields)).length ≤
      max (opts.memoryBytes / 2) (opts.bufferBytes * 2))
    (hchunks : ∀ c ∈ chunks, c ≠ []) (hbytes : chunks.flatten = encodeAll (renderCsv t)) :
    ∀ n > chunks.flatten.length, ∃ rows,
      Csv.readAll Csv.Reader.next n (Csv.Reader.new { buffer := [], chunks } opts) =
        some (rows, none) ∧
      rows.map (fun row => row.cells.map Cell.text) = t.lines := by
  intro n hn
  have htwo : ∀ fields ∈ t.lines, 2 ≤ fields.length := by
    intro fields hmem
    rcases List.mem_cons.mp hmem with rfl | hrow
    · exact hcolumns
    · rw [t.width fields hrow]
      exact hcolumns
  have hlead : ∀ fields ∈ t.lines, ∃ field more, fields = field :: more ∧ more ≠ [] := by
    intro fields hmem
    have hlength := htwo fields hmem
    rcases fields with _ | ⟨field, _ | ⟨field', more⟩⟩
    · exact absurd hlength (by simp)
    · exact absurd hlength (by simp)
    · exact ⟨field, field' :: more, rfl, by simp⟩
  have hquoting : (Csv.Reader.new { buffer := [], chunks } opts).dialect.Quoting := by
    refine ⟨hlegacy, htrim, ?_, ?_, ?_⟩
    · change opts.delimiter ≠ opts.quote
      rw [hdelimiter, hquote]
      decide
    · change ¬ isNewline opts.delimiter
      rw [hdelimiter]
      simp [isNewline]
    · change ¬ isNewline opts.quote
      rw [hquote]
      simp [isNewline]
  have hwrites : ∀ cells ∈ t.lines.map (fun fields => fields.map csvCell),
      (Csv.Reader.new { buffer := [], chunks } opts).dialect.Writes .lf
        (max (opts.memoryBytes / 2) (opts.bufferBytes * 2)) cells := by
    intro cells hmem
    obtain ⟨fields, hline, rfl⟩ := List.mem_map.mp hmem
    obtain ⟨field, more, rfl, hmore⟩ := hlead fields hline
    obtain ⟨c, tail, hhead, hc, -⟩ := @head_csvCells field more hmore
    refine ⟨?_, fun cell hcell => ?_, fun cell hcell => ?_, ?_, c, tail, ?_, hc⟩
    · rintro ⟨⟩
    · obtain ⟨s, -, rfl⟩ := List.mem_map.mp hcell
      change (csvCell s).Writable opts.delimiter opts.quote
      rw [hdelimiter, hquote]
      exact csvCell_writable s
    · obtain ⟨s, hs, rfl⟩ := List.mem_map.mp hcell
      exact asBytes_eq s ▸ hfields _ hline s hs
    · change (encodeAll (writeCells opts.delimiter opts.quote _ ++ ['\n'])).length ≤ _
      rw [hdelimiter, hquote, ← writeCsvRow_eq]
      exact hrecords _ hline
    · change writeCells opts.delimiter opts.quote _ = c :: tail
      rw [hdelimiter, hquote]
      exact hhead
  have hfirst : ∀ cells ∈ (t.lines.map fun fields => fields.map csvCell).head?,
      (writeCells opts.delimiter opts.quote cells).head? ≠ some '\ufeff' := by
    intro cells hmem
    obtain ⟨field, more, hnames, hmore⟩ := hlead t.columnNames List.mem_cons_self
    obtain rfl : t.columnNames.map csvCell = cells := Option.some.inj hmem
    obtain ⟨c, tail, hhead, -, hc⟩ := @head_csvCells field more hmore
    rw [hdelimiter, hquote, hnames, hhead]
    intro heq
    exact hmark field (by rw [hnames]; rfl) (hc (Option.some.inj heq))
  rw [renderCsv_eq, ← hdelimiter, ← hquote] at hbytes
  have hround := Csv.cells_round_trip opts .lf (t.lines.map fun fields => fields.map csvCell) chunks
    rfl hquoting hmultiline hwrites hfirst hchunks hbytes n hn
  refine ⟨_, hround, ?_⟩
  have htexts (rows : List Csv.Row) : rows.map (fun row => row.cells.map Cell.text) =
      (rows.map Csv.Row.cells).map fun cells => cells.map Cell.text := by
    rw [List.map_map]
    rfl
  rw [htexts, Csv.rowsOfCells_cells, List.map_map]
  refine (List.map_congr_left fun fields _ => ?_).trans (List.map_id t.lines)
  rw [Function.comp_apply, List.map_map]
  exact List.map_id fields

/-- The outputs are lossless: the TSV text splits back into the header and the fields, a JSON
literal decodes to its text and has no raw control character, and the CSV reader of the import gives
the header and the rows back from the CSV text, whatever chunks its bytes come in. -/
theorem outputs_lossless :
    (∀ t : Table, t.columnNames ≠ [] → readTsv (renderTsv t) = t.lines) ∧
    (∀ s : String, JsonString.decode (jsonQuote s) = some s.toList ∧
      ∀ c ∈ jsonQuote s, 0x20 ≤ c.toNat) ∧
    ∀ (t : Table) (opts : Csv.Options) (chunks : List Bytes),
      opts.delimiter = ',' → opts.quote = '"' → opts.multiline = true →
      opts.legacyQuoting = false → opts.trimStrings = false → 2 ≤ t.columnNames.length →
      (∀ name ∈ t.columnNames.head?, name.toList.head? ≠ some '\ufeff') →
      (∀ fields ∈ t.lines, ∀ field ∈ fields, (asBytes field).length ≤ opts.bufferBytes) →
      (∀ fields ∈ t.lines, (encodeAll (writeCsvRow fields)).length ≤
        max (opts.memoryBytes / 2) (opts.bufferBytes * 2)) →
      (∀ c ∈ chunks, c ≠ []) → chunks.flatten = encodeAll (renderCsv t) →
      ∀ n > chunks.flatten.length, ∃ rows,
        Csv.readAll Csv.Reader.next n (Csv.Reader.new { buffer := [], chunks } opts) =
          some (rows, none) ∧
        rows.map (fun row => row.cells.map Cell.text) = t.lines :=
  ⟨fun _ => readTsv_renderTsv, fun s => ⟨decode_jsonQuote s, jsonQuote_ge s⟩, readCsv_renderCsv⟩

/-- A table with an empty name, and a field with a line feed and a quote in it. -/
theorem outputs_lossless_small :
    ∃ rows, Csv.readAll Csv.Reader.next 20 (Csv.Reader.new
        { buffer := [], chunks := [[44, 98, 10, 34, 99, 10], [34, 34, 34, 44, 10]] }
        Csv.sampleOptions) = some (rows, none) ∧
      rows.map (fun row => row.cells.map Cell.text) = [["", "b"], ["c\n\"", ""]] :=
  outputs_lossless.2.2
    { columnNames := ["", "b"], rows := [["c\n\"", ""]], width := by decide } Csv.sampleOptions
    [[44, 98, 10, 34, 99, 10], [34, 34, 34, 44, 10]] rfl rfl rfl rfl rfl (by decide) (by decide)
    (by decide) (by decide) (by decide) (by decide) 20 (by decide)

end Velr.Output
