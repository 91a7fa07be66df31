import Velr.Csv.Parse

/-!
# The CSV reader

`CsvReader` of `import/csv.rs`. Its input is a `BufReader`: the bytes it holds, and the chunks in
which the underlying reader will hand out the rest. `next_borrowed` has a fast path for a line
without quotes that lies in the buffer as a whole, and a slow path that assembles physical lines;
`Reader.nextSlow` is the slow path alone.
-/

namespace Velr.Csv

open ByteString Utf8

/-- The fields of `Options` that the reader uses. -/
structure Options where
  delimiter : Char
  quote : Char
  multiline : Bool
  legacyQuoting : Bool
  trimStrings : Bool
  bufferBytes : Nat
  memoryBytes : Nat

/-- `BufReader`: the buffered bytes and the chunks to come. -/
structure Input where
  buffer : Bytes
  chunks : List Bytes
deriving DecidableEq

/-- `fill_buf`; a chunk of no bytes is the end of the file. -/
def Input.fill (input : Input) : Input :=
  match input.buffer, input.chunks with
  | [], chunk :: chunks => { buffer := chunk, chunks }
  | _, _ => input

/-- `consume` -/
def Input.consume (input : Input) (count : Nat) : Input :=
  { input with buffer := input.buffer.drop count }

/-- All bytes to come. -/
def Input.rest (input : Input) : Bytes := input.buffer ++ input.chunks.flatten

/-- `CsvReader`. The fields `raw`, `fields` and `record_line` only carry a record from one call to
its caller; they are in `Record`. -/
structure Reader where
  input : Input
  dialect : Dialect
  multiline : Bool
  recordLimit : Nat
  first : Bool
  pendingConsume : Nat
  line : Nat

/-- `Record`, with its `record_line`. -/
structure Record where
  line : Nat
  raw : Bytes
  fields : List Field
deriving DecidableEq

/-- `CsvReader::with_input_capacity`; the capacity bounds the chunks. -/
def Reader.new (input : Input) (opts : Options) : Reader where
  input
  dialect :=
    { delimiter := opts.delimiter
      quote := opts.quote
      legacy := opts.legacyQuoting
      trim := opts.trimStrings
      limit := opts.bufferBytes }
  multiline := opts.multiline
  recordLimit := max (opts.memoryBytes / 2) (opts.bufferBytes * 2)
  first := true
  pendingConsume := 0
  line := 0

/-! ## Physical lines -/

/-- Filling the buffer takes nothing from the rest. -/
theorem rest_fill (input : Input) : input.fill.rest = input.rest := by
  unfold Input.fill
  split
  · next h1 h2 => simp [Input.rest, h1, h2]
  · rfl

theorem length_rest_consume {input : Input} {count : Nat} (h : count ≤ input.buffer.length) :
    (input.consume count).rest.length + count = input.rest.length := by
  simp only [Input.consume, Input.rest, List.length_append, List.length_drop]
  omega

/-- `memchr::memchr2(b'\n', b'\r', chunk)` -/
def findNewline (chunk : Bytes) : Option Nat := chunk.findIdx? fun b => b == lf || b == cr

/-- How much of a chunk belongs to the line. -/
def lineCount (chunk : Bytes) : Nat :=
  match findNewline chunk with
  | some index => index + 1
  | none => chunk.length

/-- A chunk has a line at least. -/
theorem lineCount_pos {chunk : Bytes} (h : chunk ≠ []) : 0 < lineCount chunk := by
  unfold lineCount
  split
  · exact Nat.succ_pos _
  · exact List.length_pos_iff.mpr h

theorem lineCount_le (chunk : Bytes) : lineCount chunk ≤ chunk.length := by
  unfold lineCount
  split
  · next index h =>
      rw [findNewline, List.findIdx?_eq_some_iff_getElem] at h
      obtain ⟨hlt, _⟩ := h
      exact hlt
  · exact Nat.le_refl _

/-- `physical_line`: the bytes read, the input behind them and the bytes in `output`. -/
def physicalLine (maximum : Nat) (input : Input) (output : Bytes) (total : Nat) :
    Except String (Nat × Input × Bytes) :=
  let chunk := input.fill.buffer
  if _hchunk : chunk = [] then .ok (total, input.fill, output)
  else
    let count := lineCount chunk
    if maximum < output.length + count then
      .error "CSV record exceeds bounded import memory; increase --max-off-heap-memory"
    else
      let output := output ++ chunk.take count
      let input' := input.fill.consume count
      if (findNewline chunk).isSome then
        if chunk[count - 1]? = some cr ∧ input'.fill.buffer.head? = some lf then
          if output.length = maximum then .error "CSV record exceeds bounded import memory"
          else .ok (total + count + 1, input'.fill.consume 1, output ++ [lf])
        else if chunk[count - 1]? = some cr then .ok (total + count, input'.fill, output)
        else .ok (total + count, input', output)
      else physicalLine maximum input' output (total + count)
termination_by input.rest.length
decreasing_by
  have hpos : 0 < lineCount input.fill.buffer := lineCount_pos _hchunk
  have hlen := length_rest_consume (lineCount_le input.fill.buffer)
  rw [rest_fill] at hlen
  change (input.fill.consume (lineCount input.fill.buffer)).rest.length < input.rest.length
  omega

/-- What a line takes is gone from the input. -/
theorem physicalLine_length {maximum : Nat} {input input' : Input} {output output' : Bytes}
    {total read : Nat} (h : physicalLine maximum input output total = .ok (read, input', output')) :
    input'.rest.length + read = input.rest.length + total := by
  have hconsume (input : Input) :
      (input.fill.consume (lineCount input.fill.buffer)).rest.length +
        lineCount input.fill.buffer = input.rest.length := by
    rw [← rest_fill input]
    exact length_rest_consume (lineCount_le _)
  fun_induction physicalLine maximum input output total with
  | case1 input output total =>
      cases h
      rw [rest_fill]
  | case2 | case3 => cases h
  | case4 input output total _ _ count _ _ next _ hlf =>
      have hline : next.rest.length + count = input.rest.length := hconsume input
      have hbuffer : 1 ≤ next.fill.buffer.length := List.length_pos_iff.mpr fun hnil => by
        rw [hnil] at hlf
        exact absurd hlf.2 (by simp)
      have hone := length_rest_consume hbuffer
      rw [rest_fill] at hone
      simp only [Except.ok.injEq, Prod.mk.injEq] at h
      obtain ⟨hread, hinput, -⟩ := h
      rw [← hread, ← hinput]
      omega
  | case5 input output total _ _ count _ _ next =>
      have hline : next.rest.length + count = input.rest.length := hconsume input
      simp only [Except.ok.injEq, Prod.mk.injEq] at h
      obtain ⟨hread, hinput, -⟩ := h
      rw [← hread, ← hinput, rest_fill]
      omega
  | case6 input output total _ _ count _ _ next =>
      have hline : next.rest.length + count = input.rest.length := hconsume input
      simp only [Except.ok.injEq, Prod.mk.injEq] at h
      obtain ⟨hread, hinput, -⟩ := h
      rw [← hread, ← hinput]
      omega
  | case7 input output total _ _ count _ _ next _ ih =>
      have hline : next.rest.length + count = input.rest.length := hconsume input
      have := ih h
      omega

/-! ## Records -/

/-- A line that is only a terminator. -/
def isBlank (raw : Bytes) : Bool := raw == [lf] || raw == [cr, lf] || raw == [cr]

/-- `"\u{feff}"`, the byte-order mark. -/
def byteOrderMark : Bytes := [0xef, 0xbb, 0xbf]

/-- `self.raw.drain(..3)` where the first line starts with a byte-order mark. -/
def dropMark (first : Bool) (raw : Bytes) : Bytes :=
  if first && byteOrderMark.isPrefixOf raw then raw.drop 3 else raw

/-- The end of `next_borrowed`: the record is valid UTF-8. -/
def checked (r : Reader) (record : Record) : Except String (Option Record × Reader) :=
  match fromUtf8 record.raw with
  | none => .error "CSV field is not valid UTF-8"
  | some _ => .ok (some record, r)

/-- The loop of the slow path: `raw` holds the physical lines of the record so far, which began at
`record_line`. -/
def assemble (r : Reader) (raw : Bytes) (recordLine : Nat) :
    Except String (Option Record × Reader) :=
  match _hline : physicalLine r.recordLimit r.input raw 0 with
  | .error e => .error s!"line {recordLine}: {e}"
  | .ok (read, input, raw) =>
      if _hread : read = 0 then
        if raw.isEmpty then .ok (none, { r with input })
        else
          match parseRecord r.dialect raw with
          | .error e => .error e
          | .ok .more => .error s!"line {recordLine}: unclosed quoted field"
          | .ok (.complete fields) => checked { r with input } { line := recordLine, raw, fields }
      else
        let raw := dropMark r.first raw
        let r := { r with input, first := false, line := r.line + 1 }
        if isBlank raw then assemble r [] (r.line + 1)
        else
          match parseRecord r.dialect raw with
          | .error e => .error e
          | .ok (.complete fields) => checked r { line := recordLine, raw, fields }
          | .ok .more =>
              if r.multiline then assemble r raw recordLine
              else
                .error (s!"line {recordLine}: multiline quoted field requires " ++
                  "--multiline-fields=true")
termination_by r.input.rest.length
decreasing_by
  all_goals
    have := physicalLine_length _hline
    simp_wf
    omega

/-- The slow path of `next_borrowed`. -/
def Reader.nextSlow (r : Reader) : Except String (Option Record × Reader) :=
  assemble { r with input := r.input.consume r.pendingConsume, pendingConsume := 0 } [] (r.line + 1)

/-- How much of the buffer a line that ends at `stop` takes. A carriage return at the buffer's end
leaves open whether a line feed belongs to it. -/
def bufferedCount (bytes : Bytes) (stop : Nat) : Option Nat :=
  if bytes[stop]? = some cr then
    if stop + 1 = bytes.length then none
    else if bytes[stop + 1]? = some lf then some (stop + 2)
    else some (stop + 1)
  else some (stop + 1)

/-- The line without quotes at the front of the buffer: its end, and how much it takes with its
terminator. -/
def bufferedLine (r : Reader) (bytes : Bytes) : Option (Nat × Nat) :=
  match encode r.dialect.quote with
  | [quote] =>
      if r.first then none
      else
        -- `memchr::memchr3(quote, b'\n', b'\r', bytes)`
        match bytes.findIdx? fun b => b == quote || b == lf || b == cr with
        | none => none
        | some stop =>
            if bytes[stop]? = some quote then none
            else
              match bufferedCount bytes stop with
              | none => none
              | some count =>
                  if stop ≠ 0 ∧ count ≤ r.recordLimit then some (stop, count) else none
  | _ => none

/-- `next_borrowed` -/
def Reader.next (r : Reader) : Except String (Option Record × Reader) :=
  let r := { r with input := (r.input.consume r.pendingConsume).fill, pendingConsume := 0 }
  match bufferedLine r r.input.buffer with
  | some (stop, count) =>
      let bytes := r.input.buffer.take count
      let recordLine := r.line + 1
      match parseUnquotedRecord (bytes.take stop) r.dialect.delimiter r.dialect.limit with
      | .error e => .error e
      | .ok fields =>
          checked { r with line := r.line + 1, pendingConsume := count }
            { line := recordLine, raw := bytes, fields }
  | none => assemble r [] (r.line + 1)

/-! ## Cells -/

/-- `Cell` -/
structure Cell where
  text : String
  quoted : Bool
deriving DecidableEq

/-- `&raw[start..stop]` of a string: it panics unless both ends are boundaries. -/
def strSlice (raw : Bytes) (start stop : Nat) : Option String :=
  if start ≤ stop ∧ stop ≤ raw.length ∧ isCharBoundary raw start ∧ isCharBoundary raw stop then
    fromUtf8 (between raw start stop)
  else none

/-- A cell of `Record::iter`. -/
def Field.cell (raw : Bytes) (field : Field) : Option Cell :=
  match field.text with
  | .span start stop => (strSlice raw start stop).map fun text => { text, quoted := field.quoted }
  | .decoded text => some { text, quoted := field.quoted }

/-- `Record::iter`; `none` when it panics. -/
def Record.cells (record : Record) : Option (List Cell) :=
  record.fields.mapM (Field.cell record.raw)

/-- A record as its caller sees it. -/
structure Row where
  line : Nat
  cells : List Cell
deriving DecidableEq

/-- The rows and the first error that `n` calls of `next` deliver; `none` when one panics or the
input has not ended. -/
def readAll (next : Reader → Except String (Option Record × Reader)) :
    Nat → Reader → Option (List Row × Option String)
  | 0, _ => none
  | n + 1, r =>
      match next r with
      | .error e => some ([], some e)
      | .ok (none, _) => some ([], none)
      | .ok (some record, r) => do
          let cells ← record.cells
          let (rows, error) ← readAll next n r
          some ({ line := record.line, cells } :: rows, error)

end Velr.Csv
