import Velr.Common.Streams
import Velr.Csv.Transparent

/-!
# The first record of an input that may fail

`CsvReader::for_header(..).next()`: the header record, read through a `BufReader` over a reader
whose calls may fail. A reader that has read nothing takes the slow path of `next_borrowed`. What it
delivers depends on the stream alone; on a stream that is cut short by an error of its own it
delivers the same or that error (`headerRecord_shortened`).
-/

namespace Velr.Csv

open ByteString Utf8
open Reading (Stream LawfulTryRead BufReader)

/-- An `io::Error`: its text, and whether the reader raised it that stops at a limit. -/
structure ReadError where
  message : String
  exceeded : Bool
deriving DecidableEq

/-- An error of the CSV reader itself. -/
def csvError (message : String) : ReadError := ⟨message, false⟩

variable {R : Type} [LawfulTryRead ReadError R]

/-- What is left decreases. -/
def left (input : BufReader R) : Nat := input.stream.bytes.length

/-- Consuming leaves that much less. -/
theorem left_consume {input input' : BufReader R} {count : Nat} (h : input.tryFillBuf = .ok input')
    (hcount : count ≤ input'.buffer.length) :
    left (input'.consume count) + count = left input := by
  have hlength := (input'.buffer_prefix_stream).length_le
  rw [left, left, BufReader.stream_consume hcount, ← BufReader.stream_tryFillBuf h,
    List.length_drop]
  omega

/-- `physical_line`: the bytes read, the input behind them and the bytes in `output`. -/
def streamLine (maximum : Nat) (input : BufReader R) (output : Bytes) (total : Nat) :
    Except ReadError (Nat × BufReader R × Bytes) :=
  match _hfill : input.tryFillBuf with
  | .error e => .error e
  | .ok filled =>
      let chunk := filled.buffer
      if _hchunk : chunk = [] then .ok (total, filled, output)
      else
        let count := lineCount chunk
        if maximum < output.length + count then
          .error (csvError
            "CSV record exceeds bounded import memory; increase --max-off-heap-memory")
        else
          let output := output ++ chunk.take count
          let behind := filled.consume count
          if (findNewline chunk).isSome then
            if chunk[count - 1]? = some cr then
              match behind.tryFillBuf with
              | .error e => .error e
              | .ok next =>
                  if next.buffer.head? = some lf then
                    if output.length = maximum then
                      .error (csvError "CSV record exceeds bounded import memory")
                    else .ok (total + count + 1, next.consume 1, output ++ [lf])
                  else .ok (total + count, next, output)
            else .ok (total + count, behind, output)
          else streamLine maximum behind output (total + count)
termination_by left input
decreasing_by
  have hpos : 0 < lineCount filled.buffer := lineCount_pos _hchunk
  have hleft := left_consume _hfill (lineCount_le filled.buffer)
  change left (filled.consume (lineCount filled.buffer)) < left input
  omega

/-! ## Lines of a stream -/

/-- The line at the front of a stream. The end of the stream is found where the line reaches it
without a line feed: behind a carriage return the next byte is looked at. -/
def lineAt (maximum : Nat) (s : Stream ReadError) (output : Bytes) :
    Except ReadError (Nat × Stream ReadError × Bytes) :=
  match lineOf maximum s.bytes output with
  | .error message => .error (csvError message)
  | .ok (count, rest, line) =>
      if rest = [] ∧ s.bytes.getLast? ≠ some lf then
        match s.failure with
        | some e => .error e
        | none => .ok (count, ⟨rest, s.failure⟩, line)
      else .ok (count, ⟨rest, s.failure⟩, line)

/-- `streamLine` reads what `lineAt` says, on top of `total`. -/
def ReadsAt (total : Nat) :
    Except ReadError (Nat × BufReader R × Bytes) →
      Except ReadError (Nat × Stream ReadError × Bytes) → Prop
  | .error e, .error e' => e = e'
  | .ok (read, input, output), .ok (count, rest, output') =>
      read = total + count ∧ input.stream = rest ∧ output = output'
  | _, _ => False

/-- What is read behind a part is read behind it. -/
theorem ReadsAt.skip {total count : Nat} {result : Except ReadError (Nat × BufReader R × Bytes)}
    {line : Except ReadError (Nat × Stream ReadError × Bytes)}
    (h : ReadsAt (total + count) result line) :
    ReadsAt total result (line.map fun (n, rest, output) => (count + n, rest, output)) := by
  cases result <;> cases line
  · exact h
  · exact h
  · exact h
  · exact ⟨by rw [h.1, Nat.add_assoc], h.2⟩

theorem getLast?_append_of_no_newline {chunk : Bytes} (hnewline : findNewline chunk = none)
    (rest : Bytes) : (chunk ++ rest).getLast? ≠ some lf ↔ rest.getLast? ≠ some lf := by
  rw [List.getLast?_append]
  cases hrest : rest.getLast? with
  | some b => rfl
  | none =>
      rw [Option.none_or]
      refine iff_of_true (fun hlast => ?_) nofun
      rw [findNewline, List.findIdx?_eq_none_iff] at hnewline
      have hlf := hnewline lf (List.mem_of_getLast? hlast)
      simp at hlf

/-- The line goes on behind a chunk without a newline. -/
theorem lineAt_skip {maximum : Nat} {chunk output : Bytes} {s : Stream ReadError}
    (hchunk : chunk ≠ []) (hnewline : findNewline chunk = none)
    (hfits : ¬maximum < output.length + chunk.length) :
    lineAt maximum ⟨chunk ++ s.bytes, s.failure⟩ output =
      (lineAt maximum s (output ++ chunk)).map fun (count, rest, output) =>
        (chunk.length + count, rest, output) := by
  rw [lineAt, lineAt, lineOf_skip hchunk hnewline hfits]
  cases lineOf maximum s.bytes (output ++ chunk) with
  | error message => rfl
  | ok found =>
      simp only [Except.map, getLast?_append_of_no_newline hnewline]
      split
      · cases s.failure <;> rfl
      · rfl

/-- A line that ends in the buffer. -/
theorem lineAt_of_newline {maximum : Nat} {s : Stream ReadError} {output : Bytes} {index : Nat}
    (hindex : findNewline s.bytes = some index)
    (hfits : ¬maximum < output.length + (index + 1)) :
    lineAt maximum s output =
      if s.bytes[index]? = some cr then
        if s.bytes[index + 1]? = some lf then
          if output.length + (index + 1) = maximum then
            .error (csvError "CSV record exceeds bounded import memory")
          else .ok (index + 2, ⟨s.bytes.drop (index + 2), s.failure⟩,
            output ++ s.bytes.take (index + 1) ++ [lf])
        else if s.bytes.drop (index + 1) = [] then
          match s.failure with
          | some e => .error e
          | none => .ok (index + 1, ⟨s.bytes.drop (index + 1), s.failure⟩,
              output ++ s.bytes.take (index + 1))
        else .ok (index + 1, ⟨s.bytes.drop (index + 1), s.failure⟩,
          output ++ s.bytes.take (index + 1))
      else .ok (index + 1, ⟨s.bytes.drop (index + 1), s.failure⟩,
        output ++ s.bytes.take (index + 1)) := by
  have hlt := findNewline_lt hindex
  have hend : s.bytes.drop (index + 1) = [] → s.bytes.getLast? = s.bytes[index]? := by
    intro hdrop
    rw [List.drop_eq_nil_iff] at hdrop
    rw [List.getLast?_eq_getElem?]
    congr 1
    omega
  rw [lineAt, lineOf, hindex]
  dsimp only
  rw [if_neg hfits]
  by_cases hcr : s.bytes[index]? = some cr
  · rw [if_pos hcr]
    by_cases hlf : s.bytes[index + 1]? = some lf
    · rw [if_pos ⟨hcr, hlf⟩, if_pos hlf]
      by_cases hmax : output.length + (index + 1) = maximum
      · rw [if_pos hmax, if_pos hmax]
      · rw [if_neg hmax, if_neg hmax]
        dsimp only
        have hlast : ¬(s.bytes.drop (index + 2) = [] ∧ s.bytes.getLast? ≠ some lf) := by
          rintro ⟨hdrop, hlast⟩
          rw [List.drop_eq_nil_iff] at hdrop
          have hone : index + 1 < s.bytes.length := (List.getElem?_eq_some_iff.mp hlf).1
          refine hlast ?_
          rw [List.getLast?_eq_getElem?, ← hlf]
          congr 1
          omega
        rw [if_neg hlast]
    · rw [if_neg (fun h => hlf h.2), if_neg hlf]
      dsimp only
      by_cases hdrop : s.bytes.drop (index + 1) = []
      · rw [if_pos ⟨hdrop, by rw [hend hdrop, hcr]; decide⟩, if_pos hdrop]
      · rw [if_neg (fun h => hdrop h.1), if_neg hdrop]
  · rw [if_neg (fun h => hcr h.1), if_neg hcr]
    dsimp only
    have hlast : ¬(s.bytes.drop (index + 1) = [] ∧ s.bytes.getLast? ≠ some lf) := by
      rintro ⟨hdrop, hlast⟩
      rw [hend hdrop] at hlast
      rw [findNewline, List.findIdx?_eq_some_iff_getElem] at hindex
      obtain ⟨hlt', hnewline, -⟩ := hindex
      rw [List.getElem?_eq_getElem hlt'] at hlast hcr
      simp only [Bool.or_eq_true, beq_iff_eq] at hnewline
      rcases hnewline with hnewline | hnewline
      · exact hlast (by rw [hnewline])
      · exact hcr (by rw [hnewline])
    rw [if_neg hlast]

/-- A newline in the buffer ends the line at the front of the stream. -/
theorem findNewline_stream {input : BufReader R} {index : Nat}
    (h : findNewline input.buffer = some index) :
    findNewline input.stream.bytes = some index ∧
      input.stream.bytes.take (index + 1) = input.buffer.take (index + 1) ∧
      input.stream.bytes[index]? = input.buffer[index]? := by
  have hlt := findNewline_lt h
  rw [BufReader.buffer_append]
  exact ⟨findNewline_append_some h _, List.take_append_of_le_length hlt,
    List.getElem?_append_left hlt⟩

/-- What a line is read from makes no difference. -/
theorem streamLine_reads (maximum : Nat) (input : BufReader R) (output : Bytes) (total : Nat) :
    ReadsAt total (streamLine maximum input output total)
      (lineAt maximum input.stream output) := by
  have hlast {chunk : Bytes} {index : Nat} (h : findNewline chunk = some index) :
      lineCount chunk = index + 1 := by
    rw [lineCount, h]
  have hline {output chunk : Bytes} {index : Nat} (h : findNewline chunk = some index) :
      (output ++ chunk.take (index + 1)).length = output.length + (index + 1) := by
    have hlt := findNewline_lt h
    rw [List.length_append, List.length_take]
    omega
  fun_induction streamLine maximum input output total with
  | case1 input output total e hfill =>
      rw [BufReader.stream_of_error hfill]
      rfl
  | case2 input output total filled hfill chunk hchunk =>
      obtain ⟨hstream, hstream'⟩ := BufReader.stream_of_buffer_nil hfill hchunk
      rw [hstream]
      exact ⟨rfl, hstream', by simp⟩
  | case3 input output total filled hfill chunk hchunk count hlong =>
      rw [← BufReader.stream_tryFillBuf hfill, lineAt]
      cases hindex : findNewline chunk with
      | some index =>
          have hcount : count = index + 1 := hlast hindex
          rw [hcount] at hlong
          rw [lineOf, (findNewline_stream hindex).1]
          dsimp only
          rw [if_pos hlong]
          rfl
      | none =>
          have hcount : count = chunk.length := by simp only [count, lineCount, hindex]
          rw [BufReader.buffer_append, lineOf_long hchunk hindex (hcount ▸ hlong)]
          rfl
  | case4 input output total filled hfill chunk hchunk count hfits behind hsome hcr e hnext =>
      obtain ⟨index, hindex⟩ := Option.isSome_iff_exists.mp hsome
      have hcount : count = index + 1 := hlast hindex
      obtain ⟨hnewline, htake, hget⟩ := findNewline_stream hindex
      have hbehind := BufReader.stream_of_error hnext
      rw [hcount, Nat.add_sub_cancel] at hcr
      simp only [behind, hcount] at hbehind
      rw [BufReader.stream_consume (findNewline_lt hindex), Stream.mk.injEq] at hbehind
      have hone : filled.stream.bytes[index + 1]? = none := by
        rw [List.getElem?_eq_none_iff]
        exact List.drop_eq_nil_iff.mp hbehind.1
      rw [← BufReader.stream_tryFillBuf hfill, lineAt_of_newline hnewline (hcount ▸ hfits),
        if_pos (hget.trans hcr), hone, if_neg (Option.some_ne_none _).symm,
          if_pos hbehind.1, hbehind.2]
      rfl
  | case5 input output total filled hfill chunk hchunk count hfits line behind hsome hcr next hnext
      hlf hmax =>
      obtain ⟨index, hindex⟩ := Option.isSome_iff_exists.mp hsome
      have hcount : count = index + 1 := hlast hindex
      obtain ⟨hnewline, htake, hget⟩ := findNewline_stream hindex
      have hhead := BufReader.head_tryFillBuf hnext
      rw [hcount, Nat.add_sub_cancel] at hcr
      simp only [behind, hcount] at hhead
      rw [BufReader.stream_consume (findNewline_lt hindex), List.head?_drop, hlf] at hhead
      simp only [line, hcount] at hmax
      rw [← BufReader.stream_tryFillBuf hfill, lineAt_of_newline hnewline (hcount ▸ hfits),
        if_pos (hget.trans hcr), if_pos hhead.symm, if_pos (by rw [← hline hindex]; exact hmax)]
      rfl
  | case6 input output total filled hfill chunk hchunk count hfits line behind hsome hcr next hnext
      hlf hmax =>
      obtain ⟨index, hindex⟩ := Option.isSome_iff_exists.mp hsome
      have hcount : count = index + 1 := hlast hindex
      obtain ⟨hnewline, htake, hget⟩ := findNewline_stream hindex
      have hhead := BufReader.head_tryFillBuf hnext
      have hstream := BufReader.stream_tryFillBuf hnext
      have hone : 1 ≤ next.buffer.length := by
        cases hbuffer : next.buffer with
        | nil => rw [hbuffer] at hlf; cases hlf
        | cons b buffer => simp
      rw [hcount, Nat.add_sub_cancel] at hcr
      simp only [behind, hcount] at hhead hstream
      rw [BufReader.stream_consume (findNewline_lt hindex)] at hhead hstream
      rw [List.head?_drop, hlf] at hhead
      simp only [line, hcount] at hmax
      rw [← BufReader.stream_tryFillBuf hfill, lineAt_of_newline hnewline (hcount ▸ hfits),
        if_pos (hget.trans hcr), if_pos hhead.symm, if_neg (by rw [← hline hindex]; exact hmax)]
      refine ⟨by omega, ?_, by simp only [line, hcount, htake, chunk]⟩
      rw [BufReader.stream_consume hone, hstream, List.drop_drop]
  | case7 input output total filled hfill chunk hchunk count hfits line behind hsome hcr next hnext
      hlf =>
      obtain ⟨index, hindex⟩ := Option.isSome_iff_exists.mp hsome
      have hcount : count = index + 1 := hlast hindex
      obtain ⟨hnewline, htake, hget⟩ := findNewline_stream hindex
      have hhead := BufReader.head_tryFillBuf hnext
      have hstream := BufReader.stream_tryFillBuf hnext
      have hend := fun h => (BufReader.stream_of_buffer_nil hnext h).1
      rw [hcount, Nat.add_sub_cancel] at hcr
      simp only [behind, hcount] at hhead hstream hend
      rw [BufReader.stream_consume (findNewline_lt hindex)] at hhead hstream hend
      rw [List.head?_drop] at hhead
      rw [← BufReader.stream_tryFillBuf hfill, lineAt_of_newline hnewline (hcount ▸ hfits),
        if_pos (hget.trans hcr), if_neg (hhead ▸ hlf)]
      by_cases hdrop : filled.stream.bytes.drop (index + 1) = []
      · have hbuffer : next.buffer = [] := by
          rw [← List.head?_eq_none_iff, hhead, List.getElem?_eq_none_iff]
          exact List.drop_eq_nil_iff.mp hdrop
        have hfailure := congrArg Stream.failure (hend hbuffer)
        rw [if_pos hdrop, hfailure]
        exact ⟨by omega, by rw [hstream, hfailure], by simp only [line, hcount, htake, chunk]⟩
      · rw [if_neg hdrop]
        exact ⟨by omega, hstream, by simp only [line, hcount, htake, chunk]⟩
  | case8 input output total filled hfill chunk hchunk count hfits line behind hsome hcr =>
      obtain ⟨index, hindex⟩ := Option.isSome_iff_exists.mp hsome
      have hcount : count = index + 1 := hlast hindex
      obtain ⟨hnewline, htake, hget⟩ := findNewline_stream hindex
      rw [hcount, Nat.add_sub_cancel] at hcr
      rw [← BufReader.stream_tryFillBuf hfill, lineAt_of_newline hnewline (hcount ▸ hfits),
        if_neg (fun h => hcr (hget.symm.trans h))]
      refine ⟨by omega, ?_, by simp only [line, hcount, htake, chunk]⟩
      simp only [behind, hcount]
      exact BufReader.stream_consume (findNewline_lt hindex)
  | case9 input output total filled hfill chunk hchunk count hfits line behind hnone ih =>
      have hnewline : findNewline chunk = none := by simpa using hnone
      have hcount : count = chunk.length := by simp only [count, lineCount, hnewline]
      have hbehind : behind.stream =
          ⟨(LawfulTryRead.stream filled.inner).bytes,
            (LawfulTryRead.stream filled.inner).failure⟩ := by
        simp only [behind, hcount, BufReader.stream, BufReader.consume, chunk, List.drop_length,
          List.nil_append]
      have hline : line = output ++ chunk := by simp only [line, hcount, List.take_length]
      rw [hbehind, hline, hcount] at ih
      have hskip := lineAt_skip (s := LawfulTryRead.stream filled.inner) hchunk hnewline
        (hcount ▸ hfits)
      rw [← BufReader.stream_tryFillBuf hfill, BufReader.stream]
      rw [hskip, hline]
      exact hcount ▸ ih.skip

/-! ## The header record -/

/-- A line takes its bytes from the front. -/
theorem lineOf_eq_ok {maximum count : Nat} {bytes output rest line : Bytes}
    (h : lineOf maximum bytes output = .ok (count, rest, line)) :
    count ≤ bytes.length ∧ rest = bytes.drop count := by
  rw [lineOf] at h
  split at h
  case h_1 =>
    split at h
    case isTrue => cases h
    case isFalse =>
      cases h
      exact ⟨Nat.le_refl _, List.drop_length.symm⟩
  case h_2 index hindex =>
    have hlt := findNewline_lt hindex
    split at h
    case isTrue => cases h
    case isFalse =>
      split at h
      case isTrue hlf =>
        split at h
        case isTrue => cases h
        case isFalse =>
          cases h
          exact ⟨(List.getElem?_eq_some_iff.mp hlf.2).1, rfl⟩
      case isFalse =>
        cases h
        exact ⟨hlt, rfl⟩

/-- A line of a stream is one of its bytes. -/
theorem lineAt_eq_ok {maximum count : Nat} {s rest : Stream ReadError} {output line : Bytes}
    (h : lineAt maximum s output = .ok (count, rest, line)) :
    lineOf maximum s.bytes output = .ok (count, rest.bytes, line) ∧ rest.failure = s.failure := by
  rw [lineAt] at h
  split at h
  case h_1 => cases h
  case h_2 hline =>
    split at h
    case isTrue =>
      split at h
      case h_1 => cases h
      case h_2 =>
        cases h
        exact ⟨hline, rfl⟩
    case isFalse =>
      cases h
      exact ⟨hline, rfl⟩

/-- What a line takes is gone from the input. -/
theorem streamLine_length {maximum read : Nat} {input input' : BufReader R}
    {output output' : Bytes} (h : streamLine maximum input output 0 = .ok (read, input', output')) :
    left input' + read = left input := by
  have hreads := streamLine_reads maximum input output 0
  rw [h] at hreads
  rcases hline : lineAt maximum input.stream output with e | ⟨count, rest, line⟩
  · rw [hline] at hreads
    exact absurd hreads id
  · rw [hline] at hreads
    obtain ⟨hread, hrest, -⟩ := hreads
    obtain ⟨hle, hdrop⟩ := lineOf_eq_ok (lineAt_eq_ok hline).1
    rw [left, left, hrest, hdrop, List.length_drop]
    omega

/-- `CsvReader` over an input that may fail, as far as the slow path uses it. -/
structure StreamReader (R : Type) where
  input : BufReader R
  dialect : Dialect
  multiline : Bool
  recordLimit : Nat
  first : Bool
  line : Nat

/-- The end of `next_borrowed`: the record is valid UTF-8. -/
def checkedRecord (record : Record) : Except ReadError (Option Record) :=
  match fromUtf8 record.raw with
  | none => .error (csvError "CSV field is not valid UTF-8")
  | some _ => .ok (some record)

/-- The loop of the slow path of `next_borrowed`. -/
def streamAssemble (r : StreamReader R) (raw : Bytes) (recordLine : Nat) :
    Except ReadError (Option Record) :=
  match _hline : streamLine r.recordLimit r.input raw 0 with
  | .error e => .error { e with message := s!"line {recordLine}: {e.message}" }
  | .ok (read, input, raw) =>
      if _hread : read = 0 then
        if raw.isEmpty then .ok none
        else
          match parseRecord r.dialect raw with
          | .error e => .error (csvError e)
          | .ok .more => .error (csvError s!"line {recordLine}: unclosed quoted field")
          | .ok (.complete fields) => checkedRecord { line := recordLine, raw, fields }
      else
        let raw := dropMark r.first raw
        let r := { r with input, first := false, line := r.line + 1 }
        if isBlank raw then streamAssemble r [] (r.line + 1)
        else
          match parseRecord r.dialect raw with
          | .error e => .error (csvError e)
          | .ok (.complete fields) => checkedRecord { line := recordLine, raw, fields }
          | .ok .more =>
              if r.multiline then streamAssemble r raw recordLine
              else
                .error (csvError (s!"line {recordLine}: multiline quoted field requires " ++
                  "--multiline-fields=true"))
termination_by left r.input
decreasing_by
  all_goals
    have := streamLine_length _hline
    simp_wf
    omega

/-- `CsvReader::for_header` -/
def StreamReader.forHeader (input : R) (opts : Options) (hbuffer : 0 < opts.bufferBytes) :
    StreamReader R where
  input := .withCapacity (min opts.bufferBytes (64 * 1024)) (by omega) input
  dialect :=
    { delimiter := opts.delimiter
      quote := opts.quote
      legacy := opts.legacyQuoting
      trim := opts.trimStrings
      limit := opts.bufferBytes }
  multiline := opts.multiline
  recordLimit := max (opts.memoryBytes / 2) (opts.bufferBytes * 2)
  first := true
  line := 0

/-- `CsvReader::for_header(..).next()`: the first call has no fast path. -/
def headerRecord (input : R) (opts : Options) (hbuffer : 0 < opts.bufferBytes) :
    Except ReadError (Option Record) :=
  streamAssemble (StreamReader.forHeader input opts hbuffer) [] 1

/-! ## Streams that are cut short -/

/-- The one stream is the other, or it ends early with an error of its own, if `short`. -/
def Shortened (short : Prop) (s s' : Stream ReadError) : Prop :=
  s = s' ∨ short ∧ ∃ n e, n < s'.bytes.length ∧ e.exceeded = true ∧
    s = ⟨s'.bytes.take n, some e⟩

/-- The one result is the other, or the error of a stream that was cut short. -/
def AlikeUnless {α : Type} (short : Prop) (result result' : Except ReadError α) : Prop :=
  result = result' ∨ short ∧ ∃ e, result = .error e ∧ e.exceeded = true

/-- A line break in a front is the first of all. -/
theorem findNewline_take {bytes : Bytes} {n index : Nat}
    (h : findNewline (bytes.take n) = some index) : findNewline bytes = some index := by
  rw [← List.take_append_drop n bytes]
  exact findNewline_append_some h _

theorem getElem?_of_take {bytes : Bytes} {n i : Nat} {b : UInt8}
    (h : (bytes.take n)[i]? = some b) : bytes[i]? = some b := by
  rw [List.getElem?_take] at h
  split at h
  · exact h
  · cases h

/-- A line that a front of the bytes is too long for is too long in all. -/
theorem lineOf_take_error {maximum n : Nat} {bytes output : Bytes} {message : String}
    (h : lineOf maximum (bytes.take n) output = .error message) :
    lineOf maximum bytes output = .error message := by
  rw [lineOf] at h
  split at h
  case h_1 hnewline =>
    split at h
    case isFalse => cases h
    case isTrue hlong =>
      cases h
      rw [← List.take_append_drop n bytes]
      exact lineOf_long hlong.1 hnewline hlong.2
  case h_2 index hindex =>
    rw [lineOf, findNewline_take hindex]
    dsimp only
    split at h
    case isTrue hlong =>
      cases h
      rw [if_pos hlong]
    case isFalse hfits =>
      rw [if_neg hfits]
      split at h
      case isFalse => cases h
      case isTrue hcrlf =>
        split at h
        case isFalse => cases h
        case isTrue hmax =>
          cases h
          rw [if_pos ⟨getElem?_of_take hcrlf.1, getElem?_of_take hcrlf.2⟩, if_pos hmax]

/-- A line that ends in a front of the bytes ends there in all. -/
theorem lineOf_take_ok {maximum n count : Nat} {bytes output rest line : Bytes}
    (hn : n < bytes.length) (h : lineOf maximum (bytes.take n) output = .ok (count, rest, line))
    (hends : ¬(rest = [] ∧ (bytes.take n).getLast? ≠ some lf)) :
    count ≤ n ∧ lineOf maximum bytes output = .ok (count, bytes.drop count, line) := by
  have hlength : (bytes.take n).length = n := by
    rw [List.length_take]
    omega
  rw [lineOf] at h
  split at h
  case h_1 hnewline =>
    -- without a newline the line goes on behind the front
    split at h
    case isTrue => cases h
    case isFalse =>
      cases h
      refine absurd ⟨rfl, fun hlast => ?_⟩ hends
      rw [findNewline, List.findIdx?_eq_none_iff] at hnewline
      have hlf := hnewline lf (List.mem_of_getLast? hlast)
      simp at hlf
  case h_2 index hindex =>
    have hlt := findNewline_lt hindex
    rw [hlength] at hlt
    have hget : ∀ i, i < n → (bytes.take n)[i]? = bytes[i]? := fun i hi =>
      List.getElem?_take_of_lt hi
    rw [lineOf, findNewline_take hindex]
    dsimp only
    split at h
    case isTrue => cases h
    case isFalse hfits =>
      rw [if_neg hfits]
      have htake : (bytes.take n).take (index + 1) = bytes.take (index + 1) := by
        rw [List.take_take, Nat.min_eq_left hlt]
      split at h
      case isTrue hcrlf =>
        have hone : index + 1 < n := by
          have hsome := (List.getElem?_eq_some_iff.mp hcrlf.2).1
          rwa [hlength] at hsome
        rw [hget index hlt, hget (index + 1) hone] at hcrlf
        rw [if_pos hcrlf]
        split at h
        case isTrue => cases h
        case isFalse hmax =>
          cases h
          rw [if_neg hmax, htake]
          exact ⟨hone, rfl⟩
      case isFalse hcrlf =>
        cases h
        refine ⟨hlt, ?_⟩
        have hother : ¬(bytes[index]? = some cr ∧ bytes[index + 1]? = some lf) := by
          rintro ⟨hcr, hlf⟩
          rw [hget index hlt] at hcrlf
          by_cases hone : index + 1 < n
          · rw [hget (index + 1) hone] at hcrlf
            exact hcrlf ⟨hcr, hlf⟩
          · -- a carriage return at the end of the front
            refine hends ⟨List.drop_eq_nil_iff.mpr (by omega), ?_⟩
            rw [List.getLast?_eq_getElem?, hlength, show n - 1 = index by omega,
              hget index hlt, hcr]
            decide
        rw [if_neg hother, htake]

/-- A line of a shortened stream is the same, or the error is that of the shortening. -/
theorem lineAt_shortened {short : Prop} (maximum : Nat) {s s' : Stream ReadError}
    (h : Shortened short s s') (output : Bytes) :
    (∃ e, lineAt maximum s output = .error e ∧
      (short ∧ e.exceeded = true ∨ lineAt maximum s' output = .error e)) ∨
    ∃ count rest rest' line, lineAt maximum s output = .ok (count, rest, line) ∧
      lineAt maximum s' output = .ok (count, rest', line) ∧ Shortened short rest rest' := by
  rcases h with rfl | ⟨hshort, n, e, hn, hexceeded, rfl⟩
  · rcases hline : lineAt maximum s output with e | ⟨count, rest, line⟩
    · exact .inl ⟨e, rfl, .inr rfl⟩
    · exact .inr ⟨count, rest, rest, line, rfl, rfl, .inl rfl⟩
  · rcases hline : lineOf maximum (s'.bytes.take n) output with message | ⟨count, rest, line⟩
    · refine .inl ⟨csvError message, ?_, .inr ?_⟩
      · rw [lineAt, hline]
      · rw [lineAt, lineOf_take_error hline]
    · by_cases hends : rest = [] ∧ (s'.bytes.take n).getLast? ≠ some lf
      · refine .inl ⟨e, ?_, .inl ⟨hshort, hexceeded⟩⟩
        rw [lineAt, hline]
        exact if_pos hends
      · obtain ⟨hcount, hline'⟩ := lineOf_take_ok hn hline hends
        have hdrop : s'.bytes.drop count ≠ [] := by
          rw [Ne, List.drop_eq_nil_iff]
          omega
        refine .inr ⟨count, ⟨rest, some e⟩, ⟨s'.bytes.drop count, s'.failure⟩, line, ?_, ?_,
          .inr ⟨hshort, n - count, e, ?_, hexceeded, ?_⟩⟩
        · rw [lineAt, hline]
          exact if_neg hends
        · rw [lineAt, hline']
          exact if_neg fun hend => hdrop hend.1
        · rw [List.length_drop]
          omega
        · rw [(lineOf_eq_ok hline).2, List.drop_take]

/-- A physical line of a stream that is cut short is one of the stream. -/
theorem streamLine_shortened {R' : Type} [LawfulTryRead ReadError R'] {short : Prop} (maximum : Nat)
    {input : BufReader R} {input' : BufReader R'} (h : Shortened short input.stream input'.stream)
    (raw : Bytes) :
    (∃ e, streamLine maximum input raw 0 = .error e ∧
      (short ∧ e.exceeded = true ∨ streamLine maximum input' raw 0 = .error e)) ∨
    ∃ read next next' line, streamLine maximum input raw 0 = .ok (read, next, line) ∧
      streamLine maximum input' raw 0 = .ok (read, next', line) ∧
      Shortened short next.stream next'.stream := by
  have hreads := streamLine_reads maximum input raw 0
  have hreads' := streamLine_reads maximum input' raw 0
  obtain ⟨e, hline, hcause⟩ | ⟨count, rest, rest', line, hline, hline', hshort⟩ :=
    lineAt_shortened maximum h raw
  · rw [hline] at hreads
    rcases hrun : streamLine maximum input raw 0 with e' | found
    · rw [hrun] at hreads
      cases hreads
      refine .inl ⟨e, rfl, hcause.imp_right fun hline' => ?_⟩
      rw [hline'] at hreads'
      rcases hrun' : streamLine maximum input' raw 0 with e' | found
      · rw [hrun'] at hreads'
        exact congrArg _ hreads'
      · rw [hrun'] at hreads'
        exact absurd hreads' id
    · rw [hrun] at hreads
      exact absurd hreads id
  · rw [hline] at hreads
    rw [hline'] at hreads'
    rcases hrun : streamLine maximum input raw 0 with e | ⟨read, next, output⟩
    · rw [hrun] at hreads
      exact absurd hreads id
    · rcases hrun' : streamLine maximum input' raw 0 with e | ⟨read', next', output'⟩
      · rw [hrun'] at hreads'
        exact absurd hreads' id
      · rw [hrun] at hreads
        rw [hrun'] at hreads'
        obtain ⟨rfl, rfl, rfl⟩ := hreads
        obtain ⟨rfl, rfl, rfl⟩ := hreads'
        exact .inr ⟨_, next, next', _, rfl, rfl, hshort⟩

/-- The record that a line begins, over a stream. -/
theorem streamAssemble_eq (r : StreamReader R) (raw : Bytes) (recordLine : Nat) :
    streamAssemble r raw recordLine =
      match streamLine r.recordLimit r.input raw 0 with
      | .error e => .error { e with message := s!"line {recordLine}: {e.message}" }
      | .ok (read, input, raw) =>
          if read = 0 then
            if raw.isEmpty then .ok none
            else
              match parseRecord r.dialect raw with
              | .error e => .error (csvError e)
              | .ok .more => .error (csvError s!"line {recordLine}: unclosed quoted field")
              | .ok (.complete fields) => checkedRecord { line := recordLine, raw, fields }
          else
            let raw := dropMark r.first raw
            let r := { r with input, first := false, line := r.line + 1 }
            if isBlank raw then streamAssemble r [] (r.line + 1)
            else
              match parseRecord r.dialect raw with
              | .error e => .error (csvError e)
              | .ok (.complete fields) => checkedRecord { line := recordLine, raw, fields }
              | .ok .more =>
                  if r.multiline then streamAssemble r raw recordLine
                  else
                    .error (csvError (s!"line {recordLine}: multiline quoted field requires " ++
                      "--multiline-fields=true")) := by
  rw [streamAssemble]
  split
  · next h => simp only [h]
  · next h => simp only [h]; rfl

/-- The record depends on the stream; a stream that is cut short gives the same, or its own
error. -/
theorem streamAssemble_shortened {R' : Type} [LawfulTryRead ReadError R'] {short : Prop}
    {r : StreamReader R} {r' : StreamReader R'} {raw : Bytes} {recordLine : Nat}
    (h : Shortened short r.input.stream r'.input.stream) (hdialect : r.dialect = r'.dialect)
    (hmultiline : r.multiline = r'.multiline) (hlimit : r.recordLimit = r'.recordLimit)
    (hfirst : r.first = r'.first) (hline : r.line = r'.line) :
    AlikeUnless short (streamAssemble r raw recordLine) (streamAssemble r' raw recordLine) := by
  induction hn : left r.input using Nat.strongRecOn generalizing r r' raw recordLine with
  | ind n ih => ?_
  subst hn
  obtain ⟨input, dialect, multiline, recordLimit, first, line⟩ := r
  obtain ⟨input', dialect', multiline', recordLimit', first', line'⟩ := r'
  dsimp only at hdialect hmultiline hlimit hfirst hline h
  subst hdialect hmultiline hlimit hfirst hline
  rw [streamAssemble_eq, streamAssemble_eq]
  obtain ⟨e, hphysical, hcause⟩ | ⟨read, next, next', output, hphysical, hphysical', hnext⟩ :=
    streamLine_shortened recordLimit h raw
  · rw [hphysical]
    rcases hcause with ⟨hshort, hexceeded⟩ | hphysical'
    · exact .inr ⟨hshort, _, rfl, hexceeded⟩
    · rw [hphysical']
      exact .inl rfl
  · have hlength := streamLine_length hphysical
    simp only [hphysical, hphysical']
    by_cases hread : read = 0
    · rw [if_pos hread, if_pos hread]
      exact .inl rfl
    · rw [if_neg hread, if_neg hread]
      have hlt : left next < left input := by omega
      split
      · exact ih _ hlt hnext rfl rfl rfl rfl rfl rfl
      · cases parseRecord dialect (dropMark first output) with
        | error e => exact .inl rfl
        | ok parsed =>
            cases parsed with
            | complete fields => exact .inl rfl
            | more =>
                dsimp only
                split
                · exact ih _ hlt hnext rfl rfl rfl rfl rfl rfl
                · exact .inl rfl

/-- The header record of a stream that is cut short is that of the stream, or the error that cut
it. -/
theorem headerRecord_shortened {R' : Type} [LawfulTryRead ReadError R'] {short : Prop} {input : R}
    {input' : R'} (h : Shortened short (LawfulTryRead.stream input) (LawfulTryRead.stream input'))
    (opts : Options) (hbuffer : 0 < opts.bufferBytes) :
    AlikeUnless short (headerRecord input opts hbuffer) (headerRecord input' opts hbuffer) :=
  streamAssemble_shortened h rfl rfl rfl rfl rfl

/-! ## The reader of the import -/

/-- Without a failure the line is that of the bytes. -/
theorem lineAt_none (maximum : Nat) (bytes output : Bytes) :
    lineAt maximum ⟨bytes, none⟩ output =
      match lineOf maximum bytes output with
      | .error message => .error (csvError message)
      | .ok (count, rest, line) => .ok (count, ⟨rest, none⟩, line) := by
  rw [lineAt]
  rcases lineOf maximum bytes output with message | ⟨count, rest, line⟩
  · rfl
  · dsimp only
    split <;> rfl

/-- A physical line of an input that does not fail. -/
theorem streamLine_physicalLine (maximum : Nat) {input : BufReader R} {input' : Input}
    (hchunked : input'.Chunked) (hstream : input.stream = ⟨input'.rest, none⟩) (raw : Bytes) :
    (∃ message, streamLine maximum input raw 0 = .error (csvError message) ∧
      physicalLine maximum input' raw 0 = .error message) ∨
    ∃ read next next' line, streamLine maximum input raw 0 = .ok (read, next, line) ∧
      physicalLine maximum input' raw 0 = .ok (read, next', line) ∧ next'.Chunked ∧
      next.stream = ⟨next'.rest, none⟩ := by
  have hreads := streamLine_reads maximum input raw 0
  have hreads' : Reads 0 (physicalLine maximum input' raw 0) (lineOf maximum input'.rest raw) :=
    physicalLine_reads hchunked
  rw [hstream, lineAt_none] at hreads
  rcases hline : lineOf maximum input'.rest raw with message | ⟨count, rest, line⟩
  · rw [hline] at hreads hreads'
    rcases hrun : streamLine maximum input raw 0 with e | found
    · rcases hrun' : physicalLine maximum input' raw 0 with message' | found'
      · rw [hrun] at hreads
        rw [hrun'] at hreads'
        cases hreads
        cases hreads'
        exact .inl ⟨message, rfl, rfl⟩
      · rw [hrun'] at hreads'
        exact absurd hreads' id
    · rw [hrun] at hreads
      exact absurd hreads id
  · rw [hline] at hreads hreads'
    rcases hrun : streamLine maximum input raw 0 with e | ⟨read, next, output⟩
    · rw [hrun] at hreads
      exact absurd hreads id
    · rcases hrun' : physicalLine maximum input' raw 0 with message' | ⟨read', next', output'⟩
      · rw [hrun'] at hreads'
        exact absurd hreads' id
      · rw [hrun] at hreads
        rw [hrun'] at hreads'
        obtain ⟨rfl, hrest, rfl⟩ := hreads
        obtain ⟨rfl, rfl, hchunked', rfl⟩ := hreads'
        exact .inr ⟨_, next, next', _, rfl, rfl, hchunked', hrest⟩

/-- A record is checked as in the reader. -/
theorem checkedRecord_eq (r : Reader) (record : Record) :
    checkedRecord record =
      match checked r record with
      | .error e => .error (csvError e)
      | .ok (record, _) => .ok record := by
  rw [checkedRecord, checked]
  cases fromUtf8 record.raw <;> rfl

/-- A reader whose input does not fail delivers what the reader of the import does. -/
theorem streamAssemble_assemble {r : StreamReader R} {r' : Reader} {raw : Bytes}
    {recordLine : Nat} (hchunked : r'.input.Chunked)
    (hstream : r.input.stream = ⟨r'.input.rest, none⟩) (hdialect : r.dialect = r'.dialect)
    (hmultiline : r.multiline = r'.multiline) (hlimit : r.recordLimit = r'.recordLimit)
    (hfirst : r.first = r'.first) (hline : r.line = r'.line) :
    streamAssemble r raw recordLine =
      match assemble r' raw recordLine with
      | .error e => .error (csvError e)
      | .ok (record, _) => .ok record := by
  induction hn : left r.input using Nat.strongRecOn generalizing r r' raw recordLine with
  | ind n ih => ?_
  subst hn
  obtain ⟨input, dialect, multiline, recordLimit, first, line⟩ := r
  obtain ⟨input', dialect', multiline', recordLimit', first', pendingConsume', line'⟩ := r'
  dsimp only at hdialect hmultiline hlimit hfirst hline hstream hchunked
  subst hdialect hmultiline hlimit hfirst hline
  rw [streamAssemble_eq, assemble_eq]
  obtain ⟨message, hphysical, hphysical'⟩ |
    ⟨read, next, next', output, hphysical, hphysical', hchunked', hnext⟩ :=
    streamLine_physicalLine recordLimit hchunked hstream raw
  · simp only [hphysical, hphysical']
    rfl
  · have hlength := streamLine_length hphysical
    simp only [hphysical, hphysical']
    by_cases hread : read = 0
    · rw [if_pos hread, if_pos hread]
      split
      · rfl
      · cases parseRecord dialect output with
        | error e => rfl
        | ok parsed =>
            cases parsed with
            | more => rfl
            | complete fields => exact checkedRecord_eq _ _
    · rw [if_neg hread, if_neg hread]
      have hlt : left next < left input := by omega
      split
      · exact ih _ hlt hchunked' hnext rfl rfl rfl rfl rfl rfl
      · cases parseRecord dialect (dropMark first output) with
        | error e => rfl
        | ok parsed =>
            cases parsed with
            | complete fields => exact checkedRecord_eq _ _
            | more =>
                dsimp only
                split
                · exact ih _ hlt hchunked' hnext rfl rfl rfl rfl rfl rfl
                · rfl

/-- The header that is read in advance is the first record that the reader of the import delivers,
however the two inputs are split. -/
theorem headerRecord_next {input : R} {chunks : List Bytes} (hchunks : ∀ c ∈ chunks, c ≠ [])
    (hstream : LawfulTryRead.stream input = ⟨chunks.flatten, none⟩) (opts : Options)
    (hbuffer : 0 < opts.bufferBytes) :
    headerRecord input opts hbuffer =
      match (Reader.new ⟨[], chunks⟩ opts).next with
      | .error e => .error (csvError e)
      | .ok (record, _) => .ok record := by
  have hinput : (⟨[], chunks⟩ : Input).Chunked := hchunks
  have hchunked : (Reader.new ⟨[], chunks⟩ opts).input.fill.Chunked := hinput.fill
  have hnext : (Reader.new ⟨[], chunks⟩ opts).next =
      assemble { Reader.new ⟨[], chunks⟩ opts with
        input := (Reader.new ⟨[], chunks⟩ opts).input.fill, pendingConsume := 0 } [] 1 := by
    have hslow : ∀ bytes : Bytes, bufferedLine { Reader.new ⟨[], chunks⟩ opts with
        input := ((Reader.new ⟨[], chunks⟩ opts).input.consume 0).fill,
        pendingConsume := 0 } bytes = none := by
      intro bytes
      rw [bufferedLine]
      split
      · exact if_pos rfl
      · rfl
    rw [Reader.next]
    dsimp only
    exact hslow _ ▸ rfl
  rw [hnext]
  refine streamAssemble_assemble hchunked ?_ rfl rfl rfl rfl rfl
  change LawfulTryRead.stream input = _
  rw [hstream, rest_fill]
  rfl

/-- One piece against two chunks. -/
theorem headerRecord_next_split :
    headerRecord (⟨[⟨[97, 44, 98, 10], by decide⟩], none⟩ : Reading.Pieces ReadError) sampleOptions
        (by decide) =
      match (Reader.new ⟨[], [[97, 44], [98, 10]]⟩ sampleOptions).next with
      | .error e => .error (csvError e)
      | .ok (record, _) => .ok record :=
  headerRecord_next (by decide) rfl sampleOptions (by decide)

end Velr.Csv
