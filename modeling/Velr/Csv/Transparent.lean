import Velr.Csv.FastPath

/-!
# Chunks and the fast path make no difference

Two readers agree when they are at the same place of the same input, whatever their buffers hold.
`next` of the one and the slow path of the other then deliver the same record and agree again
(`next_agrees`), so that a reader delivers what the slow path delivers on the input as a whole.
-/

namespace Velr.Csv

open ByteString Utf8

/-- The bytes that a reader has not delivered yet. -/
def Reader.ahead (r : Reader) : Bytes := (r.input.consume r.pendingConsume).rest

/-- What holds of a reader between two calls. -/
structure Reader.Settled (r : Reader) : Prop where
  chunked : r.input.Chunked
  pending : r.pendingConsume ≤ r.input.buffer.length

/-- The readers are at the same place of the same input. -/
structure Agree (r r' : Reader) : Prop where
  left : r.Settled
  right : r'.Settled
  ahead : r.ahead = r'.ahead
  dialect : r.dialect = r'.dialect
  multiline : r.multiline = r'.multiline
  recordLimit : r.recordLimit = r'.recordLimit
  first : r.first = r'.first
  line : r.line = r'.line

/-- A settled reader agrees with itself. -/
theorem Reader.Settled.agree {r : Reader} (h : r.Settled) : Agree r r :=
  ⟨h, h, rfl, rfl, rfl, rfl, rfl, rfl⟩

/-- The calls deliver the same, and leave readers that agree. -/
def SameResult : Except String (Option Record × Reader) → Except String (Option Record × Reader) →
    Prop
  | .error e, .error e' => e = e'
  | .ok (record, r), .ok (record', r') => record = record' ∧ Agree r r'
  | _, _ => False

/-! ## The slow path -/

/-- The record that a line begins. -/
theorem assemble_eq (r : Reader) (raw : Bytes) (recordLine : Nat) :
    assemble r raw recordLine =
      match physicalLine r.recordLimit r.input raw 0 with
      | .error e => .error s!"line {recordLine}: {e}"
      | .ok (read, input, raw) =>
          if read = 0 then
            if raw.isEmpty then .ok (none, { r with input })
            else
              match parseRecord r.dialect raw with
              | .error e => .error e
              | .ok .more => .error s!"line {recordLine}: unclosed quoted field"
              | .ok (.complete fields) =>
                  checked { r with input } { line := recordLine, raw, fields }
          else
            let raw := dropMark r.first raw
            let r := { r with input, first := false, line := r.line + 1 }
            if isBlank raw then assemble r [] (r.line + 1)
            else
              match parseRecord r.dialect raw with
              | .error e => .error e
              | .ok (.complete fields) => checked r { line := recordLine, raw, fields }
              | .ok .more =>
                  if r.multiline then assemble r raw recordLine
                  else
                    .error (s!"line {recordLine}: multiline quoted field requires " ++
                      "--multiline-fields=true") := by
  rw [assemble]
  split
  · next h => simp only [h]
  · next h => simp only [h]; rfl

/-- A physical line of one input is a physical line of the other. -/
theorem physicalLine_agree {input input' : Input} (maximum : Nat) (raw : Bytes)
    (h : input.Chunked) (h' : input'.Chunked) (hrest : input.rest = input'.rest) :
    (∃ e, physicalLine maximum input raw 0 = .error e ∧
      physicalLine maximum input' raw 0 = .error e) ∨
    ∃ read next next' line, physicalLine maximum input raw 0 = .ok (read, next, line) ∧
      physicalLine maximum input' raw 0 = .ok (read, next', line) ∧
      next.Chunked ∧ next'.Chunked ∧ next.rest = next'.rest := by
  have hreads : Reads 0 (physicalLine maximum input raw 0) (lineOf maximum input'.rest raw) :=
    hrest ▸ physicalLine_reads h
  have hreads' : Reads 0 (physicalLine maximum input' raw 0) (lineOf maximum input'.rest raw) :=
    physicalLine_reads h'
  cases hline : lineOf maximum input'.rest raw with
  | error e =>
      rw [hline] at hreads hreads'
      cases hphysical : physicalLine maximum input raw 0 with
      | ok result => rw [hphysical] at hreads; exact absurd hreads id
      | error e =>
          cases hphysical' : physicalLine maximum input' raw 0 with
          | ok result => rw [hphysical'] at hreads'; exact absurd hreads' id
          | error e' =>
              rw [hphysical] at hreads
              rw [hphysical'] at hreads'
              exact .inl ⟨e, rfl, by rw [show e' = _ from hreads', show e = _ from hreads]⟩
  | ok result =>
      obtain ⟨count, rest, line⟩ := result
      rw [hline] at hreads hreads'
      cases hphysical : physicalLine maximum input raw 0 with
      | error e => rw [hphysical] at hreads; exact absurd hreads id
      | ok result =>
          cases hphysical' : physicalLine maximum input' raw 0 with
          | error e => rw [hphysical'] at hreads'; exact absurd hreads' id
          | ok result' =>
              rw [hphysical] at hreads
              rw [hphysical'] at hreads'
              obtain ⟨read, next, output⟩ := result
              obtain ⟨read', next', output'⟩ := result'
              obtain ⟨rfl, rfl, hchunked, rfl⟩ := hreads
              obtain ⟨rfl, hnext, hchunked', rfl⟩ := hreads'
              exact .inr ⟨_, next, next', _, rfl, rfl, hchunked, hchunked', hnext.symm⟩

/-- The readers agree behind a physical line. -/
theorem Agree.advance {r r' : Reader} {next next' : Input} (h : Agree r r')
    (hpending : r.pendingConsume = 0) (hpending' : r'.pendingConsume = 0) (hnext : next.Chunked)
    (hnext' : next'.Chunked) (hrest : next.rest = next'.rest) :
    Agree { r with input := next } { r' with input := next' } where
  left := ⟨hnext, by rw [hpending]; exact Nat.zero_le _⟩
  right := ⟨hnext', by rw [hpending']; exact Nat.zero_le _⟩
  ahead := by simpa [Reader.ahead, hpending, hpending', Input.consume] using hrest
  dialect := h.dialect
  multiline := h.multiline
  recordLimit := h.recordLimit
  first := h.first
  line := h.line

/-- Readers agree on the next line. -/
theorem Agree.nextLine {r r' : Reader} (h : Agree r r') :
    Agree { r with first := false, line := r.line + 1 }
      { r' with first := false, line := r'.line + 1 } where
  left := ⟨h.left.chunked, h.left.pending⟩
  right := ⟨h.right.chunked, h.right.pending⟩
  ahead := h.ahead
  dialect := h.dialect
  multiline := h.multiline
  recordLimit := h.recordLimit
  first := rfl
  line := by rw [h.line]

/-- Readers that agree check the same. -/
theorem Agree.checked {r r' : Reader} (h : Agree r r') (record : Record) :
    SameResult (checked r record) (checked r' record) := by
  unfold Csv.checked
  split
  · rfl
  · exact ⟨rfl, h⟩

/-- The slow path delivers the same from readers that agree. -/
theorem assemble_agree {r r' : Reader} {raw : Bytes} {recordLine : Nat} (h : Agree r r')
    (hpending : r.pendingConsume = 0) (hpending' : r'.pendingConsume = 0) :
    SameResult (assemble r raw recordLine) (assemble r' raw recordLine) := by
  induction hn : r.input.rest.length using Nat.strongRecOn generalizing r r' raw recordLine with
  | ind n ih => ?_
  have hrest : r.input.rest = r'.input.rest := by
    simpa [Reader.ahead, hpending, hpending', Input.consume] using h.ahead
  subst hn
  obtain ⟨input, dialect, multiline, recordLimit, first, pendingConsume, line⟩ := r
  obtain ⟨input', dialect', multiline', recordLimit', first', pendingConsume', line'⟩ := r'
  obtain rfl : dialect = dialect' := h.dialect
  obtain rfl : multiline = multiline' := h.multiline
  obtain rfl : recordLimit = recordLimit' := h.recordLimit
  obtain rfl : first = first' := h.first
  obtain rfl : line = line' := h.line
  rw [assemble_eq, assemble_eq]
  obtain ⟨e, hline, hline'⟩ | ⟨read, next, next', output, hline, hline', hnext, hnext', hrest'⟩ :=
    physicalLine_agree recordLimit raw h.left.chunked h.right.chunked hrest
  · simp only [hline, hline']
    rfl
  · simp only [hline, hline']
    have hlength := physicalLine_length hline
    have hadvance := h.advance hpending hpending' hnext hnext' hrest'
    by_cases hread : read = 0
    · rw [if_pos hread, if_pos hread]
      split
      · exact ⟨rfl, hadvance⟩
      · cases parseRecord dialect output with
        | error e => rfl
        | ok parsed =>
            cases parsed with
            | more => rfl
            | complete fields => exact hadvance.checked _
    · rw [if_neg hread, if_neg hread]
      have hlt : next.rest.length < input.rest.length := by
        change next.rest.length + read = input.rest.length + 0 at hlength
        omega
      split
      · exact ih _ hlt hadvance.nextLine hpending hpending' rfl
      · cases parseRecord dialect (dropMark first output) with
        | error e => rfl
        | ok parsed =>
            cases parsed with
            | complete fields => exact hadvance.nextLine.checked _
            | more =>
                simp only
                split
                · exact ih _ hlt hadvance.nextLine hpending hpending' rfl
                · rfl

/-! ## The fast path -/

/-- The first newline of a chunk. -/
theorem findNewline_spec {bytes : Bytes} {stop : Nat} (h : findNewline bytes = some stop) :
    (bytes[stop]? = some lf ∨ bytes[stop]? = some cr) ∧
      ∀ i < stop, bytes[i]? ≠ some lf ∧ bytes[i]? ≠ some cr := by
  rw [findNewline, List.findIdx?_eq_some_iff_getElem] at h
  obtain ⟨hlt, hbyte, hbefore⟩ := h
  constructor
  · simpa [List.getElem?_eq_getElem hlt] using hbyte
  · intro i hi
    have := hbefore i hi
    rw [List.getElem?_eq_getElem (Nat.lt_trans hi hlt)]
    simpa using this

/-- What `bufferedCount` takes is the physical line, and its terminator is behind `stop`. -/
theorem lineOf_buffered {maximum stop count : Nat} {bytes : Bytes} (rest : Bytes)
    (hnewline : findNewline bytes = some stop) (hcount : bufferedCount bytes stop = some count)
    (hfits : count ≤ maximum) :
    lineOf maximum (bytes ++ rest) [] = .ok (count, (bytes ++ rest).drop count, bytes.take count) ∧
      count ≤ bytes.length ∧ stop < count ∧ recordEnd (bytes.take count) = stop := by
  have hlt := findNewline_lt hnewline
  obtain ⟨hbyte, hbefore⟩ := findNewline_spec hnewline
  have hget {i : Nat} (hi : i < bytes.length) : (bytes ++ rest)[i]? = bytes[i]? :=
    List.getElem?_append_left hi
  have htake : (bytes ++ rest).take (stop + 1) = bytes.take (stop + 1) :=
    List.take_append_of_le_length hlt
  have hlength (n : Nat) (hn : n ≤ bytes.length) : (bytes.take n).length = n := by
    rw [List.length_take]
    omega
  have hnlf : ¬ (cr : UInt8) = lf := by decide
  rw [lineOf, findNewline_append_some hnewline]
  simp only [hget hlt, htake, List.length_nil, List.nil_append, Nat.zero_add]
  unfold bufferedCount at hcount
  by_cases hcr : bytes[stop]? = some cr
  · rw [if_pos hcr] at hcount
    split at hcount
    · cases hcount
    · next hopen =>
        have hlt' : stop + 1 < bytes.length := by omega
        rw [hget hlt']
        split at hcount
        · next hlf =>
            cases hcount
            rw [if_neg (by omega), if_pos ⟨hcr, hlf⟩, if_neg (by omega)]
            refine ⟨?_, hlt', by omega, ?_⟩
            · rw [List.take_add_one (i := stop + 1), hlf]
              rfl
            · simp only [recordEnd, hlength _ hlt']
              simp [hcr, hlf]
        · next hlf =>
            cases hcount
            rw [if_neg (by omega), if_neg (fun h => hlf h.2)]
            refine ⟨rfl, hlt, by omega, ?_⟩
            simp only [recordEnd, hlength _ hlt]
            simp [hcr, hnlf]
  · rw [if_neg hcr] at hcount
    cases hcount
    rw [if_neg (by omega), if_neg (fun h => hcr h.1)]
    refine ⟨rfl, hlt, by omega, ?_⟩
    have hlf : bytes[stop]? = some lf := hbyte.resolve_right hcr
    simp only [recordEnd, hlength _ hlt]
    have hprevious (h : 0 < stop) : (bytes.take (stop + 1))[stop - 1]? ≠ some cr := by
      rw [List.getElem?_take_of_lt (by omega)]
      exact (hbefore _ (by omega)).2
    have hlast : (bytes.take (stop + 1))[stop + 1 - 1]? = some lf := by
      rw [Nat.add_sub_cancel, List.getElem?_take_of_lt (Nat.lt_succ_self stop), hlf]
    rw [if_pos ⟨Nat.succ_pos _, hlast⟩, if_neg fun h => hprevious h.1 h.2]
    exact Nat.add_sub_cancel stop 1

/-- What `bufferedLine` finds: a line without quotes at the front of the buffer. -/
theorem bufferedLine_some {r : Reader} {bytes : Bytes} {stop count : Nat}
    (h : bufferedLine r bytes = some (stop, count)) :
    r.first = false ∧ (∃ q, encode r.dialect.quote = [q] ∧ q ∉ bytes.take stop) ∧ 0 < stop ∧
      findNewline bytes = some stop ∧ bufferedCount bytes stop = some count ∧
      count ≤ r.recordLimit := by
  unfold bufferedLine at h
  split at h
  · next q hq =>
      split at h
      · cases h
      · next hfirst =>
          split at h
          · cases h
          · next found hfind =>
              rw [List.findIdx?_eq_some_iff_getElem] at hfind
              obtain ⟨hlt, hbyte, hbefore⟩ := hfind
              split at h
              · cases h
              · next hquote =>
                  split at h
                  · cases h
                  · next hcount =>
                      split at h
                      · next hfits =>
                          cases h
                          refine ⟨by simpa using hfirst, ⟨q, hq, ?_⟩, by omega, ?_, hcount, hfits.2⟩
                          · intro hmem
                            obtain ⟨i, hi, hget⟩ := List.mem_iff_getElem.mp hmem
                            rw [List.length_take] at hi
                            rw [List.getElem_take] at hget
                            exact hbefore i (by omega) (by simp [hget])
                          · rw [findNewline, List.findIdx?_eq_some_iff_getElem]
                            refine ⟨hlt, ?_, fun i hi => ?_⟩
                            · rw [List.getElem?_eq_getElem hlt, Option.some.injEq] at hquote
                              simpa [hquote] using hbyte
                            · have := hbefore i hi
                              simp only [Bool.or_eq_true, not_or] at this ⊢
                              exact ⟨this.1.2, this.2⟩
                      · cases h
  · cases h

/-- A line with a byte before its newline is not blank. -/
theorem isBlank_take {bytes : Bytes} {stop count : Nat} (hnewline : findNewline bytes = some stop)
    (hpos : 0 < stop) (hcount : stop < count) : isBlank (bytes.take count) = false := by
  obtain ⟨_, hbefore⟩ := findNewline_spec hnewline
  have hfirst : (bytes.take count)[0]? = bytes[0]? := List.getElem?_take_of_lt (by omega)
  have hne := hbefore 0 hpos
  rw [← hfirst] at hne
  generalize bytes.take count = raw at hne
  simp only [isBlank, Bool.or_eq_false_iff, beq_eq_false_iff_ne]
  refine ⟨⟨?_, ?_⟩, ?_⟩
  · rintro rfl; exact hne.1 rfl
  · rintro rfl; exact hne.2 rfl
  · rintro rfl; exact hne.2 rfl

/-- Where the fast path finds a line, the slow path delivers the same record. -/
theorem fastPath_agrees {r r' : Reader} {stop count : Nat} (h : Agree r r')
    (hpending : r.pendingConsume = 0) (hpending' : r'.pendingConsume = 0)
    (hline : bufferedLine r r.input.buffer = some (stop, count)) :
    SameResult
      (match parseUnquotedRecord ((r.input.buffer.take count).take stop) r.dialect.delimiter
          r.dialect.limit with
        | .error e => .error e
        | .ok fields =>
            checked { r with line := r.line + 1, pendingConsume := count }
              { line := r.line + 1, raw := r.input.buffer.take count, fields })
      (assemble r' [] (r.line + 1)) := by
  obtain ⟨hfirst, ⟨q, hq, hno⟩, hpos, hnewline, hcount, hfits⟩ := bufferedLine_some hline
  have hrest : r'.input.rest = r.input.buffer ++ r.input.chunks.flatten := by
    have := h.ahead
    simp only [Reader.ahead, hpending, hpending', Input.consume, List.drop_zero] at this
    exact this.symm
  obtain ⟨hlineOf, hle, hlt, hend⟩ :=
    lineOf_buffered r.input.chunks.flatten hnewline hcount hfits
  have hreads : Reads 0 (physicalLine r'.recordLimit r'.input [] 0)
      (lineOf r.recordLimit (r.input.buffer ++ r.input.chunks.flatten) []) := by
    rw [← hrest, h.recordLimit]
    exact physicalLine_reads h.right.chunked
  rw [hlineOf] at hreads
  rw [assemble_eq]
  cases hphysical : physicalLine r'.recordLimit r'.input [] 0 with
  | error e => rw [hphysical] at hreads; exact absurd hreads id
  | ok result =>
      obtain ⟨read, next, output⟩ := result
      rw [hphysical] at hreads
      obtain ⟨rfl, hnext, hchunked, rfl⟩ := hreads
      have hfirst' : r'.first = false := by rw [← h.first, hfirst]
      have hraw : dropMark r'.first (r.input.buffer.take count) = r.input.buffer.take count := by
        rw [hfirst']
        rfl
      have hparse : parseRecord r'.dialect (r.input.buffer.take count) =
          (parseUnquotedRecord ((r.input.buffer.take count).take stop) r.dialect.delimiter
            r.dialect.limit).map Parsed.complete := by
        have htake : q ∉ (r.input.buffer.take count).take stop := by
          rwa [List.take_take, Nat.min_eq_left (Nat.le_of_lt hlt)]
        rw [← h.dialect, parseUnquotedRecord_eq hq (by rwa [hend]), hend]
      have hagree : Agree { r with line := r.line + 1, pendingConsume := count }
          { r' with input := next, first := false, line := r'.line + 1 } :=
        { left := ⟨h.left.chunked, hle⟩
          right := ⟨hchunked, by rw [hpending']; exact Nat.zero_le _⟩
          ahead := by
            simp only [Reader.ahead, hpending']
            rw [rest_consume hle, Input.rest, ← hnext]
            rfl
          dialect := h.dialect
          multiline := h.multiline
          recordLimit := h.recordLimit
          first := hfirst
          line := by rw [h.line] }
      simp only [hraw, isBlank_take hnewline hpos hlt, hparse]
      rw [if_neg (by omega), if_neg (by simp)]
      cases parseUnquotedRecord ((r.input.buffer.take count).take stop) r.dialect.delimiter
          r.dialect.limit with
      | error e => rfl
      | ok fields => exact hagree.checked _

/-- `next` delivers what the slow path delivers. -/
theorem next_agrees {r r' : Reader} (h : Agree r r') : SameResult r.next r'.nextSlow := by
  have hstart : Agree
      { r with input := (r.input.consume r.pendingConsume).fill, pendingConsume := 0 }
      { r' with
        input := r'.input.consume r'.pendingConsume, pendingConsume := 0, line := r.line } :=
    { left := ⟨(h.left.chunked.consume _).fill, Nat.zero_le _⟩
      right := ⟨h.right.chunked.consume _, Nat.zero_le _⟩
      ahead := by
        have := h.ahead
        rw [Reader.ahead, ← rest_fill] at this
        exact this
      dialect := h.dialect
      multiline := h.multiline
      recordLimit := h.recordLimit
      first := h.first
      line := rfl }
  unfold Reader.next Reader.nextSlow
  rw [← h.line]
  simp only
  split
  · next hline => exact fastPath_agrees hstart rfl rfl hline
  · exact assemble_agree hstart rfl rfl

/-! ## Records -/

/-- Nothing is read at the end of the input only, and adds nothing to the record. -/
theorem physicalLine_zero {maximum : Nat} {input next : Input} {raw output : Bytes}
    (h : input.Chunked) (hline : physicalLine maximum input raw 0 = .ok (0, next, output)) :
    output = raw := by
  have hreads : Reads 0 (physicalLine maximum input raw 0) (lineOf maximum input.rest raw) :=
    physicalLine_reads h
  rw [hline, lineOf] at hreads
  split at hreads
  · split at hreads
    · exact absurd hreads id
    · obtain ⟨hzero, _, _, houtput⟩ := hreads
      have hnil : input.rest = [] := List.eq_nil_of_length_eq_zero (by omega)
      rw [houtput, hnil, List.append_nil]
  · split at hreads
    · exact absurd hreads id
    · split at hreads
      · split at hreads
        · exact absurd hreads id
        · have := hreads.1
          omega
      · have := hreads.1
        omega

/-- A line leaves chunks that are not empty. -/
theorem physicalLine_chunked {maximum read : Nat} {input next : Input} {raw output : Bytes}
    (h : input.Chunked) (hline : physicalLine maximum input raw 0 = .ok (read, next, output)) :
    next.Chunked := by
  have hreads : Reads 0 (physicalLine maximum input raw 0) (lineOf maximum input.rest raw) :=
    physicalLine_reads h
  rw [hline] at hreads
  cases hspec : lineOf maximum input.rest raw with
  | error e => rw [hspec] at hreads; exact absurd hreads id
  | ok result => rw [hspec] at hreads; exact hreads.2.2.1

/-- A record that is checked is delivered as it is. -/
theorem checked_ok {r r' : Reader} {record : Record} {delivered : Option Record}
    (h : checked r record = .ok (delivered, r')) :
    delivered = some record ∧ r' = r ∧ (fromUtf8 record.raw).isSome = true := by
  unfold checked at h
  split at h
  · cases h
  · next htext =>
      cases h
      exact ⟨rfl, rfl, by rw [htext]; rfl⟩

/-- A record of the slow path is a parsed text, and its bytes are gone from the input. -/
theorem assemble_record {r r' : Reader} {raw : Bytes} {recordLine : Nat} {record : Record}
    (hchunked : r.input.Chunked) (hraw : raw = [] ∨ parseRecord r.dialect raw = .ok .more)
    (h : assemble r raw recordLine = .ok (some record, r')) :
    parseRecord r.dialect record.raw = .ok (.complete record.fields) ∧
      (fromUtf8 record.raw).isSome = true ∧ r'.pendingConsume = r.pendingConsume ∧
      r'.input.rest.length < r.input.rest.length := by
  fun_induction assemble r raw recordLine with
  | case1 | case2 | case3 | case4 | case7 | case10 => cases h
  | case5 r raw recordLine next output hne fields hparse hline =>
      -- the same bytes were parsed at the end of the line before
      have hsame := physicalLine_zero hchunked hline
      rw [← hsame, hparse] at hraw
      rcases hraw with rfl | hmore
      · exact absurd rfl hne
      · cases hmore
  | case6 r raw recordLine read next output hline hread line r₁ hblank ih =>
      have hlength := physicalLine_length hline
      obtain ⟨hparse, htext, hpending, hlt⟩ := ih (physicalLine_chunked hchunked hline) (.inl rfl) h
      exact ⟨hparse, htext, hpending, Nat.lt_trans hlt (by dsimp only [r₁]; omega)⟩
  | case8 r raw recordLine read next output hline hread line r₁ hblank fields hparse =>
      have hlength := physicalLine_length hline
      obtain ⟨hrecord, rfl, htext⟩ := checked_ok h
      cases hrecord
      exact ⟨hparse, htext, rfl, by dsimp only [r₁]; omega⟩
  | case9 r raw recordLine read next output hline hread line r₁ hblank hparse hmultiline ih =>
      have hlength := physicalLine_length hline
      obtain ⟨hparse, htext, hpending, hlt⟩ :=
        ih (physicalLine_chunked hchunked hline) (.inr hparse) h
      exact ⟨hparse, htext, hpending, Nat.lt_trans hlt (by dsimp only [r₁]; omega)⟩

/-- A record that `next` delivers can be iterated, and is gone from the input. -/
theorem next_record {r r' : Reader} {record : Record} (h : r.Settled)
    (hnext : r.next = .ok (some record, r')) :
    r'.Settled ∧ r'.ahead.length < r.ahead.length ∧
      (∀ field ∈ record.fields, field.text.Within record.raw) ∧ record.cells.isSome = true := by
  have hsame := next_agrees h.agree
  rw [hnext] at hsame
  cases hslow : r.nextSlow with
  | error e => rw [hslow] at hsame; exact absurd hsame id
  | ok result =>
      obtain ⟨delivered, r''⟩ := result
      rw [hslow] at hsame
      obtain ⟨rfl, hagree⟩ := hsame
      obtain ⟨hparse, htext, hpending, hlt⟩ := assemble_record
        (r := { r with input := r.input.consume r.pendingConsume, pendingConsume := 0 })
        (h.chunked.consume _) (.inl rfl) hslow
      obtain ⟨text, htext⟩ := Option.isSome_iff_exists.mp htext
      have hwithin := parseRecord_within hparse htext
      refine ⟨hagree.left, ?_, hwithin, Record.cells_isSome htext hwithin⟩
      rw [hagree.ahead, Reader.ahead, hpending]
      exact hlt

/-- Reading to the end: readers that agree deliver the same rows and the same error, after no more
calls than there are bytes. -/
theorem readAll_agrees {r r' : Reader} (h : Agree r r') :
    ∃ result, ∀ n > r.ahead.length, readAll Reader.next n r = some result ∧
      readAll Reader.nextSlow n r' = some result := by
  induction hn : r.ahead.length using Nat.strongRecOn generalizing r r' with
  | ind m ih => ?_
  subst hn
  have hsame := next_agrees h
  cases hnext : r.next with
  | error e =>
      cases hslow : r'.nextSlow with
      | ok result => rw [hnext, hslow] at hsame; exact absurd hsame id
      | error e' =>
          rw [hnext, hslow] at hsame
          obtain rfl : e = e' := hsame
          refine ⟨([], some e), fun n hn => ?_⟩
          cases n with
          | zero => exact absurd hn (Nat.not_lt_zero _)
          | succ n => simp only [readAll, hnext, hslow, and_self]
  | ok result =>
      obtain ⟨record, r₁⟩ := result
      cases hslow : r'.nextSlow with
      | error e => rw [hnext, hslow] at hsame; exact absurd hsame id
      | ok result =>
          obtain ⟨record', r₁'⟩ := result
          rw [hnext, hslow] at hsame
          obtain ⟨rfl, hagree⟩ := hsame
          cases record with
          | none =>
              refine ⟨([], none), fun n hn => ?_⟩
              cases n with
              | zero => exact absurd hn (Nat.not_lt_zero _)
              | succ n => simp only [readAll, hnext, hslow, and_self]
          | some record =>
              obtain ⟨_, hlt, _, hcells⟩ := next_record h.left hnext
              obtain ⟨cells, hcells⟩ := Option.isSome_iff_exists.mp hcells
              obtain ⟨⟨rows, error⟩, hrows⟩ := ih _ hlt hagree rfl
              refine ⟨({ line := record.line, cells } :: rows, error), fun n hn => ?_⟩
              cases n with
              | zero => exact absurd hn (Nat.not_lt_zero _)
              | succ n =>
                  obtain ⟨hleft, hright⟩ := hrows n (by omega)
                  simp only [readAll, hnext, hslow, hcells, hleft, hright]
                  exact ⟨rfl, rfl⟩

/-! ## All chunkings -/

/-- What a reader can become by calls of `next`. -/
inductive Reader.Reach (r : Reader) : Reader → Prop where
  | start : Reach r r
  | step {r₁ r₂ : Reader} {record : Record} (hreach : Reach r r₁)
      (hnext : r₁.next = .ok (some record, r₂)) : Reach r r₂

/-- A reader that is reached from a settled one is settled. -/
theorem Reader.Reach.settled {r r' : Reader} (h : r.Reach r') (hr : r.Settled) : r'.Settled := by
  induction h with
  | start => exact hr
  | step _ hnext ih => exact (next_record ih hnext).1

/-- Whatever chunks the input comes in, the reader delivers the records and the first error of the
slow path on the input as a whole, and every field of a record lies in it on character
boundaries. -/
theorem chunks_transparent (opts : Options) (chunks : List Bytes) (h : ∀ c ∈ chunks, c ≠ []) :
    (∃ result, ∀ n > chunks.flatten.length,
      readAll Reader.next n (Reader.new { buffer := [], chunks } opts) = some result ∧
      readAll Reader.nextSlow n (Reader.new { buffer := chunks.flatten, chunks := [] } opts) =
        some result) ∧
    ∀ {r r' : Reader} {record : Record},
      (Reader.new { buffer := [], chunks } opts).Reach r → r.next = .ok (some record, r') →
      (∀ field ∈ record.fields, field.text.Within record.raw) ∧ record.cells.isSome = true := by
  have hsettled : (Reader.new { buffer := [], chunks } opts).Settled := ⟨h, Nat.zero_le _⟩
  have hagree : Agree (Reader.new { buffer := [], chunks } opts)
      (Reader.new { buffer := chunks.flatten, chunks := [] } opts) :=
    { left := hsettled
      right := ⟨by simp [Reader.new, Input.Chunked], Nat.zero_le _⟩
      ahead := by simp [Reader.new, Reader.ahead, Input.consume, Input.rest]
      dialect := rfl
      multiline := rfl
      recordLimit := rfl
      first := rfl
      line := rfl }
  constructor
  · simpa [Reader.new, Reader.ahead, Input.consume, Input.rest] using readAll_agrees hagree
  · intro r r' record hreach hnext
    exact (next_record (hreach.settled hsettled) hnext).2.2

/-- The options of a plain import. -/
def sampleOptions : Options where
  delimiter := ','
  quote := '"'
  multiline := true
  legacyQuoting := false
  trimStrings := false
  bufferBytes := 4096
  memoryBytes := 1048576

/-- A field that lies in two chunks. -/
theorem chunks_transparent_small :
    ∃ result, ∀ n > 4,
      readAll Reader.next n (Reader.new { buffer := [], chunks := [[97, 44], [98, 10]] }
        sampleOptions) = some result ∧
      readAll Reader.nextSlow n (Reader.new { buffer := [97, 44, 98, 10], chunks := [] }
        sampleOptions) = some result :=
  (chunks_transparent sampleOptions [[97, 44], [98, 10]] (by decide)).1

end Velr.Csv
