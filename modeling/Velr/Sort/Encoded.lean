import Velr.Common.Reading
import Velr.Sort.IntegerIndex

/-!
# The readers of a sorted index

`write_encoded_record`, `read_encoded_record`, `EncodedIndexSource` and `EncodedRecordLengths` of
`index_builder.rs`. The page plan reads the lengths of the records and the page writer the records
themselves, from one stream and through buffers of their own; a witness is read from its place in
the file. Whatever the stream holds they find the same frames in it (`encoded_readers_agree`).
-/

namespace Velr.Sort.Encoded

open ByteString (Bytes)
open IndexStats (Failure)
open Reading (Read LawfulRead File BufReader drain Alike Answers)

/-! ## The writer -/

/-- `write_encoded_record`: the output and how many bytes of it are new. -/
def writeEncodedRecord (output record : Bytes) : Except Failure (Bytes × Nat) :=
  if 255 < record.length then .error (.error "secondary index record is too large")
  else
    let length := record.length
    if length = 0 then .error (.error "secondary index record is empty")
    else .ok (output ++ [.ofNat length] ++ record, 1 + length)

/-- The frame is the one the last merge writes. -/
theorem writeEncodedRecord_eq (output record : Bytes) :
    writeEncodedRecord output record =
      (Sort.writeEncodedRecord record).map fun framed => (output ++ framed, framed.length) := by
  rw [writeEncodedRecord, Sort.writeEncodedRecord]
  split
  case isTrue => rfl
  case isFalse =>
    by_cases hempty : record.length = 0
    · rw [if_pos hempty, if_pos hempty]
      rfl
    · rw [if_neg hempty, if_neg hempty, Except.map, List.length_cons, List.append_assoc,
        List.singleton_append, Nat.add_comm]

/-- Records one behind the other, with the places they are written at. -/
def writeAll : List Bytes → Bytes → Nat → Except Failure (Bytes × List Nat)
  | [], output, _ => .ok (output, [])
  | record :: records, output, offset => do
      let (output, written) ← writeEncodedRecord output record
      let (output, offsets) ← writeAll records output (offset + written)
      .ok (output, offset :: offsets)

/-! ## The readers -/

/-- `read_encoded_record` -/
def readEncodedRecord {R : Type} [Read R] (input : R) : Except Failure (Option Bytes) × R :=
  match Read.read input 1 with
  | ([], input) => (.ok none, input)
  | (length :: _, input) =>
      if length = 0 then (.error (.error "encoded secondary index record is empty"), input)
      else
        match Read.readExact input length.toNat with
        | (none, input) => (.error (.error "failed to fill whole buffer"), input)
        | (some record, input) => (.ok (some record), input)

/-- `EncodedIndexSource` -/
structure EncodedIndexSource where
  input : BufReader File
  pending : Nat
  record : Bytes

/-- A source at the start of a file. -/
def EncodedIndexSource.withCapacity (capacity : Nat) (hcapacity : 0 < capacity) (file : File) :
    EncodedIndexSource :=
  { input := .withCapacity capacity hcapacity file, pending := 0, record := [] }

/-- `EncodedIndexSource::open` -/
def EncodedIndexSource.open (file : File) : EncodedIndexSource :=
  .withCapacity (256 * 1024) (by decide) file

/-- `EncodedIndexSource::next` -/
def EncodedIndexSource.next (source : EncodedIndexSource) :
    Except Failure (Option (Int64 × Bytes)) × EncodedIndexSource :=
  let input := (source.input.consume source.pending).fillBuf
  match input.buffer with
  | [] => (.ok none, { source with input, pending := 0 })
  | length :: bytes =>
      let stop := length.toNat + 1
      if length ≠ 0 ∧ stop ≤ bytes.length + 1 then
        (.ok (some (0, bytes.take length.toNat)), { source with input, pending := stop })
      else
        match readEncodedRecord input with
        | (.error failure, input) => (.error failure, { source with input, pending := 0 })
        | (.ok none, input) => (.ok none, { source with input, pending := 0 })
        | (.ok (some record), input) =>
            (.ok (some (0, record)), { input, pending := 0, record })

/-- `EncodedRecordLengths` -/
structure EncodedRecordLengths where
  input : BufReader File
  finished : Bool

/-- A reader of lengths at the start of a file. -/
def EncodedRecordLengths.withCapacity (capacity : Nat) (hcapacity : 0 < capacity) (file : File) :
    EncodedRecordLengths :=
  { input := .withCapacity capacity hcapacity file, finished := false }

/-- `EncodedRecordLengths::open` -/
def EncodedRecordLengths.open (file : File) : EncodedRecordLengths :=
  .withCapacity (256 * 1024) (by decide) file

/-- `EncodedRecordLengths::next`: the loop over the bytes of a record. -/
def skipRecord {R : Type} [Read R] (remaining : Nat) (input : BufReader R) :
    Except Failure Unit × BufReader R :=
  if _hremaining : remaining = 0 then (.ok (), input)
  else if _hbuffer : input.fillBuf.buffer = [] then
    (.error (.error "encoded secondary index record is truncated"), input.fillBuf)
  else
    let skip := min remaining input.fillBuf.buffer.length
    skipRecord (remaining - skip) (input.fillBuf.consume skip)
termination_by remaining
decreasing_by
  have hpos := List.length_pos_of_ne_nil _hbuffer
  omega

/-- `EncodedRecordLengths::next`: the closure. -/
def nextLength {R : Type} [Read R] (input : BufReader R) :
    Except Failure (Option Nat) × BufReader R :=
  let input := input.fillBuf
  match input.buffer with
  | [] => (.ok none, input)
  | length :: _ =>
      if length = 0 then (.error (.error "encoded secondary index record is empty"), input)
      else
        match skipRecord length.toNat (input.consume 1) with
        | (.error failure, input) => (.error failure, input)
        | (.ok (), input) => (.ok (some length.toNat), input)

/-- `EncodedRecordLengths::next` -/
def EncodedRecordLengths.next (lengths : EncodedRecordLengths) :
    Option (Except Failure Nat) × EncodedRecordLengths :=
  if lengths.finished then (none, lengths)
  else
    match nextLength lengths.input with
    | (.ok (some length), input) => (some (.ok length), { lengths with input })
    | (.ok none, input) => (none, { input, finished := true })
    | (.error failure, input) => (some (.error failure), { input, finished := true })

/-- `next` of the lengths as a `next` of records: `transpose`. -/
def EncodedRecordLengths.nextTransposed (lengths : EncodedRecordLengths) :
    Except Failure (Option Nat) × EncodedRecordLengths :=
  match lengths.next with
  | (none, lengths) => (.ok none, lengths)
  | (some (.ok length), lengths) => (.ok (some length), lengths)
  | (some (.error failure), lengths) => (.error failure, lengths)

/-! ## One frame -/

/-- The next frame of a stream and what is behind it. -/
def nextFrame (bytes : Bytes) : Except Failure (Option Bytes) × Bytes :=
  match Sort.readEncodedRecord bytes with
  | .error failure => (.error failure, bytes)
  | .ok none => (.ok none, bytes)
  | .ok (some (record, rest)) => (.ok (some record), rest)

/-- A record without bytes is an error. -/
theorem nextFrame_zero (bytes : Bytes) :
    nextFrame (0 :: bytes) =
      (.error (.error "encoded secondary index record is empty"), 0 :: bytes) := rfl

/-- So is a record that is cut short. -/
theorem nextFrame_cut {length : UInt8} {bytes : Bytes} (hlength : length ≠ 0)
    (hcut : bytes.length < length.toNat) :
    nextFrame (length :: bytes) =
      (.error (.error "failed to fill whole buffer"), length :: bytes) := by
  rw [nextFrame, Sort.readEncodedRecord, if_neg hlength, if_pos hcut]

/-- A whole record is returned. -/
theorem nextFrame_whole {length : UInt8} {bytes : Bytes} (hlength : length ≠ 0)
    (hwhole : length.toNat ≤ bytes.length) :
    nextFrame (length :: bytes) =
      (.ok (some (bytes.take length.toNat)), bytes.drop length.toNat) := by
  rw [nextFrame, Sort.readEncodedRecord, if_neg hlength, if_neg (Nat.not_lt.mpr hwhole)]

/-- `read_encoded_record` reads the frame in front of it. -/
theorem readEncodedRecord_answers {R : Type} [LawfulRead R] {bytes : Bytes} {input : R}
    (h : LawfulRead.unread input = bytes) :
    Answers id (LawfulRead.unread (readEncodedRecord input).2 = (nextFrame bytes).2)
      (nextFrame bytes).1 (readEncodedRecord input).1 := by
  cases bytes with
  | nil =>
      have hread := (Reading.read_of_nil h 1).1
      rcases hcall : Read.read input 1 with ⟨got, input₁⟩
      rw [hcall] at hread
      subst hread
      simp only [readEncodedRecord, hcall]
      rfl
  | cons length bytes =>
      obtain ⟨hfirst, hbytes⟩ := Reading.read_one h
      rcases hcall : Read.read input 1 with ⟨got, input₁⟩
      rw [hcall] at hfirst hbytes
      dsimp only at hfirst hbytes
      subst hfirst
      simp only [readEncodedRecord, hcall]
      by_cases hlength : length = 0
      · subst hlength
        rw [nextFrame_zero, if_pos rfl]
        exact ⟨_, rfl⟩
      · rw [if_neg hlength]
        rcases hrest : Read.readExact input₁ length.toNat with ⟨record, input₂⟩
        by_cases hwhole : length.toNat ≤ bytes.length
        · obtain ⟨hrecord, hbehind⟩ := LawfulRead.readExact_of_le (hbytes ▸ hwhole)
          rw [hrest, hbytes] at hrecord hbehind
          dsimp only at hrecord
          subst hrecord
          rw [nextFrame_whole hlength hwhole]
          exact ⟨rfl, hbehind⟩
        · have hnone := LawfulRead.readExact_of_lt (hbytes ▸ Nat.lt_of_not_le hwhole)
          rw [hrest] at hnone
          dsimp only at hnone
          subst hnone
          rw [nextFrame_cut hlength (Nat.lt_of_not_le hwhole)]
          exact ⟨_, rfl⟩

/-- A source in front of some bytes; the frame it has lent is still in its buffer. -/
structure EncodedIndexSource.At (source : EncodedIndexSource) (bytes : Bytes) : Prop where
  pending : source.pending ≤ source.input.buffer.length
  unread : source.input.unread.drop source.pending = bytes

/-- The buffered source answers as the frames of its bytes do. -/
theorem EncodedIndexSource.next_answers {bytes : Bytes} {source : EncodedIndexSource}
    (h : source.At bytes) :
    Answers (fun record => (0, record)) (source.next.2.At (nextFrame bytes).2)
      (nextFrame bytes).1 source.next.1 := by
  have hunread : (source.input.consume source.pending).unread = bytes :=
    (BufReader.unread_consume h.pending).trans h.unread
  have hfilled := (BufReader.unread_fillBuf (source.input.consume source.pending)).trans hunread
  have hnil := BufReader.buffer_fillBuf_eq_nil (source.input.consume source.pending)
  have hprefix := BufReader.buffer_prefix (source.input.consume source.pending).fillBuf
  have hslow := @readEncodedRecord_answers (BufReader File) _ bytes _ hfilled
  rw [hunread] at hnil
  rw [hfilled] at hprefix
  simp only [EncodedIndexSource.next]
  generalize (source.input.consume source.pending).fillBuf = input at *
  cases hbuffer : input.buffer with
  | nil =>
      obtain rfl : bytes = [] := hnil.mp hbuffer
      exact rfl
  | cons length buffered =>
      rw [hbuffer] at hprefix
      obtain ⟨behind, rfl⟩ := hprefix
      dsimp only
      by_cases hlend : length ≠ 0 ∧ length.toNat + 1 ≤ buffered.length + 1
      · have hwhole : length.toNat ≤ (buffered ++ behind).length := by
          rw [List.length_append]
          omega
        rw [if_pos hlend, List.cons_append, nextFrame_whole hlend.1 hwhole,
          List.take_append_of_le_length (by omega)]
        refine ⟨rfl, ?_, ?_⟩
        · rw [hbuffer, List.length_cons]
          exact hlend.2
        · show input.unread.drop (length.toNat + 1) = _
          rw [hfilled, List.cons_append, List.drop_succ_cons]
      · rw [if_neg hlend]
        rcases hcall : readEncodedRecord input with ⟨answer, input'⟩
        rw [hcall] at hslow
        rcases hframe : nextFrame (length :: buffered ++ behind) with ⟨found, rest⟩
        rw [hframe] at hslow
        rcases found with failure | _ | record
        · obtain ⟨failure', rfl⟩ := hslow
          exact ⟨failure', rfl⟩
        · obtain rfl : answer = .ok none := hslow
          exact rfl
        · obtain ⟨rfl, hrest⟩ := hslow
          exact ⟨rfl, Nat.zero_le _, hrest⟩

/-- The bytes of a record are passed over, however they lie in the buffer. -/
theorem skipRecord_of_le {R : Type} [LawfulRead R] {remaining : Nat} {input : BufReader R}
    (h : remaining ≤ input.unread.length) :
    (skipRecord remaining input).1 = .ok () ∧
      (skipRecord remaining input).2.unread = input.unread.drop remaining := by
  induction remaining using Nat.strongRecOn generalizing input with
  | ind remaining ih =>
  rw [skipRecord]
  split
  case isTrue hremaining => subst hremaining; exact ⟨rfl, rfl⟩
  case isFalse hremaining =>
    split
    case isTrue hbuffer =>
      rw [(BufReader.buffer_fillBuf_eq_nil input).mp hbuffer, List.length_nil] at h
      omega
    case isFalse hbuffer =>
      have hpos := List.length_pos_of_ne_nil hbuffer
      have hconsume := @BufReader.unread_consume _ _ input.fillBuf _
        (Nat.min_le_right remaining input.fillBuf.buffer.length)
      rw [BufReader.unread_fillBuf] at hconsume
      obtain ⟨hresult, hrest⟩ := ih (remaining - min remaining input.fillBuf.buffer.length)
        (by omega) (show _ ≤ (input.fillBuf.consume _).unread.length by
          rw [hconsume, List.length_drop]; omega)
      refine ⟨hresult, ?_⟩
      rw [hrest, hconsume, List.drop_drop]
      congr 1
      omega

/-- Skipping a record that is cut short is an error. -/
theorem skipRecord_of_lt {R : Type} [LawfulRead R] {remaining : Nat} {input : BufReader R}
    (h : input.unread.length < remaining) :
    (skipRecord remaining input).1 =
      .error (.error "encoded secondary index record is truncated") := by
  induction remaining using Nat.strongRecOn generalizing input with
  | ind remaining ih =>
  rw [skipRecord, dif_neg (by omega)]
  split
  case isTrue => rfl
  case isFalse hbuffer =>
    have hpos := List.length_pos_of_ne_nil hbuffer
    have hfilled := input.fillBuf.buffer_prefix.length_le
    have hconsume := @BufReader.unread_consume _ _ input.fillBuf _
      (Nat.min_le_right remaining input.fillBuf.buffer.length)
    rw [BufReader.unread_fillBuf] at hconsume hfilled
    exact ih (remaining - min remaining input.fillBuf.buffer.length) (by omega)
      (by rw [hconsume, List.length_drop]; omega)

/-- The lengths in front of some bytes. -/
structure EncodedRecordLengths.At (lengths : EncodedRecordLengths) (bytes : Bytes) : Prop where
  finished : lengths.finished = false
  unread : lengths.input.unread = bytes

/-- So do the lengths. -/
theorem EncodedRecordLengths.next_answers {bytes : Bytes} {lengths : EncodedRecordLengths}
    (h : lengths.At bytes) :
    Answers List.length (lengths.nextTransposed.2.At (nextFrame bytes).2) (nextFrame bytes).1
      lengths.nextTransposed.1 := by
  have hfilled := BufReader.unread_fillBuf lengths.input
  have hnil := BufReader.buffer_fillBuf_eq_nil lengths.input
  have hprefix := BufReader.buffer_prefix lengths.input.fillBuf
  rw [h.unread] at hnil hfilled
  rw [hfilled] at hprefix
  simp only [EncodedRecordLengths.nextTransposed, EncodedRecordLengths.next, h.finished, nextLength]
  generalize lengths.input.fillBuf = input at *
  cases hbuffer : input.buffer with
  | nil =>
      obtain rfl : bytes = [] := hnil.mp hbuffer
      exact rfl
  | cons length buffered =>
      rw [hbuffer] at hprefix
      obtain ⟨behind, rfl⟩ := hprefix
      by_cases hlength : length = 0
      · subst hlength
        rw [List.cons_append, nextFrame_zero]
        exact ⟨_, rfl⟩
      · have hconsume := @BufReader.unread_consume _ _ input 1
          (by rw [hbuffer, List.length_cons]; omega)
        rw [hfilled, List.cons_append, List.drop_one, List.tail_cons] at hconsume
        rcases hskip : skipRecord length.toNat (input.consume 1) with ⟨result, input'⟩
        simp only [if_neg hlength, hskip, Bool.false_eq_true, if_false]
        by_cases hwhole : length.toNat ≤ (buffered ++ behind).length
        · obtain ⟨hresult, hrest⟩ := skipRecord_of_le (hconsume ▸ hwhole)
          rw [hskip, hconsume] at hrest
          rw [hskip] at hresult
          dsimp only at hresult
          subst hresult
          rw [List.cons_append, nextFrame_whole hlength hwhole]
          refine ⟨?_, rfl, hrest⟩
          rw [List.length_take_of_le hwhole]
        · have hresult := skipRecord_of_lt (hconsume ▸ Nat.lt_of_not_le hwhole)
          rw [hskip] at hresult
          dsimp only at hresult
          subst hresult
          rw [List.cons_append, nextFrame_cut hlength (Nat.lt_of_not_le hwhole)]
          exact ⟨_, rfl⟩

/-! ## A whole stream -/

/-- Each frame takes bytes off the stream, so it ends. -/
theorem drain_nextFrame_isSome {n : Nat} {bytes : Bytes} (h : bytes.length < n) :
    (drain nextFrame n bytes).2.isSome = true := by
  induction n generalizing bytes with
  | zero => cases h
  | succ n ih =>
      rcases bytes with _ | ⟨length, bytes⟩
      · rfl
      · rw [List.length_cons] at h
        by_cases hlength : length = 0
        · subst hlength
          simp only [drain, nextFrame_zero, Option.isSome_some]
        · by_cases hwhole : length.toNat ≤ bytes.length
          · simp only [drain, nextFrame_whole hlength hwhole]
            exact ih (by rw [List.length_drop]; omega)
          · simp only [drain, nextFrame_cut hlength (Nat.lt_of_not_le hwhole), Option.isSome_some]

/-- A record that was written is read back. -/
theorem nextFrame_record {record : Bytes} (h : 0 < record.length ∧ record.length ≤ 255)
    (rest : Bytes) :
    nextFrame (.ofNat record.length :: (record ++ rest)) = (.ok (some record), rest) := by
  rw [nextFrame, readEncodedRecord_frame h]

/-- So are several, up to the end of the file. -/
theorem drain_framesOf {records : List Bytes}
    (h : ∀ record ∈ records, 0 < record.length ∧ record.length ≤ 255) :
    drain nextFrame (records.length + 1) (framesOf records) = (records, some none) := by
  induction records with
  | nil => rfl
  | cons record records ih =>
      have hrest := ih fun r hr => h r (by simp [hr])
      rw [framesOf_cons, List.length_cons, drain, nextFrame_record (h record (by simp))]
      simp only [hrest]

/-- A stream that is read whole. -/
theorem drain_of_readEncoded {n : Nat} {bytes : Bytes} {records : List Bytes}
    (hn : bytes.length < n) (h : readEncoded bytes = .ok records) :
    drain nextFrame n bytes = (records, some none) := by
  induction n generalizing bytes records with
  | zero => cases hn
  | succ n ih =>
      rcases bytes with _ | ⟨length, bytes⟩
      · rw [readEncoded] at h
        cases h
        rfl
      · rw [List.length_cons] at hn
        rw [readEncoded] at h
        split at h
        case h_1 => cases h
        case h_2 hread =>
          rw [Sort.readEncodedRecord] at hread
          split at hread
          · cases hread
          · split at hread <;> cases hread
        case h_3 record rest hread =>
          obtain ⟨records, hrest, hcons⟩ := Results.bind_eq_ok_iff.mp h
          cases hcons
          have hless : rest.length < n := by
            rw [Sort.readEncodedRecord] at hread
            split at hread
            · cases hread
            · split at hread
              · cases hread
              · cases hread
                rw [List.length_drop]
                omega
          simp only [drain, nextFrame, hread, ih hless hrest]

/-- The writer leaves the frames of its records, and returns where each begins. -/
theorem writeAll_eq {records : List Bytes} (output : Bytes) (offset : Nat)
    (h : ∀ record ∈ records, 0 < record.length ∧ record.length ≤ 255) :
    writeAll records output offset =
      .ok (output ++ framesOf records, offsetsFrom offset records) := by
  induction records generalizing output offset with
  | nil => rw [writeAll, framesOf_nil, List.append_nil, offsetsFrom]
  | cons record records ih =>
      have hrecord := h record (by simp)
      have hwrite : writeEncodedRecord output record =
          .ok (output ++ .ofNat record.length :: record, record.length + 1) := by
        rw [writeEncodedRecord_eq, Sort.writeEncodedRecord, if_neg (by omega), if_neg (by omega)]
        rfl
      rw [writeAll, hwrite]
      simp only [bind, Except.bind]
      rw [ih _ _ fun r hr => h r (by simp [hr])]
      rw [framesOf_cons, offsetsFrom, List.append_assoc, List.cons_append]

/-- The stream from the place of a record on. -/
theorem drop_offsetsFrom {records : List Bytes} {i : Nat} (hi : i < records.length)
    (front : Bytes) :
    ∃ place, (offsetsFrom front.length records)[i]? = some place ∧
      (front ++ framesOf records).drop place = framesOf (records.drop i) := by
  induction records generalizing front i with
  | nil => cases hi
  | cons record records ih =>
      cases i with
      | zero => exact ⟨front.length, rfl, List.drop_left⟩
      | succ i =>
          have hfront : (front ++ .ofNat record.length :: record).length =
              front.length + (record.length + 1) := by
            rw [List.length_append, List.length_cons]
          obtain ⟨place, hplace, hdrop⟩ := ih (Nat.lt_of_succ_lt_succ hi)
            (front ++ .ofNat record.length :: record)
          rw [hfront] at hplace
          refine ⟨place, hplace, ?_⟩
          rw [framesOf_cons, List.drop_succ_cons, ← hdrop, List.append_assoc, List.cons_append]

/-- Reading at the place of a record, wherever the file stood. -/
theorem readEncodedRecord_seek {records : List Bytes}
    (h : ∀ record ∈ records, 0 < record.length ∧ record.length ≤ 255) {i : Nat}
    (hi : i < records.length) {place : Nat} {file : File}
    (hfile : file.bytes = framesOf records)
    (hplace : (framesOf records).drop place = framesOf (records.drop i)) :
    (readEncodedRecord (file.seek place)).1 = .ok (some records[i]) := by
  have hunread : LawfulRead.unread (file.seek place) =
      .ofNat records[i].length :: (records[i] ++ framesOf (records.drop (i + 1))) := by
    rw [← framesOf_cons, ← List.drop_eq_getElem_cons hi, ← hplace, ← hfile]
    rfl
  have hanswer := readEncodedRecord_answers hunread
  rw [nextFrame_record (h _ (List.getElem_mem hi))] at hanswer
  exact hanswer.1

/-- The unbuffered reader reads the frames of its bytes. -/
theorem drain_readEncodedRecord {R : Type} [LawfulRead R] (n : Nat) (input : R) :
    Alike id (drain nextFrame n (LawfulRead.unread input)) (drain readEncodedRecord n input) :=
  @Reading.drain_alike _ _ _ _ _ _ _ _ (fun bytes (input : R) => LawfulRead.unread input = bytes)
    readEncodedRecord_answers n _ _ rfl

/-- So does the buffered source, whatever its capacity. -/
theorem drain_source {capacity : Nat} (hcapacity : 0 < capacity) (short : Nat → Nat) (n : Nat)
    (bytes : Bytes) :
    Alike (fun record => (0, record)) (drain nextFrame n bytes)
      (drain EncodedIndexSource.next n (.withCapacity capacity hcapacity (.open bytes short))) :=
  @Reading.drain_alike _ _ _ _ _ _ _ _ (fun bytes source => source.At bytes)
    EncodedIndexSource.next_answers n _ _ ⟨Nat.le_refl 0, rfl⟩

/-- So do the lengths, whatever their capacity. -/
theorem drain_lengths {capacity : Nat} (hcapacity : 0 < capacity) (short : Nat → Nat) (n : Nat)
    (bytes : Bytes) :
    Alike List.length (drain nextFrame n bytes)
      (drain EncodedRecordLengths.nextTransposed n
        (.withCapacity capacity hcapacity (.open bytes short))) :=
  @Reading.drain_alike _ _ _ _ _ _ _ _ (fun bytes lengths => lengths.At bytes)
    EncodedRecordLengths.next_answers n _ _ ⟨rfl, rfl⟩

/-- What a source returns of a stream, one record after another. -/
theorem drain_source_of_readEncoded {capacity : Nat} (hcapacity : 0 < capacity)
    (short : Nat → Nat) {bytes : Bytes} {records : List Bytes}
    (h : readEncoded bytes = .ok records) :
    drain EncodedIndexSource.next (bytes.length + 1)
        (.withCapacity capacity hcapacity (.open bytes short)) =
      (records.map fun record => (0, record), some none) := by
  have hsource := drain_source hcapacity short (bytes.length + 1) bytes
  rw [drain_of_readEncoded (Nat.lt_succ_self _) h] at hsource
  exact hsource.ended

/-- The three readers of a stream find the same frames in it, the same end, and an error at the same
frame, whatever their buffers and however short the reads of the file are. What the writer has
written they read back whole, and each record again at its place. -/
theorem encoded_readers_agree {capacity capacity' : Nat} (hcapacity : 0 < capacity)
    (hcapacity' : 0 < capacity') (short short' : Nat → Nat) :
    (∀ {R : Type} [LawfulRead R] (input : R) (n : Nat),
      let file := LawfulRead.unread input
      let records := drain readEncodedRecord n input
      Alike (fun record => (0, record)) records
          (drain EncodedIndexSource.next n (.withCapacity capacity hcapacity (.open file short))) ∧
        Alike List.length records
          (drain EncodedRecordLengths.nextTransposed n
            (.withCapacity capacity' hcapacity' (.open file short'))) ∧
        (file.length < n → records.2.isSome = true)) ∧
    ∀ {records : List Bytes}, (∀ record ∈ records, 0 < record.length ∧ record.length ≤ 255) →
      ∃ output offsets, writeAll records [] 0 = .ok (output, offsets) ∧
        (∀ {R : Type} [LawfulRead R] (input : R), LawfulRead.unread input = output →
          drain readEncodedRecord (records.length + 1) input = (records, some none)) ∧
        drain EncodedIndexSource.next (records.length + 1)
            (.withCapacity capacity hcapacity (.open output short)) =
          (records.map fun record => (0, record), some none) ∧
        drain EncodedRecordLengths.nextTransposed (records.length + 1)
            (.withCapacity capacity' hcapacity' (.open output short')) =
          (records.map List.length, some none) ∧
        ∀ {i : Nat} (hi : i < records.length), ∃ place, offsets[i]? = some place ∧
          ∀ file : File, file.bytes = output →
            (readEncodedRecord (file.seek place)).1 = .ok (some records[i]) := by
  refine ⟨fun {R} _ input n => ?_, fun {records} hrecords => ?_⟩
  · have hread := drain_readEncodedRecord n input
    refine ⟨hread.comm (drain_source hcapacity short n _),
      hread.comm (drain_lengths hcapacity' short' n _), fun hn => ?_⟩
    have hisSome := congrArg Option.isSome hread.2
    rw [Option.isSome_map, Option.isSome_map] at hisSome
    exact hisSome.trans (drain_nextFrame_isSome hn)
  · have hwrite := writeAll_eq [] 0 hrecords
    rw [List.nil_append] at hwrite
    have hsource := drain_source hcapacity short (records.length + 1) (framesOf records)
    have hlengths := drain_lengths hcapacity' short' (records.length + 1) (framesOf records)
    rw [drain_framesOf hrecords] at hsource hlengths
    refine ⟨_, _, hwrite, ?_, hsource.ended, hlengths.ended, ?_⟩
    · intro R _ input hinput
      have hread := drain_readEncodedRecord (records.length + 1) input
      rw [hinput, drain_framesOf hrecords] at hread
      rw [hread.ended, List.map_id]
    · intro i hi
      obtain ⟨place, hplace, hdrop⟩ := drop_offsetsFrom hi []
      exact ⟨place, hplace, fun file hfile => readEncodedRecord_seek hrecords hi hfile hdrop⟩

/-- A file whose second record is cut short. -/
theorem encoded_readers_agree_small :
    Alike (fun record => (0, record))
        (drain readEncodedRecord 3 (File.open [2, 7, 8, 5, 1] fun _ => 0))
        (drain EncodedIndexSource.next 3
          (.withCapacity 2 (by decide) (.open [2, 7, 8, 5, 1] fun _ => 1))) ∧
      drain EncodedRecordLengths.nextTransposed 3
          (.withCapacity 1 (by decide) (.open [2, 7, 8, 1, 9] fun _ => 0)) =
        ([2, 1], some none) := by
  have h := encoded_readers_agree (Nat.succ_pos 1) (Nat.succ_pos 0) (fun _ => 1) fun _ => 0
  obtain ⟨output, offsets, hwrite, -, -, hlengths, -⟩ :=
    h.2 (show ∀ record ∈ [[7, 8], [9]], 0 < record.length ∧ record.length ≤ 255 by decide)
  obtain rfl : output = [2, 7, 8, 1, 9] := by
    cases hwrite
    rfl
  exact ⟨(h.1 (File.open [2, 7, 8, 5, 1] fun _ => 0) 3).1, hlengths⟩

end Velr.Sort.Encoded
