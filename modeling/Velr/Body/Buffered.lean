import Velr.Body.Primary
import Velr.Common.Reading

/-!
# The record reader and its buffer

`RecordReader` of `bulk_body.rs` with the buffer it reads through: a frame that lies in the buffer
is lent from there and consumed by the next call, any other is read piece by piece, and a witness is
read from the file behind a dropped buffer. Over a spool that is all one cursor on its frames
(`record_reader_cursor`). The `RecordReader` of `Velr.Body.Primary` leaves the buffer out; each call
here is one of its calls (`nextRecord_refines`, `readWitness_refines`).
-/

namespace Velr.Body.Buffered

open ByteString
open Reading (Read LawfulRead File BufReader)
open IndexStats (Failure)
open Results

/-! ## Reading -/

/-- `read_frame` -/
def readFrame {R : Type} [Read R] (input : R) : Except Failure (Option (Int64 × Bytes)) × R :=
  let (header, input) := Read.read input 1
  if header.length = 0 then (.ok none, input)
  else
    match Read.readExact input 11 with
    | (none, input) => (.error (.error "failed to fill whole buffer"), input)
    | (some more, input) =>
        let header := header ++ more
        let rowid := fromLeBytes (header.take 8)
        let length := ofLE (header.drop 8)
        match Read.readExact input length with
        | (none, input) => (.error (.error "failed to fill whole buffer"), input)
        | (some record, input) => (.ok (some (rowid, record)), input)

/-- `RecordReader` -/
structure RecordReader where
  input : BufReader File
  offset : Nat
  frameOffset : Nat
  pending : Nat
  record : Bytes

/-- A reader at the start of a file. -/
def RecordReader.withCapacity (capacity : Nat) (hcapacity : 0 < capacity) (file : File) :
    RecordReader :=
  { input := .withCapacity capacity hcapacity file, offset := 0, frameOffset := 0, pending := 0,
    record := [] }

/-- `RecordReader::open` -/
def RecordReader.open (file : File) : RecordReader := .withCapacity (1024 * 1024) (by decide) file

/-- `next_record`: the buffer behind the frame lent before. -/
def RecordReader.filled (reader : RecordReader) : BufReader File :=
  (reader.input.consume reader.pending).fillBuf

/-- `RecordReader::next_record` -/
def RecordReader.nextRecord (reader : RecordReader) :
    Except Failure (Option (Int64 × Bytes)) × RecordReader :=
  let input := reader.filled
  let frameOffset := reader.offset
  let reader := { reader with input, pending := 0 }
  if input.buffer.isEmpty then (.ok none, reader)
  else
    match wholeFrame input.buffer with
    | some (rowid, length) =>
        if 2 ^ 64 ≤ frameOffset + length then
          (.error (.error "record spool offset overflow"), { reader with frameOffset })
        else
          (.ok (some (rowid, slice input.buffer 12 (length - 12))),
            { reader with frameOffset, offset := frameOffset + length, pending := length })
    | none =>
        match readFrame input with
        | (.error failure, input) => (.error failure, { reader with input })
        | (.ok none, input) => (.ok none, { reader with input })
        | (.ok (some (rowid, record)), input) =>
            if 2 ^ 64 ≤ frameOffset + (12 + record.length) then
              (.error (.error "record spool offset overflow"),
                { reader with input, record, frameOffset })
            else
              (.ok (some (rowid, record)),
                { reader with
                  input, record, frameOffset, offset := frameOffset + (12 + record.length) })

/-- `RecordReader::next`, with the caller's `record`. -/
def RecordReader.next (reader : RecordReader) (record : Bytes) :
    Except Failure (Option Int64) × Bytes × RecordReader :=
  match reader.nextRecord with
  | (.error failure, reader) => (.error failure, record, reader)
  | (.ok none, reader) => (.ok none, record, reader)
  | (.ok (some (rowid, payload)), reader) => (.ok (some rowid), payload, reader)

/-- `RecordReader::read_witness`, with the caller's `record`. The file is read behind the dropped
buffer. -/
def RecordReader.readWitness (reader : RecordReader) (offset : Nat) (record : Bytes) :
    Except Failure Int64 × Bytes × RecordReader :=
  let input := reader.input.seek offset
  match readFrame input.inner with
  | (.error failure, inner) =>
      (.error failure, record, { reader with input := { input with inner }, pending := 0 })
  | (.ok none, inner) =>
      (.error (.error "index statistics witness is outside the record spool"), record,
        { reader with input := { input with inner }, pending := 0 })
  | (.ok (some (row, record)), inner) =>
      let reader :=
        { reader with input := { input with inner }, pending := 0, frameOffset := offset }
      if 2 ^ 64 ≤ offset + (12 + record.length) then
        (.error (.error "record spool offset overflow"), record, reader)
      else (.ok row, record, { reader with offset := offset + (12 + record.length) })

/-! ## One frame -/

/-- A frame as its reader returns it, without the bytes behind it. -/
def row (frame : Int64 × Bytes × Bytes) : Int64 × Bytes := (frame.1, frame.2.1)

/-- `read_frame` returns what the bytes in front of it hold and stops behind that. -/
theorem readFrame_spec {R : Type} [LawfulRead R] (input : R) :
    (readFrame input).1 = (Body.readFrame (LawfulRead.unread input)).map (Option.map row) ∧
      ∀ frame, Body.readFrame (LawfulRead.unread input) = .ok (some frame) →
        LawfulRead.unread (readFrame input).2 = frame.2.2 := by
  cases hunread : LawfulRead.unread input with
  | nil =>
      have hread := (Reading.read_of_nil hunread 1).1
      simp only [readFrame, hread, List.length_nil, if_pos]
      exact ⟨rfl, by rintro frame ⟨⟩⟩
  | cons b bs =>
      obtain ⟨hfirst, hbs⟩ := Reading.read_one hunread
      have hheader : [b] ++ bs.take 11 = (b :: bs).take 12 := rfl
      have hlength : ((b :: bs).take 12).drop 8 = slice (b :: bs) 8 4 := List.drop_take
      have hrowid : ((b :: bs).take 12).take 8 = (b :: bs).take 8 := List.take_take
      have hbehind : bs.drop 11 = (b :: bs).drop 12 := rfl
      rw [Body.readFrame, List.isEmpty_cons, if_neg (by decide), List.length_cons]
      simp only [readFrame, hfirst, List.length_singleton, Nat.one_ne_zero, if_false]
      rcases hmore : Read.readExact (Read.read input 1).2 11 with ⟨more, input₁⟩
      by_cases hlong : 11 ≤ bs.length
      · obtain ⟨hbytes, hrest⟩ := LawfulRead.readExact_of_le (hbs ▸ hlong)
        rw [hmore, hbs] at hbytes hrest
        rw [if_neg (by omega)]
        subst hbytes
        simp only [hheader, hlength, hrowid]
        rcases hpayload : Read.readExact input₁ (ofLE (slice (b :: bs) 8 4)) with ⟨record, input₂⟩
        by_cases hwhole : ((b :: bs).drop 12).length < ofLE (slice (b :: bs) 8 4)
        · have hnone := LawfulRead.readExact_of_lt (hrest.trans hbehind ▸ hwhole)
          rw [hpayload] at hnone
          subst hnone
          rw [if_pos hwhole]
          exact ⟨rfl, by rintro frame ⟨⟩⟩
        · obtain ⟨hrecord, hend⟩ :=
            LawfulRead.readExact_of_le (hrest.trans hbehind ▸ Nat.le_of_not_lt hwhole)
          rw [hpayload, hrest, hbehind] at hrecord hend
          subst hrecord
          rw [if_neg hwhole]
          refine ⟨rfl, ?_⟩
          rintro frame ⟨⟩
          exact hend
      · have hnone := LawfulRead.readExact_of_lt (hbs ▸ Nat.lt_of_not_le hlong)
        rw [hmore] at hnone
        subst hnone
        rw [if_pos (by omega)]
        exact ⟨rfl, by rintro frame ⟨⟩⟩

theorem contents_readFrame {R : Type} [LawfulRead R] (input : R) :
    LawfulRead.contents (readFrame input).2 = LawfulRead.contents input := by
  have hread := LawfulRead.contents_read input 1
  have hmore := LawfulRead.contents_readExact (Read.read input 1).2 11
  simp only [readFrame]
  split
  · exact hread
  · rcases hheader : Read.readExact (Read.read input 1).2 11 with ⟨more, input₁⟩
    rw [hheader] at hmore
    cases more with
    | none => exact hmore.trans hread
    | some more =>
        dsimp only
        rcases hpayload : Read.readExact input₁
          (ofLE (((Read.read input 1).1 ++ more).drop 8)) with ⟨record, input₂⟩
        have hrecord := LawfulRead.contents_readExact input₁
          (ofLE (((Read.read input 1).1 ++ more).drop 8))
        rw [hpayload] at hrecord
        cases record with
        | none => exact hrecord.trans (hmore.trans hread)
        | some record => exact hrecord.trans (hmore.trans hread)

/-- A frame found whole in the buffer is the one `read_frame` returns. -/
theorem readFrame_of_wholeFrame {buffered input : Bytes} {rowid : Int64} {length : Nat}
    (hfront : buffered <+: input) (h : wholeFrame buffered = some (rowid, length)) :
    Body.readFrame input =
        .ok (some (rowid, slice buffered 12 (length - 12), input.drop length)) ∧
      12 ≤ length ∧ length ≤ buffered.length := by
  obtain ⟨tail, rfl⟩ := hfront
  rw [wholeFrame] at h
  split at h
  case isFalse => cases h
  case isTrue hheader =>
    dsimp only at h
    split at h
    case isFalse => cases h
    case isTrue hwhole =>
      simp only [Option.some.injEq, Prod.mk.injEq] at h
      obtain ⟨hrowid, hlength⟩ := h
      have hsome : (buffered ++ tail).isEmpty = false := by
        rw [List.isEmpty_eq_false_iff, ← List.length_pos_iff, List.length_append]
        omega
      have hfield : slice (buffered ++ tail) 8 4 = slice buffered 8 4 :=
        slice_append_left (by omega)
      have hbehind : (buffered ++ tail).drop 12 = buffered.drop 12 ++ tail :=
        List.drop_append_of_le_length hheader
      have hpayload : ofLE (slice buffered 8 4) ≤ (buffered.drop 12).length := by
        rw [List.length_drop]
        omega
      have hstop : (buffered ++ tail).drop length =
          (buffered.drop 12).drop (ofLE (slice buffered 8 4)) ++ tail := by
        rw [← hlength, Nat.add_comm, ← List.drop_drop, hbehind,
          List.drop_append_of_le_length hpayload]
      refine ⟨?_, by omega, by omega⟩
      rw [Body.readFrame, hsome, if_neg (by decide),
        if_neg (by rw [List.length_append]; omega)]
      dsimp only
      rw [hfield, hbehind, if_neg (by rw [List.length_append]; omega),
        List.take_append_of_le_length hpayload, List.drop_append_of_le_length hpayload,
        List.take_append_of_le_length (by omega), hrowid, hstop, ← hlength, Nat.add_sub_cancel]
      rfl

/-! ## Where a reader stands -/

/-- A reader of `file` in front of the bytes `rest`. -/
structure Stands (reader : RecordReader) (file rest : Bytes) (offset frameOffset : Nat) : Prop where
  contents : reader.input.inner.bytes = file
  pending : reader.pending ≤ reader.input.buffer.length
  rest : reader.input.unread.drop reader.pending = rest
  offset : reader.offset = offset
  frameOffset : reader.frameOffset = frameOffset

variable {reader : RecordReader} {file rest : Bytes} {offset frameOffset : Nat}

/-- A reader that is opened stands at the start of the file. -/
theorem stands_withCapacity (capacity : Nat) (hcapacity : 0 < capacity) (file : Bytes)
    (short : Nat → Nat) :
    Stands (.withCapacity capacity hcapacity (.open file short)) file file 0 0 where
  contents := rfl
  pending := Nat.le_refl 0
  rest := rfl
  offset := rfl
  frameOffset := rfl

/-- Filling the buffer takes nothing from what is to be read. -/
theorem Stands.unread_filled (h : Stands reader file rest offset frameOffset) :
    reader.filled.unread = rest := by
  rw [RecordReader.filled, BufReader.unread_fillBuf, BufReader.unread_consume h.pending, h.rest]

theorem Stands.contents_filled (h : Stands reader file rest offset frameOffset) :
    reader.filled.inner.bytes = file :=
  (BufReader.contents_fillBuf (reader.input.consume reader.pending)).trans h.contents

/-- The buffer is empty at the end of the file only. -/
theorem Stands.isEmpty_filled (h : Stands reader file rest offset frameOffset) :
    reader.filled.buffer.isEmpty = rest.isEmpty := by
  have hnil := BufReader.buffer_fillBuf_eq_nil (reader.input.consume reader.pending)
  rw [BufReader.unread_consume h.pending, h.rest] at hnil
  rw [Bool.eq_iff_iff, List.isEmpty_iff, List.isEmpty_iff]
  exact hnil

/-- At the end of the file there is no record. -/
theorem Stands.nextRecord_nil (h : Stands reader file [] offset frameOffset) :
    reader.nextRecord.1 = .ok none ∧ Stands reader.nextRecord.2 file [] offset frameOffset := by
  have hempty : reader.filled.buffer.isEmpty = true := h.isEmpty_filled
  rw [RecordReader.nextRecord, if_pos hempty]
  exact ⟨rfl, h.contents_filled, Nat.zero_le _, h.unread_filled, h.offset, h.frameOffset⟩

/-- Where a frame is read, or cut off, there are bytes. -/
theorem Stands.isEmpty_filled_of_readFrame (h : Stands reader file rest offset frameOffset)
    (hframe : Body.readFrame rest ≠ .ok none) : ¬reader.filled.buffer.isEmpty = true := by
  rw [h.isEmpty_filled]
  cases rest with
  | nil => exact absurd rfl hframe
  | cons => exact Bool.false_ne_true

/-- The next frame, lent from the buffer or read, unless the offset behind it overflows. -/
theorem Stands.nextRecord_frame {frame : Int64 × Bytes × Bytes}
    (h : Stands reader file rest offset frameOffset)
    (hframe : Body.readFrame rest = .ok (some frame)) :
    if 2 ^ 64 ≤ offset + (12 + frame.2.1.length) then
      reader.nextRecord.1 = .error (.error "record spool offset overflow")
    else
      reader.nextRecord.1 = .ok (some (row frame)) ∧
        Stands reader.nextRecord.2 file frame.2.2 (offset + (12 + frame.2.1.length)) offset := by
  have hfront := h.unread_filled ▸ BufReader.buffer_prefix reader.filled
  have hoffset := h.offset
  rw [RecordReader.nextRecord,
    if_neg (h.isEmpty_filled_of_readFrame (by rw [hframe]; exact fun h => nomatch h))]
  cases hwhole : wholeFrame reader.filled.buffer with
  | some found =>
      obtain ⟨rowid, length⟩ := found
      obtain ⟨hread, hheader, hbuffer⟩ := readFrame_of_wholeFrame hfront hwhole
      rw [hframe, Except.ok.injEq, Option.some.injEq] at hread
      subst hread
      have hlength : (slice reader.filled.buffer 12 (length - 12)).length = length - 12 :=
        length_slice (by omega)
      dsimp only
      rw [hlength, Nat.add_sub_cancel' hheader, hoffset]
      split
      · rfl
      · refine ⟨rfl, h.contents_filled, hbuffer, ?_, rfl, rfl⟩
        exact congrArg (List.drop length) h.unread_filled
  | none =>
      obtain ⟨hread, hrest⟩ := readFrame_spec reader.filled
      have hcontents := contents_readFrame reader.filled
      have hunread : LawfulRead.unread reader.filled = rest := h.unread_filled
      rw [hunread, hframe] at hread
      have hrest := hrest frame (hunread ▸ hframe)
      rcases hcall : readFrame reader.filled with ⟨result, input⟩
      rw [hcall] at hread hrest hcontents
      subst hread
      dsimp only [Except.map, Option.map, row]
      rw [hoffset]
      split
      · rfl
      · exact ⟨rfl, hcontents.trans h.contents_filled, Nat.zero_le _, hrest, rfl, rfl⟩

/-- The next frame, where the offset behind it is counted. -/
theorem Stands.nextRecord_some {frame : Int64 × Bytes × Bytes}
    (h : Stands reader file rest offset frameOffset)
    (hframe : Body.readFrame rest = .ok (some frame))
    (hbound : offset + (12 + frame.2.1.length) < 2 ^ 64) :
    reader.nextRecord.1 = .ok (some (row frame)) ∧
      Stands reader.nextRecord.2 file frame.2.2 (offset + (12 + frame.2.1.length)) offset := by
  have hnext := h.nextRecord_frame hframe
  rwa [if_neg (by omega)] at hnext

/-- A frame that is cut off is not read, and the offsets stay where they are. -/
theorem Stands.nextRecord_error {failure : Failure}
    (h : Stands reader file rest offset frameOffset)
    (hframe : Body.readFrame rest = .error failure) :
    reader.nextRecord.1 = .error failure ∧ reader.nextRecord.2.offset = offset ∧
      reader.nextRecord.2.frameOffset = frameOffset := by
  have hfront := h.unread_filled ▸ BufReader.buffer_prefix reader.filled
  rw [RecordReader.nextRecord,
    if_neg (h.isEmpty_filled_of_readFrame (by rw [hframe]; exact fun h => nomatch h))]
  cases hwhole : wholeFrame reader.filled.buffer with
  | some found =>
      have hread := (readFrame_of_wholeFrame hfront hwhole).1
      rw [hframe] at hread
      cases hread
  | none =>
      obtain ⟨hread, -⟩ := readFrame_spec reader.filled
      have hunread : LawfulRead.unread reader.filled = rest := h.unread_filled
      rw [hunread, hframe] at hread
      rcases hcall : readFrame reader.filled with ⟨result, input⟩
      rw [hcall] at hread
      subst hread
      exact ⟨rfl, h.offset, h.frameOffset⟩

/-- The frame at a place of the file, and the reader behind it. -/
theorem Stands.readWitness_some {frame : Int64 × Bytes × Bytes} {place : Nat}
    (h : Stands reader file rest offset frameOffset)
    (hframe : Body.readFrame (file.drop place) = .ok (some frame))
    (hbound : place + (12 + frame.2.1.length) < 2 ^ 64) (record : Bytes) :
    (reader.readWitness place record).1 = .ok frame.1 ∧
      (reader.readWitness place record).2.1 = frame.2.1 ∧
      Stands (reader.readWitness place record).2.2 file frame.2.2
        (place + (12 + frame.2.1.length)) place := by
  obtain ⟨hread, hrest⟩ := readFrame_spec (reader.input.seek place).inner
  have hcontents := contents_readFrame (reader.input.seek place).inner
  have hunread : LawfulRead.unread (reader.input.seek place).inner = file.drop place :=
    congrArg (List.drop place) h.contents
  rw [hunread, hframe] at hread
  have hrest := hrest frame (hunread ▸ hframe)
  rcases hcall : readFrame (reader.input.seek place).inner with ⟨result, inner⟩
  rw [hcall] at hread hrest hcontents
  subst hread
  simp only [RecordReader.readWitness, hcall, Except.map, Option.map, row]
  rw [if_neg (by omega)]
  exact ⟨rfl, rfl, hcontents.trans h.contents, Nat.le_refl 0, hrest, rfl, rfl⟩

/-! ## The reader without its buffer -/

/-- A reader and one that leaves the buffer out stand at one place. -/
def Same (reader : RecordReader) (plain : Body.RecordReader) : Prop :=
  Stands reader plain.file (plain.rest.drop plain.pending) plain.offset plain.frameOffset

/-- A sequential read is one of the reader without the buffer. -/
theorem nextRecord_refines {plain : Body.RecordReader} (h : Same reader plain) :
    match plain.nextRecord with
    | .ok (result, plain') => reader.nextRecord.1 = .ok result ∧ Same reader.nextRecord.2 plain'
    | .error failure => reader.nextRecord.1 = .error failure := by
  rcases hinput : plain.rest.drop plain.pending with _ | ⟨b, bs⟩
  · rw [Same, hinput] at h
    rw [Body.RecordReader.nextRecord, hinput, List.take_nil]
    exact h.nextRecord_nil
  · have hprefix : (b :: bs).take (max (plain.fills plain.calls) 1) <+: b :: bs :=
      List.take_prefix _ _
    have hsome : ((b :: bs).take (max (plain.fills plain.calls) 1)).isEmpty = false := by
      rw [List.isEmpty_eq_false_iff, ← List.length_pos_iff, List.length_take, List.length_cons]
      omega
    rw [Same, hinput] at h
    rw [Body.RecordReader.nextRecord, hinput, if_neg (by rw [hsome]; decide)]
    cases hwhole : wholeFrame ((b :: bs).take (max (plain.fills plain.calls) 1)) with
    | some found =>
        obtain ⟨rowid, length⟩ := found
        obtain ⟨hread, hheader, hbuffer⟩ := readFrame_of_wholeFrame hprefix hwhole
        have hlength : (slice ((b :: bs).take (max (plain.fills plain.calls) 1)) 12
            (length - 12)).length = length - 12 := length_slice (by omega)
        have hstop : 12 + (slice ((b :: bs).take (max (plain.fills plain.calls) 1)) 12
            (length - 12)).length = length := by omega
        dsimp only
        have hnext := h.nextRecord_frame hread
        rw [hstop] at hnext
        by_cases hbound : 2 ^ 64 ≤ plain.offset + length
        · rw [if_pos hbound] at hnext ⊢
          exact hnext
        · rw [if_neg hbound] at hnext ⊢
          exact hnext
    | none =>
        cases hread : Body.readFrame (b :: bs) with
        | error failure => exact (h.nextRecord_error hread).1
        | ok result =>
            cases result with
            | none =>
                rw [Body.readFrame, List.isEmpty_cons, if_neg (by decide)] at hread
                split at hread
                · cases hread
                · dsimp only at hread
                  split at hread <;> cases hread
            | some frame =>
                simp only [bind, Except.bind]
                have hnext := h.nextRecord_frame hread
                by_cases hbound : 2 ^ 64 ≤ plain.offset + (12 + frame.2.1.length)
                · rw [if_pos hbound] at hnext ⊢
                  exact hnext
                · rw [if_neg hbound] at hnext ⊢
                  exact hnext

/-- A witness is the one the reader without the buffer reads. -/
theorem readWitness_refines {plain : Body.RecordReader} (h : Same reader plain) (place : UInt64)
    (record : Bytes) :
    match plain.readWitness place with
    | .ok ((rowid, payload), plain') =>
        (reader.readWitness place.toNat record).1 = .ok rowid ∧
          (reader.readWitness place.toNat record).2.1 = payload ∧
          Same (reader.readWitness place.toNat record).2.2 plain'
    | .error failure => (reader.readWitness place.toNat record).1 = .error failure := by
  obtain ⟨hread, -⟩ := readFrame_spec (reader.input.seek place.toNat).inner
  have hunread : LawfulRead.unread (reader.input.seek place.toNat).inner =
      plain.file.drop place.toNat := congrArg (List.drop place.toNat) h.contents
  rw [hunread] at hread
  rcases hcall : readFrame (reader.input.seek place.toNat).inner with ⟨result, inner⟩
  rw [hcall] at hread
  rw [Body.RecordReader.readWitness]
  cases hframe : Body.readFrame (plain.file.drop place.toNat) with
  | error failure =>
      obtain rfl : result = .error failure := by rw [hframe] at hread; exact hread
      simp only [bind, Except.bind, RecordReader.readWitness, hcall]
  | ok found =>
      cases found with
      | none =>
          obtain rfl : result = .ok none := by rw [hframe] at hread; exact hread
          simp only [bind, Except.bind, RecordReader.readWitness, hcall]
      | some frame =>
          obtain rfl : result = .ok (some (row frame)) := by rw [hframe] at hread; exact hread
          by_cases hbound : 2 ^ 64 ≤ place.toNat + (12 + frame.2.1.length)
          · simp only [bind, Except.bind, RecordReader.readWitness, hcall, row, if_pos hbound]
          · simp only [bind, Except.bind, if_neg hbound]
            exact h.readWitness_some hframe (by omega) record

/-! ## Runs -/

/-- The spool of some rows. -/
def written (rows : List (Int64 × Bytes)) : Except Failure RecordSpool :=
  rows.foldlM (fun spool row => { spool with record := row.2 }.pushEncoded row.1) .create

/-- Pushing encoded rows writes a frame for each. -/
theorem foldlM_pushEncoded {rows : List (Int64 × Bytes)} {spool spool' : RecordSpool}
    (h : rows.foldlM (fun spool row => { spool with record := row.2 }.pushEncoded row.1) spool =
      .ok spool') :
    spool'.output = spool.output ++ framesOf rows ∧ ∀ row ∈ rows, row.2.length < 2 ^ 32 := by
  induction rows generalizing spool with
  | nil =>
      cases h
      exact ⟨(List.append_nil _).symm, by simp⟩
  | cons row rows ih =>
      rw [List.foldlM_cons, RecordSpool.pushEncoded] at h
      split at h
      case isTrue => cases h
      case isFalse hfits =>
        obtain ⟨houtput, hrows⟩ := ih h
        refine ⟨by rw [houtput, framesOf_cons, List.append_assoc], ?_⟩
        rintro other (_ | ⟨_, hother⟩)
        · exact Nat.lt_of_not_le hfits
        · exact hrows other hother

/-- A call, with the caller's buffer in `next` and `readWitness`. -/
inductive Call where
  | nextRecord
  | next
  | readWitness (offset : Nat)

/-- What a call returns: the row id and the record, if there is one, and `frame_offset` behind
it. -/
abbrev Answer := Except Failure (Option (Int64 × Bytes × Nat))

/-- One call; `record` is the caller's buffer. -/
def RecordReader.call (reader : RecordReader) (record : Bytes) :
    Call → Answer × Bytes × RecordReader
  | .nextRecord =>
      let (result, reader) := reader.nextRecord
      (result.map (Option.map fun row => (row.1, row.2, reader.frameOffset)), record, reader)
  | .next =>
      let (result, record, reader) := reader.next record
      (result.map (Option.map fun rowid => (rowid, record, reader.frameOffset)), record, reader)
  | .readWitness offset =>
      let (result, record, reader) := reader.readWitness offset record
      (result.map fun rowid => some (rowid, record, reader.frameOffset), record, reader)

/-- Call after call. -/
def RecordReader.run : List Call → Bytes → RecordReader → List Answer × RecordReader
  | [], _, reader => ([], reader)
  | call :: calls, record, reader =>
      let (answer, record, reader) := reader.call record call
      let (answers, reader) := RecordReader.run calls record reader
      (answer :: answers, reader)

/-- One call of the reader without the buffer. -/
def callOf (plain : Body.RecordReader) :
    Call → Except Failure (Option (Int64 × Bytes × Nat) × Body.RecordReader)
  | .readWitness offset => do
      let (row, plain) ← plain.readWitness (.ofNat offset)
      .ok (some (row.1, row.2, plain.frameOffset), plain)
  | .nextRecord | .next => do
      let (row, plain) ← plain.nextRecord
      .ok (row.map fun row => (row.1, row.2, plain.frameOffset), plain)

/-- Call after call of the reader without the buffer, up to one that fails. -/
def answersOf : List Call → Body.RecordReader →
    Except Failure (List (Option (Int64 × Bytes × Nat)))
  | [], _ => .ok []
  | call :: calls, plain => do
      let (answer, plain) ← callOf plain call
      let answers ← answersOf calls plain
      .ok (answer :: answers)

/-- A call answers as the plain reader does. -/
theorem call_refines {plain plain' : Body.RecordReader} {call : Call}
    {answer : Option (Int64 × Bytes × Nat)} (h : Same reader plain)
    (hoffset : ∀ offset, call = .readWitness offset → offset < 2 ^ 64)
    (hcall : callOf plain call = .ok (answer, plain')) (record : Bytes) :
    (reader.call record call).1 = .ok answer ∧ Same (reader.call record call).2.2 plain' := by
  have hsequential {row : Option (Int64 × Bytes)} (hnext : plain.nextRecord = .ok (row, plain')) :
      reader.nextRecord.1 = .ok row ∧ Same reader.nextRecord.2 plain' ∧
        reader.nextRecord.2.frameOffset = plain'.frameOffset := by
    have hrefines := nextRecord_refines h
    rw [hnext] at hrefines
    exact ⟨hrefines.1, hrefines.2, hrefines.2.frameOffset⟩
  cases call with
  | readWitness offset =>
      obtain ⟨⟨row, plain₁⟩, hread, hanswer⟩ := bind_eq_ok_iff.mp hcall
      cases hanswer
      have hrefines := readWitness_refines h (.ofNat offset) record
      rw [hread, UInt64.toNat_ofNat_of_lt' (hoffset offset rfl)] at hrefines
      obtain ⟨hrow, hrecord, hsame⟩ := hrefines
      have hplace := hsame.frameOffset
      rcases hwitness : reader.readWitness offset record with ⟨result, record', reader'⟩
      rw [hwitness] at hrow hrecord hsame hplace
      subst hrow hrecord
      dsimp only at hsame hplace
      simp only [RecordReader.call, hwitness, Except.map]
      exact ⟨by rw [hplace], hsame⟩
  | nextRecord =>
      obtain ⟨⟨row, plain₁⟩, hnext, hanswer⟩ := bind_eq_ok_iff.mp hcall
      cases hanswer
      obtain ⟨hrow, hsame, hplace⟩ := hsequential hnext
      rcases hread : reader.nextRecord with ⟨result, reader'⟩
      rw [hread] at hrow hsame hplace
      subst hrow
      dsimp only at hsame hplace
      simp only [RecordReader.call, hread, Except.map]
      exact ⟨by rw [hplace], hsame⟩
  | next =>
      obtain ⟨⟨row, plain₁⟩, hnext, hanswer⟩ := bind_eq_ok_iff.mp hcall
      cases hanswer
      obtain ⟨hrow, hsame, hplace⟩ := hsequential hnext
      rcases hread : reader.nextRecord with ⟨result, reader'⟩
      rw [hread] at hrow hsame hplace
      subst hrow
      dsimp only at hsame hplace
      cases row with
      | none =>
          simp only [RecordReader.call, RecordReader.next, hread, Except.map, Option.map]
          exact ⟨trivial, hsame⟩
      | some row =>
          simp only [RecordReader.call, RecordReader.next, hread, Except.map, Option.map]
          exact ⟨by rw [hplace], hsame⟩

/-- So does a run of calls. -/
theorem run_refines {plain : Body.RecordReader} {calls : List Call}
    {answers : List (Option (Int64 × Bytes × Nat))} (h : Same reader plain)
    (hoffsets : ∀ offset, .readWitness offset ∈ calls → offset < 2 ^ 64)
    (hanswers : answersOf calls plain = .ok answers) (record : Bytes) :
    (reader.run calls record).1 = answers.map .ok := by
  induction calls generalizing reader plain answers record with
  | nil =>
      cases hanswers
      rfl
  | cons call calls ih =>
      obtain ⟨⟨answer, plain'⟩, hcall, hrest⟩ := bind_eq_ok_iff.mp hanswers
      dsimp only at hrest
      obtain ⟨rest, htail, hsplit⟩ := bind_eq_ok_iff.mp hrest
      cases hsplit
      have hoffset : ∀ offset, call = .readWitness offset → offset < 2 ^ 64 :=
        fun offset heq => hoffsets offset (heq ▸ List.mem_cons_self)
      obtain ⟨hanswer, hsame⟩ := call_refines h hoffset hcall record
      have hrun := ih hsame (fun offset hmem => hoffsets offset (List.mem_cons_of_mem _ hmem))
        htail (reader.call record call).2.1
      rw [List.map_cons, ← hanswer, ← hrun]
      rfl

/-- From the start of a file, every call of a reader is one of the reader without the buffer,
whatever the buffer holds and the calls of the file return, until one fails. -/
theorem withCapacity_refines {capacity : Nat} (hcapacity : 0 < capacity) (file : Bytes)
    (short fills : Nat → Nat) {calls : List Call} {answers : List (Option (Int64 × Bytes × Nat))}
    (hoffsets : ∀ offset, .readWitness offset ∈ calls → offset < 2 ^ 64)
    (hanswers : answersOf calls (.open file fills) = .ok answers) (record : Bytes) :
    ((RecordReader.withCapacity capacity hcapacity (File.open file short)).run calls record).1 =
      answers.map .ok := by
  have hsame : Same (.withCapacity capacity hcapacity (.open file short)) (.open file fills) :=
    stands_withCapacity capacity hcapacity file short
  exact run_refines hsame hoffsets hanswers record

/-! ## The cursor -/

/-- Where a frame starts. -/
def placeOf (rows : List (Int64 × Bytes)) (i : Nat) : Nat := (framesOf (rows.take i)).length

/-- A frame with its place. -/
def frameAt (rows : List (Int64 × Bytes)) (i : Nat) : Option (Int64 × Bytes × Nat) :=
  rows[i]?.map fun row => (row.1, row.2, placeOf rows i)

/-- What a caller asks of a spool: the next frame, or one it knows the place of. -/
inductive Request (rows : List (Int64 × Bytes)) where
  | nextRecord
  | next
  | witness (i : Fin rows.length)

def Request.call {rows : List (Int64 × Bytes)} : Request rows → Call
  | .nextRecord => .nextRecord
  | .next => .next
  | .witness i => .readWitness (placeOf rows i)

/-- The cursor in front of frame `i` moves behind the frame it returns. -/
def cursor (rows : List (Int64 × Bytes)) :
    List (Request rows) → Nat → List (Option (Int64 × Bytes × Nat))
  | [], _ => []
  | .witness j :: requests, _ => frameAt rows j :: cursor rows requests (j + 1)
  | _ :: requests, i => frameAt rows i :: cursor rows requests (min (i + 1) rows.length)

variable {rows : List (Int64 × Bytes)} {tail : Bytes} {i : Nat}

/-- A frame takes twelve bytes and its record. -/
theorem placeOf_succ (hi : i < rows.length) :
    placeOf rows (i + 1) = placeOf rows i + (12 + rows[i].2.length) := by
  rw [placeOf, placeOf, List.take_succ_eq_append_getElem hi, framesOf_append, List.length_append,
    framesOf_cons, framesOf_nil, List.append_nil, length_frame]

/-- Every record begins inside of the file. -/
theorem placeOf_le (rows : List (Int64 × Bytes)) (i : Nat) :
    placeOf rows i ≤ (framesOf rows).length := by
  rw [← List.take_append_drop i rows, framesOf_append, List.length_append,
    List.take_append_drop, placeOf]
  exact Nat.le_add_right _ _

/-- The bytes from the place of a frame on. -/
theorem drop_placeOf (rows : List (Int64 × Bytes)) (i : Nat) (tail : Bytes) :
    (framesOf rows ++ tail).drop (placeOf rows i) = framesOf (rows.drop i) ++ tail := by
  have hsplit : framesOf rows = framesOf (rows.take i) ++ framesOf (rows.drop i) := by
    rw [← framesOf_append, List.take_append_drop]
  rw [hsplit, List.append_assoc, placeOf, List.drop_left]

/-- The frame at a place is the row there. -/
theorem readFrame_at (hfits : ∀ row ∈ rows, row.2.length < 2 ^ 32) (hi : i < rows.length)
    (tail : Bytes) :
    Body.readFrame (framesOf (rows.drop i) ++ tail) =
      .ok (some (rows[i].1, rows[i].2, framesOf (rows.drop (i + 1)) ++ tail)) := by
  rw [List.drop_eq_getElem_cons hi, framesOf_cons, List.append_assoc]
  exact readFrame_frame (hfits _ (List.getElem_mem hi)) _

/-- A frame cut at any byte is an error. -/
theorem readFrame_cut {rowid : Int64} {record : Bytes} {n : Nat} (hfits : record.length < 2 ^ 32)
    (hpos : 0 < n) (hcut : n < 12 + record.length) :
    Body.readFrame ((frame rowid record).take n) =
      .error (.error "failed to fill whole buffer") := by
  have hlength : ((frame rowid record).take n).length = n := by
    rw [List.length_take, length_frame]
    omega
  have hsome : ((frame rowid record).take n).isEmpty = false := by
    rw [List.isEmpty_eq_false_iff, ← List.length_pos_iff]
    omega
  rw [Body.readFrame, hsome, if_neg (by decide), hlength]
  by_cases hheader : n < 12
  · rw [if_pos hheader]
  · have hfield : ofLE (slice ((frame rowid record).take n) 8 4) = record.length := by
      obtain ⟨-, hfield, -⟩ := @frame_fields rowid record hfits []
      rw [List.append_nil, ← List.take_append_drop n (frame rowid record)] at hfield
      rwa [slice_append_left (by omega)] at hfield
    rw [if_neg hheader]
    dsimp only
    rw [hfield, if_pos (by rw [List.length_drop]; omega)]

/-- A reader of a spool in front of frame `i`, behind the one before it. -/
def At (reader : RecordReader) (rows : List (Int64 × Bytes)) (tail : Bytes) (i : Nat) : Prop :=
  i ≤ rows.length ∧
    Stands reader (framesOf rows ++ tail) (framesOf (rows.drop i) ++ tail) (placeOf rows i)
      (placeOf rows (i - 1))

section run

variable (hfits : ∀ row ∈ rows, row.2.length < 2 ^ 32) (hbound : (framesOf rows).length < 2 ^ 64)

include hfits hbound

/-- `next_record` returns the next row. -/
theorem At.nextRecord (h : At reader rows tail i) (hi : i < rows.length) :
    reader.nextRecord.1 = .ok (some rows[i]) ∧ At reader.nextRecord.2 rows tail (i + 1) := by
  have hplace := placeOf_le rows (i + 1)
  rw [placeOf_succ hi] at hplace
  obtain ⟨hresult, hstands⟩ :=
    h.2.nextRecord_some (readFrame_at hfits hi tail) (Nat.lt_of_le_of_lt hplace hbound)
  refine ⟨hresult, hi, ?_⟩
  rwa [placeOf_succ hi, Nat.add_sub_cancel]

/-- `read_witness` returns the row at its offset, and goes on behind it. -/
theorem At.readWitness (h : At reader rows tail i) {j : Nat} (hj : j < rows.length)
    (record : Bytes) :
    (reader.readWitness (placeOf rows j) record).1 = .ok rows[j].1 ∧
      (reader.readWitness (placeOf rows j) record).2.1 = rows[j].2 ∧
      At (reader.readWitness (placeOf rows j) record).2.2 rows tail (j + 1) := by
  have hplace := placeOf_le rows (j + 1)
  rw [placeOf_succ hj] at hplace
  obtain ⟨hresult, hrecord, hstands⟩ := h.2.readWitness_some
    ((drop_placeOf rows j tail).symm ▸ readFrame_at hfits hj tail)
    (Nat.lt_of_le_of_lt hplace hbound) record
  refine ⟨hresult, hrecord, hj, ?_⟩
  rwa [placeOf_succ hj, Nat.add_sub_cancel]

/-- Both sequential calls return the next row. -/
theorem At.sequential (h : At reader rows tail i) (hi : i < rows.length) {call : Call}
    (hcall : call = .nextRecord ∨ call = .next) (record : Bytes) :
    (reader.call record call).1 = .ok (frameAt rows i) ∧
      At (reader.call record call).2.2 rows tail (i + 1) := by
  obtain ⟨hresult, hat⟩ := h.nextRecord hfits hbound hi
  have hplace : reader.nextRecord.2.frameOffset = placeOf rows i := hat.2.frameOffset
  have hframe : frameAt rows i = some (rows[i].1, rows[i].2, placeOf rows i) := by
    rw [frameAt, List.getElem?_eq_getElem hi, Option.map_some]
  rcases hnext : reader.nextRecord with ⟨result, after⟩
  rw [hnext] at hresult hat hplace
  dsimp only at hresult hat hplace
  subst hresult
  rcases hcall with rfl | rfl
  · simp only [RecordReader.call, hnext, Except.map, Option.map, hplace, hframe]
    exact ⟨trivial, hat⟩
  · simp only [RecordReader.call, RecordReader.next, hnext, Except.map, Option.map, hplace, hframe]
    exact ⟨trivial, hat⟩

/-- A re-read returns its row and leaves the reader behind it. -/
theorem At.witness (h : At reader rows tail i) {j : Nat} (hj : j < rows.length) (record : Bytes) :
    (reader.call record (.readWitness (placeOf rows j))).1 = .ok (frameAt rows j) ∧
      At (reader.call record (.readWitness (placeOf rows j))).2.2 rows tail (j + 1) := by
  obtain ⟨hresult, hrecord, hat⟩ := h.readWitness hfits hbound hj record
  have hplace := hat.2.frameOffset
  rcases hread : reader.readWitness (placeOf rows j) record with ⟨result, record', after⟩
  rw [hread] at hresult hrecord hat hplace
  dsimp only at hresult hrecord hat hplace
  subst hresult hrecord
  simp only [RecordReader.call, hread, Except.map, hplace, frameAt, List.getElem?_eq_getElem hj,
    Option.map_some, Nat.add_sub_cancel]
  exact ⟨trivial, hat⟩

end run

/-- Behind the last row there is none. -/
theorem At.end (h : At reader rows [] rows.length) {call : Call}
    (hcall : call = .nextRecord ∨ call = .next) (record : Bytes) :
    (reader.call record call).1 = .ok (frameAt rows rows.length) ∧
      At (reader.call record call).2.2 rows [] rows.length := by
  have hnothing : framesOf (rows.drop rows.length) ++ [] = [] := by
    rw [List.drop_length, framesOf_nil, List.append_nil]
  have hstands := h.2
  rw [hnothing] at hstands
  obtain ⟨hresult, hat⟩ := hstands.nextRecord_nil
  have hnone : frameAt rows rows.length = none := by
    rw [frameAt, List.getElem?_eq_none (Nat.le_refl _), Option.map_none]
  rcases hnext : reader.nextRecord with ⟨result, after⟩
  rw [hnext] at hresult hat
  dsimp only at hresult hat
  subst hresult
  have hat : At after rows [] rows.length := ⟨Nat.le_refl _, hnothing.symm ▸ hat⟩
  rw [hnone]
  rcases hcall with rfl | rfl
  · simp only [RecordReader.call, hnext, Except.map, Option.map]
    exact ⟨trivial, hat⟩
  · simp only [RecordReader.call, RecordReader.next, hnext, Except.map, Option.map]
    exact ⟨trivial, hat⟩

/-- A run of requests answers as a cursor over the rows. -/
theorem At.run (hfits : ∀ row ∈ rows, row.2.length < 2 ^ 32)
    (hbound : (framesOf rows).length < 2 ^ 64) (h : At reader rows [] i)
    (requests : List (Request rows)) (record : Bytes) :
    (reader.run (requests.map Request.call) record).1 =
      (cursor rows requests i).map Except.ok := by
  induction requests generalizing reader record i with
  | nil => rfl
  | cons request requests ih =>
      have hsequential : ∀ call : Call, call = .nextRecord ∨ call = .next →
          (reader.call record call).1 = .ok (frameAt rows i) ∧
            At (reader.call record call).2.2 rows [] (min (i + 1) rows.length) := by
        intro call hcall
        rcases Nat.lt_or_ge i rows.length with hi | hi
        · rw [Nat.min_eq_left hi]
          exact h.sequential hfits hbound hi hcall record
        · obtain rfl : i = rows.length := Nat.le_antisymm h.1 hi
          rw [Nat.min_eq_right (Nat.le_succ _)]
          exact h.end hcall record
      cases request with
      | nextRecord =>
          obtain ⟨hanswer, hat⟩ := hsequential _ (.inl rfl)
          exact congrArg₂ List.cons hanswer (ih hat _)
      | next =>
          obtain ⟨hanswer, hat⟩ := hsequential _ (.inr rfl)
          exact congrArg₂ List.cons hanswer (ih hat _)
      | witness j =>
          obtain ⟨hanswer, hat⟩ := h.witness hfits hbound j.isLt record
          exact congrArg₂ List.cons hanswer (ih hat _)

/-- In front of a cut frame the calls return the frames before it and then an error. -/
theorem At.run_cut (hfits : ∀ row ∈ rows, row.2.length < 2 ^ 32)
    (hbound : (framesOf rows).length < 2 ^ 64) {failure : Failure}
    (htail : Body.readFrame tail = .error failure) {calls : List Call}
    (hcalls : ∀ call ∈ calls, call = .nextRecord ∨ call = .next)
    (hlength : calls.length = rows.length - i + 1) (h : At reader rows tail i) (record : Bytes) :
    (reader.run calls record).1 =
        (List.range' i (rows.length - i)).map (fun j => .ok (frameAt rows j)) ++ [.error failure] ∧
      (reader.run calls record).2.offset = placeOf rows rows.length ∧
      (reader.run calls record).2.frameOffset = placeOf rows (rows.length - 1) := by
  induction calls generalizing reader record i with
  | nil => simp at hlength
  | cons call calls ih =>
      have hcall := hcalls call (by simp)
      have hrest := fun c (hc : c ∈ calls) => hcalls c (by simp [hc])
      rw [List.length_cons] at hlength
      rcases Nat.lt_or_ge i rows.length with hi | hi
      · obtain ⟨hanswer, hat⟩ := h.sequential hfits hbound hi hcall record
        obtain ⟨hanswers, hoffsets⟩ :=
          ih hrest (by omega) hat (reader.call record call).2.1
        obtain ⟨n, hn⟩ : ∃ n, rows.length - i = n + 1 := ⟨rows.length - i - 1, by omega⟩
        have hless : rows.length - (i + 1) = n := by omega
        rw [hless] at hanswers
        rw [hn, List.range'_succ, List.map_cons, List.cons_append]
        exact ⟨congrArg₂ List.cons hanswer hanswers, hoffsets⟩
      · obtain rfl : i = rows.length := Nat.le_antisymm h.1 hi
        obtain rfl : calls = [] := List.length_eq_zero_iff.mp (by omega)
        have hstands := h.2
        rw [List.drop_length, framesOf_nil, List.nil_append] at hstands
        obtain ⟨hresult, hoffset, hframe⟩ := hstands.nextRecord_error htail
        rw [Nat.sub_self]
        rcases hnext : reader.nextRecord with ⟨result, after⟩
        rw [hnext] at hresult hoffset hframe
        dsimp only at hresult hoffset hframe
        subst hresult
        rcases hcall with rfl | rfl
        · simp only [RecordReader.run, RecordReader.call, hnext]
          exact ⟨rfl, hoffset, hframe⟩
        · simp only [RecordReader.run, RecordReader.call, RecordReader.next, hnext]
          exact ⟨rfl, hoffset, hframe⟩

theorem frameAt_take (rows : List (Int64 × Bytes)) {i j : Nat} (hj : j < i) :
    frameAt (rows.take i) j = frameAt rows j := by
  rw [frameAt, frameAt, List.getElem?_take_of_lt hj, placeOf, placeOf, List.take_take,
    Nat.min_eq_left (by omega)]

theorem placeOf_take (rows : List (Int64 × Bytes)) {i j : Nat} (hj : j ≤ i) :
    placeOf (rows.take i) j = placeOf rows j := by
  rw [placeOf, placeOf, List.take_take, Nat.min_eq_left hj]

/-- A spool cut inside a frame: the frames before it, then a part of it. -/
theorem take_framesOf {n : Nat} (hi : i < rows.length) (hlow : placeOf rows i < n)
    (hhigh : n < placeOf rows (i + 1)) :
    (framesOf rows).take n =
      framesOf (rows.take i) ++ (frame rows[i].1 rows[i].2).take (n - placeOf rows i) := by
  have hsplit := congrArg framesOf (List.take_append_drop i rows)
  rw [framesOf_append, List.drop_eq_getElem_cons hi, framesOf_cons] at hsplit
  have hless : n - placeOf rows i ≤ (frame rows[i].1 rows[i].2).length := by
    rw [length_frame]
    rw [placeOf_succ hi] at hhigh
    omega
  rw [← hsplit, List.take_append, List.take_of_length_le (Nat.le_of_lt hlow), ← placeOf,
    List.take_append_of_le_length hless]

/-- A reader of a spool is a cursor on its frames, whatever its buffer holds and however short the
reads of the file are, and whatever places it is sent to; and over a spool that is cut inside a
frame it returns the frames before that one and then an error, with `offset` at the cut frame and
`frame_offset` at the last one returned. -/
theorem record_reader_cursor {rows : List (Int64 × Bytes)} {spool : RecordSpool}
    (hspool : written rows = .ok spool) (hbound : spool.output.length < 2 ^ 64) {capacity : Nat}
    (hcapacity : 0 < capacity) (short : Nat → Nat) (record : Bytes) :
    (∀ requests : List (Request rows),
      ((RecordReader.withCapacity capacity hcapacity (.open spool.output short)).run
        (requests.map Request.call) record).1 = (cursor rows requests 0).map Except.ok) ∧
    ∀ {i n : Nat}, i < rows.length → placeOf rows i < n → n < placeOf rows (i + 1) →
      ∀ {calls : List Call}, calls.length = i + 1 →
        (∀ call ∈ calls, call = .nextRecord ∨ call = .next) →
          let (answers, reader) :=
            (RecordReader.withCapacity capacity hcapacity (.open (spool.output.take n) short)).run
              calls record
          answers = (List.range i).map (fun j => .ok (frameAt rows j)) ++
              [.error (.error "failed to fill whole buffer")] ∧
            reader.offset = placeOf rows i ∧ reader.frameOffset = placeOf rows (i - 1) := by
  obtain ⟨houtput, hfits⟩ := foldlM_pushEncoded hspool
  have houtput : spool.output = framesOf rows := houtput
  rw [houtput] at hbound ⊢
  have hstart : ∀ {rows : List (Int64 × Bytes)} {tail : Bytes},
      At (.withCapacity capacity hcapacity (.open (framesOf rows ++ tail) short)) rows tail 0 :=
    fun {rows tail} => ⟨Nat.zero_le _, stands_withCapacity capacity hcapacity _ short⟩
  refine ⟨fun requests => ?_, fun {i n} hi hlow hhigh {calls} hlength hcalls => ?_⟩
  · have hrun := (@hstart rows []).run hfits hbound requests record
    rw [List.append_nil] at hrun
    exact hrun
  · have hrow := List.getElem_mem hi
    have hcut : n - placeOf rows i < 12 + rows[i].2.length := by
      rw [placeOf_succ hi] at hhigh
      omega
    have htail := @readFrame_cut rows[i].1 rows[i].2 (n - placeOf rows i) (hfits _ hrow)
      (by omega) hcut
    have hplace := placeOf_le rows i
    have hfront : (rows.take i).length = i := List.length_take_of_le (Nat.le_of_lt hi)
    have hrun := At.run_cut
      (fun row hmem => hfits row (List.mem_of_mem_take hmem)) (Nat.lt_of_le_of_lt hplace hbound)
      htail hcalls (by omega) hstart record
    rw [take_framesOf hi hlow hhigh]
    rw [hfront, Nat.sub_zero, placeOf_take rows (Nat.le_refl i), placeOf_take rows (by omega),
      ← List.range_eq_range'] at hrun
    obtain ⟨hanswers, hoffsets⟩ := hrun
    refine ⟨hanswers.trans ?_, hoffsets⟩
    congr 1
    exact List.map_congr_left fun j hj => by rw [frameAt_take rows (List.mem_range.mp hj)]

/-- A buffer of five bytes, short reads, and two re-reads between the rows. -/
theorem record_reader_cursor_small :
    ((RecordReader.withCapacity 5 (by decide)
        (.open (framesOf [(-1, [255]), (7, []), (8, [1, 2, 3])]) fun _ => 1)).run
          [.readWitness 13, .next, .nextRecord, .readWitness 0, .nextRecord] []).1 =
        [.ok (some (7, [], 13)), .ok (some (8, [1, 2, 3], 25)), .ok none, .ok (some (-1, [255], 0)),
          .ok (some (7, [], 13))] ∧
      ((RecordReader.withCapacity 5 (by decide)
          (.open ((framesOf [(-1, [255]), (7, []), (8, [1, 2, 3])]).take 20) fun _ => 1)).run
            [.next, .nextRecord] []).1 =
        [.ok (some (-1, [255], 0)), .error (.error "failed to fill whole buffer")] :=
  have hwritten : written [(-1, [255]), (7, []), (8, [1, 2, 3])] =
      .ok { output := framesOf [(-1, [255]), (7, []), (8, [1, 2, 3])], record := [1, 2, 3],
            rows := 3 } := rfl
  have h := record_reader_cursor hwritten (by decide) (Nat.succ_pos 4) (fun _ => 1) []
  ⟨h.1 [.witness 1, .next, .nextRecord, .witness 0, .nextRecord],
    (@h.2 1 20 (by decide) (by decide) (by decide) [.next, .nextRecord] rfl (by simp)).1⟩

end Velr.Body.Buffered
