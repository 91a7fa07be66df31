import Velr.Common.Bytes

/-!
# Readers that may fail

A reader delivers a stream: bytes, and behind them the end or an error. Each call returns some of
the bytes, in their order, whatever it asked for. A buffered reader over a reader delivers the same
stream (`BufReader.stream_tryFillBuf`). Readers that do not fail are a case of these.
-/

namespace Reading

open ByteString

variable {ε R : Type}

/-- Bytes, and the error behind them, if it is not the end. -/
structure Stream (ε : Type) where
  bytes : Bytes
  failure : Option ε

/-- `Read`: one call for at most `n` bytes. -/
class TryRead (ε : outParam Type) (R : Type) where
  tryRead : R → Nat → Except ε (Bytes × R)

/-- A reader of a stream; a call that returns no bytes has found the end. -/
class LawfulTryRead (ε : outParam Type) (R : Type) extends TryRead ε R where
  stream : R → Stream ε
  stream_read {r r' : R} {n : Nat} {bytes : Bytes} : 0 < n → tryRead r n = .ok (bytes, r') →
    stream r = ⟨bytes ++ (stream r').bytes, (stream r').failure⟩
  length_read {r r' : R} {n : Nat} {bytes : Bytes} : tryRead r n = .ok (bytes, r') →
    bytes.length ≤ n
  stream_of_read_nil {r r' : R} {n : Nat} : 0 < n → tryRead r n = .ok ([], r') →
    stream r = ⟨[], none⟩
  stream_of_error {r : R} {n : Nat} {e : ε} : 0 < n → tryRead r n = .error e →
    stream r = ⟨[], some e⟩

open TryRead LawfulTryRead

/-- `BufReader`; `buffer` is the part of the buffer that is not consumed. -/
structure BufReader (R : Type) where
  inner : R
  buffer : Bytes
  capacity : Nat
  capacity_pos : 0 < capacity

namespace BufReader

/-- `BufReader::with_capacity` -/
def withCapacity (capacity : Nat) (hcapacity : 0 < capacity) (inner : R) : BufReader R :=
  { inner, buffer := [], capacity, capacity_pos := hcapacity }

/-- `BufReader::fill_buf`: the reader with its buffer filled. -/
def tryFillBuf [TryRead ε R] (r : BufReader R) : Except ε (BufReader R) :=
  match r.buffer with
  | [] =>
      match tryRead r.inner r.capacity with
      | .error e => .error e
      | .ok (buffer, inner) => .ok { r with buffer, inner }
  | _ :: _ => .ok r

/-- `BufReader::consume` -/
def consume (r : BufReader R) (count : Nat) : BufReader R :=
  { r with buffer := r.buffer.drop count }

/-- What the reader has still to deliver. -/
def stream [LawfulTryRead ε R] (r : BufReader R) : Stream ε :=
  ⟨r.buffer ++ (LawfulTryRead.stream r.inner).bytes, (LawfulTryRead.stream r.inner).failure⟩

variable [LawfulTryRead ε R] {r r' : BufReader R}

/-- Filling the buffer takes nothing from the stream. -/
theorem stream_tryFillBuf (h : r.tryFillBuf = .ok r') : r'.stream = r.stream := by
  rw [tryFillBuf] at h
  split at h
  case h_1 hbuffer =>
    rcases hread : tryRead r.inner r.capacity with e | ⟨buffer, inner⟩
    · rw [hread] at h
      cases h
    · rw [hread] at h
      cases h
      rw [stream, stream, hbuffer, stream_read r.capacity_pos hread]
      rfl
  case h_2 =>
    cases h
    rfl

/-- The buffer is empty at the end only. -/
theorem stream_of_buffer_nil (h : r.tryFillBuf = .ok r') (hbuffer : r'.buffer = []) :
    r.stream = ⟨[], none⟩ ∧ r'.stream = ⟨[], none⟩ := by
  rw [← stream_tryFillBuf h, and_self]
  rw [tryFillBuf] at h
  split at h
  case h_1 hnil =>
    rcases hread : tryRead r.inner r.capacity with e | ⟨buffer, inner⟩
    · rw [hread] at h
      cases h
    · rw [hread] at h
      cases h
      dsimp only at hbuffer
      subst hbuffer
      have hstream := stream_read r.capacity_pos hread
      rw [stream_of_read_nil r.capacity_pos hread, Stream.mk.injEq, List.nil_append] at hstream
      rw [stream, ← hstream.1, ← hstream.2, List.append_nil]
  case h_2 hcons =>
    cases h
    rw [hbuffer] at hcons
    cases hcons

/-- The first byte to come is in the buffer. -/
theorem head_tryFillBuf (h : r.tryFillBuf = .ok r') : r'.buffer.head? = r.stream.bytes.head? := by
  cases hbuffer : r'.buffer with
  | nil =>
      rw [(stream_of_buffer_nil h hbuffer).1]
  | cons b buffer =>
      rw [← stream_tryFillBuf h, stream, hbuffer]
      rfl

/-- An error comes behind the last byte. -/
theorem stream_of_error {e : ε} (h : r.tryFillBuf = .error e) : r.stream = ⟨[], some e⟩ := by
  rw [tryFillBuf] at h
  split at h
  case h_1 hnil =>
    rcases hread : tryRead r.inner r.capacity with e' | ⟨buffer, inner⟩
    · rw [hread] at h
      cases h
      rw [stream, hnil, LawfulTryRead.stream_of_error r.capacity_pos hread]
      rfl
    · rw [hread] at h
      cases h
  case h_2 => cases h

/-- Consuming a part of the buffer takes it from the stream. -/
theorem stream_consume {count : Nat} (h : count ≤ r.buffer.length) :
    (r.consume count).stream = ⟨r.stream.bytes.drop count, r.stream.failure⟩ := by
  rw [stream, stream, consume, List.drop_append_of_le_length h]

/-- The buffer is at the front of the stream. -/
theorem buffer_append (r : BufReader R) :
    r.stream.bytes = r.buffer ++ (LawfulTryRead.stream r.inner).bytes := rfl

/-- The buffer is a front of the stream. -/
theorem buffer_prefix_stream (r : BufReader R) : r.buffer <+: r.stream.bytes :=
  List.prefix_append _ _

end BufReader

/-! ## Pieces -/

/-- A reader that returns a list of pieces, or what a call asks for of one, and then the end or an
error. -/
structure Pieces (ε : Type) where
  pieces : List { piece : Bytes // piece ≠ [] }
  failure : Option ε

/-- `Read::read` -/
def Pieces.read (r : Pieces ε) (n : Nat) : Except ε (Bytes × Pieces ε) :=
  match r.pieces with
  | [] =>
      match r.failure with
      | some e => .error e
      | none => .ok ([], r)
  | ⟨piece, _⟩ :: pieces =>
      if hn : n < piece.length then
        .ok (piece.take n, { r with
          pieces := ⟨piece.drop n, List.drop_eq_nil_iff.not.mpr (Nat.not_le.mpr hn)⟩ :: pieces })
      else .ok (piece, { r with pieces })

def Pieces.stream (r : Pieces ε) : Stream ε := ⟨(r.pieces.map Subtype.val).flatten, r.failure⟩

instance : LawfulTryRead ε (Pieces ε) where
  tryRead := Pieces.read
  stream := Pieces.stream
  stream_read {r r' n bytes} _ h := by
    obtain ⟨pieces, failure⟩ := r
    cases pieces with
    | nil => cases failure <;> cases h; rfl
    | cons piece pieces =>
        rw [Pieces.read] at h
        dsimp only at h
        split at h
        case isTrue =>
          cases h
          simp only [Pieces.stream, List.map_cons, List.flatten_cons, ← List.append_assoc,
            List.take_append_drop]
        case isFalse =>
          cases h
          rfl
  length_read {r r' n bytes} h := by
    obtain ⟨pieces, failure⟩ := r
    cases pieces with
    | nil => cases failure <;> cases h; exact Nat.zero_le _
    | cons piece pieces =>
        rw [Pieces.read] at h
        dsimp only at h
        split at h
        case isTrue hlt =>
          cases h
          rw [List.length_take]
          exact Nat.min_le_left _ _
        case isFalse hle =>
          cases h
          exact Nat.le_of_not_lt hle
  stream_of_read_nil {r r' n} hn h := by
    obtain ⟨pieces, failure⟩ := r
    cases pieces with
    | nil => cases failure <;> cases h; rfl
    | cons piece pieces =>
        rw [Pieces.read] at h
        dsimp only at h
        split at h
        case isTrue hlt =>
          simp only [Except.ok.injEq, Prod.mk.injEq, List.take_eq_nil_iff] at h
          exact absurd h.1 (by simp [piece.2]; omega)
        case isFalse =>
          simp only [Except.ok.injEq, Prod.mk.injEq] at h
          exact absurd h.1 piece.2
  stream_of_error {r n e} _ h := by
    obtain ⟨pieces, failure⟩ := r
    cases pieces with
    | nil => cases failure <;> cases h; rfl
    | cons piece pieces =>
        rw [Pieces.read] at h
        dsimp only at h
        split at h <;> cases h

end Reading
