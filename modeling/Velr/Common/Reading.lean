import Velr.Common.Streams

/-!
# Reading files

Readers whose calls do not fail, though each may return fewer bytes than it was asked for. A
`LawfulRead` delivers the bytes `unread` in their order, whatever the calls return; a file is one,
and so is a buffered reader over one. A reader that stands on these laws reads the same from each of
them.
-/

namespace Reading

open ByteString

variable {R : Type}

/-- `Read`: one call for at most `n` bytes, and a buffer of `n` bytes filled whole. -/
class Read (R : Type) where
  read : R → Nat → Bytes × R
  readExact : R → Nat → Option Bytes × R

/-- `contents` is what a seek can go back to. -/
class LawfulRead (R : Type) extends Read R where
  unread : R → Bytes
  contents : R → Bytes
  read_append (r : R) (n : Nat) : (read r n).1 ++ unread (read r n).2 = unread r
  length_read_le (r : R) (n : Nat) : (read r n).1.length ≤ n
  unread_of_read_nil {r : R} {n : Nat} : 0 < n → (read r n).1 = [] → unread r = []
  contents_read (r : R) (n : Nat) : contents (read r n).2 = contents r
  readExact_of_le {r : R} {n : Nat} : n ≤ (unread r).length →
    (readExact r n).1 = some ((unread r).take n) ∧ unread (readExact r n).2 = (unread r).drop n
  readExact_of_lt {r : R} {n : Nat} : (unread r).length < n → (readExact r n).1 = none
  contents_readExact (r : R) (n : Nat) : contents (readExact r n).2 = contents r

open Read LawfulRead

/-- A reader that does not fail, as one that may. -/
instance (priority := low) LawfulRead.toTry [LawfulRead R] : LawfulTryRead Empty R where
  tryRead r n := .ok (read r n)
  stream r := ⟨unread r, none⟩
  stream_read {r r' n bytes} _ h := by
    obtain ⟨rfl, rfl⟩ := Prod.mk.inj (Except.ok.inj h)
    exact congrArg (Stream.mk · none) (read_append r n).symm
  length_read {r r' n bytes} h := by
    obtain ⟨rfl, -⟩ := Prod.mk.inj (Except.ok.inj h)
    exact length_read_le r n
  stream_of_read_nil {r r' n} hn h := by
    rw [unread_of_read_nil hn (Prod.mk.inj (Except.ok.inj h)).1]
  stream_of_error {r n e} := e.elim

/-- A reader at its end reads nothing. -/
theorem read_of_nil [LawfulRead R] {r : R} (h : unread r = []) (n : Nat) :
    (read r n).1 = [] ∧ unread (read r n).2 = [] := by
  have happend := read_append r n
  rw [h, List.append_eq_nil_iff] at happend
  exact happend

/-- A call for one byte returns it. -/
theorem read_one [LawfulRead R] {r : R} {b : UInt8} {bs : Bytes} (h : unread r = b :: bs) :
    (read r 1).1 = [b] ∧ unread (read r 1).2 = bs := by
  have happend := read_append r 1
  have hmost := length_read_le r 1
  rw [h] at happend
  match hgot : (read r 1).1 with
  | [] =>
      have hnil := unread_of_read_nil Nat.one_pos hgot
      rw [h] at hnil
      cases hnil
  | [c] =>
      rw [hgot, List.cons_append, List.nil_append, List.cons.injEq] at happend
      rw [happend.1]
      exact ⟨rfl, happend.2⟩
  | c :: d :: cs =>
      rw [hgot, List.length_cons, List.length_cons] at hmost
      omega

/-! ## Filling a buffer -/

/-- `default_read_exact` -/
def defaultReadExact (read : R → Nat → Bytes × R) (n : Nat) (r : R) : Option Bytes × R :=
  if _hn : n = 0 then (some [], r)
  else
    if _hgot : (read r n).1 = [] then (none, (read r n).2)
    else
      let filled := defaultReadExact read (n - (read r n).1.length) (read r n).2
      (filled.1.map ((read r n).1 ++ ·), filled.2)
termination_by n
decreasing_by
  have hpos := List.length_pos_of_ne_nil _hgot
  omega

section defaultReadExact

variable {call : R → Nat → Bytes × R} {left : R → Bytes}
  (happend : ∀ r n, (call r n).1 ++ left (call r n).2 = left r)
  (hlength : ∀ r n, (call r n).1.length ≤ n)
  (hnil : ∀ {r n}, 0 < n → (call r n).1 = [] → left r = [])

include happend

/-- `read_exact` of more than there is fails. -/
theorem defaultReadExact_of_lt {n : Nat} {r : R} (hlt : (left r).length < n) :
    (defaultReadExact call n r).1 = none := by
  induction n using Nat.strongRecOn generalizing r with
  | ind n ih =>
  rw [defaultReadExact, dif_neg (by omega)]
  have hwhole := happend r n
  split
  case isTrue => rfl
  case isFalse hgot =>
    have hpos := List.length_pos_of_ne_nil hgot
    have hrest : (left (call r n).2).length < n - (call r n).1.length := by
      rw [← hwhole, List.length_append] at hlt
      omega
    simp only [ih (n - (call r n).1.length) (by omega) hrest, Option.map_none]

include hlength hnil

/-- `read_exact` of what there is returns it, and leaves the rest. -/
theorem defaultReadExact_of_le {n : Nat} {r : R} (hle : n ≤ (left r).length) :
    (defaultReadExact call n r).1 = some ((left r).take n) ∧
      left (defaultReadExact call n r).2 = (left r).drop n := by
  induction n using Nat.strongRecOn generalizing r with
  | ind n ih =>
  rw [defaultReadExact]
  split
  case isTrue hn => subst hn; simp
  case isFalse hn =>
    have hwhole := happend r n
    have hmost := hlength r n
    split
    case isTrue hgot =>
      have hleft := hnil (Nat.pos_of_ne_zero hn) hgot
      rw [hleft, List.length_nil] at hle
      omega
    case isFalse hgot =>
      have hpos := List.length_pos_of_ne_nil hgot
      have hrest : n - (call r n).1.length ≤ (left (call r n).2).length := by
        rw [← hwhole, List.length_append] at hle
        omega
      obtain ⟨hbytes, hbehind⟩ := ih (n - (call r n).1.length) (by omega) hrest
      refine ⟨?_, ?_⟩
      · simp only [hbytes]
        rw [Option.map_some, ← hwhole, List.take_append, List.take_of_length_le hmost]
      · rw [hbehind, ← hwhole, List.drop_append, List.drop_of_length_le hmost, List.nil_append]

end defaultReadExact

/-- What every call keeps is kept. -/
theorem defaultReadExact_keeps {α : Type} {call : R → Nat → Bytes × R} {f : R → α}
    (hkeep : ∀ r n, f (call r n).2 = f r) (n : Nat) (r : R) :
    f (defaultReadExact call n r).2 = f r := by
  induction n using Nat.strongRecOn generalizing r with
  | ind n ih =>
  rw [defaultReadExact]
  split
  case isTrue => rfl
  case isFalse hn =>
    split
    case isTrue => exact hkeep r n
    case isFalse hgot =>
      have hpos := List.length_pos_of_ne_nil hgot
      rw [ih (n - (call r n).1.length) (by omega), hkeep]

/-! ## Files -/

/-- An open file. The `k`-th call returns at most `short k + 1` bytes. -/
structure File where
  bytes : Bytes
  position : Nat
  short : Nat → Nat
  calls : Nat

/-- `File::open` -/
def File.open (bytes : Bytes) (short : Nat → Nat) : File :=
  { bytes, position := 0, short, calls := 0 }

def File.unread (f : File) : Bytes := f.bytes.drop f.position

/-- `File::read` -/
def File.read (f : File) (n : Nat) : Bytes × File :=
  let got := f.unread.take (min n (f.short f.calls + 1))
  (got, { f with position := f.position + got.length, calls := f.calls + 1 })

/-- `File::seek` from the start -/
def File.seek (f : File) (offset : Nat) : File := { f with position := offset }

/-- A read of a file takes a front of it. -/
theorem File.read_append (f : File) (n : Nat) : (f.read n).1 ++ (f.read n).2.unread = f.unread := by
  simp only [File.read, File.unread, ← List.drop_drop]
  rw [List.length_take]
  rcases Nat.le_total (min n (f.short f.calls + 1)) (f.bytes.drop f.position).length with h | h
  · rw [Nat.min_eq_left h, List.take_append_drop]
  · rw [Nat.min_eq_right h, List.take_of_length_le h, List.drop_length, List.append_nil]

theorem File.length_read_le (f : File) (n : Nat) : (f.read n).1.length ≤ n := by
  simp only [File.read, List.length_take]
  omega

/-- A file that reads nothing is at its end. -/
theorem File.unread_of_read_nil {f : File} {n : Nat} (hn : 0 < n) (h : (f.read n).1 = []) :
    f.unread = [] := by
  simp only [File.read, List.take_eq_nil_iff] at h
  exact h.resolve_left (by omega)

instance : LawfulRead File where
  read := File.read
  readExact f n := defaultReadExact File.read n f
  unread := File.unread
  contents := File.bytes
  read_append := File.read_append
  length_read_le := File.length_read_le
  unread_of_read_nil := File.unread_of_read_nil
  contents_read _ _ := rfl
  readExact_of_le :=
    defaultReadExact_of_le File.read_append File.length_read_le File.unread_of_read_nil
  readExact_of_lt :=
    defaultReadExact_of_lt File.read_append
  contents_readExact f n := defaultReadExact_keeps (fun _ _ => rfl) n f

/-! ## Buffered readers -/

namespace BufReader

/-- `BufReader::fill_buf`: the reader with its buffer filled. -/
def fillBuf [Read R] (r : BufReader R) : BufReader R :=
  if r.buffer = [] then
    let (got, inner) := Read.read r.inner r.capacity
    { r with inner, buffer := got }
  else r

/-- `BufReader::read`, past the buffer where that is empty and no larger than the request. -/
def read [Read R] (r : BufReader R) (n : Nat) : Bytes × BufReader R :=
  if r.buffer = [] ∧ r.capacity ≤ n then
    let (got, inner) := Read.read r.inner n
    (got, { r with inner })
  else
    let r := r.fillBuf
    (r.buffer.take n, r.consume n)

/-- `BufReader::read_exact`, in one copy where the buffer holds it all. -/
def readExact [Read R] (r : BufReader R) (n : Nat) : Option Bytes × BufReader R :=
  if n ≤ r.buffer.length then (some (r.buffer.take n), r.consume n)
  else defaultReadExact read n r

/-- `BufReader::seek` from the start, which drops the buffer. -/
def seek (r : BufReader File) (offset : Nat) : BufReader File :=
  { r with inner := r.inner.seek offset, buffer := [] }

def unread [LawfulRead R] (r : BufReader R) : Bytes := r.buffer ++ LawfulRead.unread r.inner

variable [LawfulRead R]

/-- Over a reader that does not fail, filling the buffer does not. -/
theorem tryFillBuf_eq (r : BufReader R) : r.tryFillBuf = .ok r.fillBuf := by
  rw [tryFillBuf, fillBuf]
  cases hbuffer : r.buffer with
  | nil => rfl
  | cons b buffer => rw [if_neg (List.cons_ne_nil b buffer)]

@[simp] theorem unread_fillBuf (r : BufReader R) : r.fillBuf.unread = r.unread :=
  congrArg Stream.bytes (stream_tryFillBuf (tryFillBuf_eq r))

@[simp] theorem contents_fillBuf (r : BufReader R) :
    contents r.fillBuf.inner = contents r.inner := by
  rw [fillBuf]
  split
  case isTrue => exact contents_read r.inner r.capacity
  case isFalse => rfl

/-- `fill_buf` gives no bytes at the end only. -/
theorem buffer_fillBuf_eq_nil (r : BufReader R) : r.fillBuf.buffer = [] ↔ r.unread = [] := by
  constructor
  · intro h
    exact congrArg Stream.bytes (stream_of_buffer_nil (tryFillBuf_eq r) h).1
  · intro h
    rw [← unread_fillBuf, unread] at h
    exact (List.append_eq_nil_iff.mp h).1

/-- The buffer is a front of what is to be read. -/
theorem buffer_prefix (r : BufReader R) : r.buffer <+: r.unread := r.buffer_prefix_stream

/-- Consuming a part of the buffer takes it from what is to be read. -/
theorem unread_consume {r : BufReader R} {n : Nat} (h : n ≤ r.buffer.length) :
    (r.consume n).unread = r.unread.drop n :=
  congrArg Stream.bytes (stream_consume h)

/-- A read takes a front of what is to be read. -/
theorem read_append (r : BufReader R) (n : Nat) :
    (r.read n).1 ++ (r.read n).2.unread = r.unread := by
  rw [read]
  split
  case isTrue h =>
    simp only [unread, h.1, List.nil_append]
    exact LawfulRead.read_append r.inner n
  case isFalse =>
    rw [← unread_fillBuf r]
    simp only [consume, unread]
    rw [← List.append_assoc, List.take_append_drop]

theorem length_read_le (r : BufReader R) (n : Nat) : (r.read n).1.length ≤ n := by
  rw [read]
  split
  case isTrue => exact LawfulRead.length_read_le r.inner n
  case isFalse =>
    rw [List.length_take]
    exact Nat.min_le_left _ _

/-- A reader that reads nothing is at its end. -/
theorem unread_of_read_nil {r : BufReader R} {n : Nat} (hn : 0 < n) (h : (r.read n).1 = []) :
    r.unread = [] := by
  rw [read] at h
  split at h
  case isTrue hbuffer =>
    rw [unread, hbuffer.1, List.nil_append]
    exact LawfulRead.unread_of_read_nil hn h
  case isFalse =>
    have hempty := (List.take_eq_nil_iff.mp h).resolve_left (by omega)
    exact (buffer_fillBuf_eq_nil r).mp hempty

/-- A read does not change the contents of the file. -/
theorem contents_read (r : BufReader R) (n : Nat) :
    contents (r.read n).2.inner = contents r.inner := by
  rw [read]
  split
  case isTrue => exact LawfulRead.contents_read r.inner n
  case isFalse => exact contents_fillBuf r

/-- `read_exact` of what there is returns it, and leaves the rest. -/
theorem readExact_of_le {r : BufReader R} {n : Nat} (hle : n ≤ r.unread.length) :
    (r.readExact n).1 = some (r.unread.take n) ∧ (r.readExact n).2.unread = r.unread.drop n := by
  rw [readExact]
  split
  case isTrue h =>
    refine ⟨?_, unread_consume h⟩
    rw [unread, List.take_append_of_le_length h]
  case isFalse => exact defaultReadExact_of_le read_append length_read_le unread_of_read_nil hle

/-- `read_exact` of more than there is fails. -/
theorem readExact_of_lt {r : BufReader R} {n : Nat} (hlt : r.unread.length < n) :
    (r.readExact n).1 = none := by
  have hbuffer := r.buffer_prefix.length_le
  rw [readExact, if_neg (by omega)]
  exact defaultReadExact_of_lt read_append hlt

instance : LawfulRead (BufReader R) where
  read := read
  readExact := readExact
  unread := unread
  contents r := contents r.inner
  read_append := read_append
  length_read_le := length_read_le
  unread_of_read_nil := unread_of_read_nil
  contents_read := contents_read
  readExact_of_le := readExact_of_le
  readExact_of_lt := readExact_of_lt
  contents_readExact r n := by
    rw [readExact]
    split
    case isTrue => rfl
    case isFalse =>
      exact @defaultReadExact_keeps _ _ read (fun r : BufReader R => contents r.inner)
        contents_read n r

end BufReader

/-! ## Readers that lend their buffer -/

/-- `BufRead`: the reader with its buffer filled, the buffer, and the reader behind `n` bytes of
it. -/
class BufRead (R : Type) where
  fillBuf : R → R
  buffer : R → Bytes
  consume : R → Nat → R

/-- A filled buffer holds the first bytes left, none only at the end. -/
class LawfulBufRead (R : Type) extends LawfulRead R, BufRead R where
  unread_fillBuf (r : R) : unread (fillBuf r) = unread r
  buffer_prefix (r : R) : buffer r <+: unread r
  buffer_fillBuf_eq_nil (r : R) : buffer (fillBuf r) = [] ↔ unread r = []
  unread_consume {r : R} {n : Nat} : n ≤ (buffer r).length →
    unread (consume r n) = (unread r).drop n

instance [LawfulRead R] : LawfulBufRead (BufReader R) where
  fillBuf := BufReader.fillBuf
  buffer := BufReader.buffer
  consume := BufReader.consume
  unread_fillBuf := BufReader.unread_fillBuf
  buffer_prefix := BufReader.buffer_prefix
  buffer_fillBuf_eq_nil := BufReader.buffer_fillBuf_eq_nil
  unread_consume := BufReader.unread_consume

/-! ## Reading item after item -/

section drain

variable {σ τ α β E : Type}

/-- What `n` calls return, up to the end or the first error: the items, and how it ended if it
did. -/
def drain (next : σ → Except E (Option α) × σ) : Nat → σ → List α × Option (Option E)
  | 0, _ => ([], none)
  | n + 1, st =>
      match next st with
      | (.error failure, _) => ([], some (some failure))
      | (.ok none, _) => ([], some none)
      | (.ok (some a), st) => (a :: (drain next n st).1, (drain next n st).2)

/-- Two drains return corresponding items and end alike, though maybe with another error. -/
def Alike (f : α → β) (a : List α × Option (Option E)) (b : List β × Option (Option E)) : Prop :=
  b.1 = a.1.map f ∧ b.2.map Option.isSome = a.2.map Option.isSome

theorem Alike.comm {f : α → β} {a a' : List α × Option (Option E)} {b : List β × Option (Option E)}
    (h : Alike id a a') (h' : Alike f a b) : Alike f a' b := by
  obtain ⟨hitems, hending⟩ := h
  rw [List.map_id] at hitems
  exact ⟨hitems ▸ h'.1, h'.2.trans hending.symm⟩

/-- What is alike to a list that ended is the image of the list. -/
theorem Alike.ended {f : α → β} {as : List α} {b : List β × Option (Option E)}
    (h : Alike f (as, some none) b) : b = (as.map f, some none) := by
  obtain ⟨items, ending⟩ := b
  obtain ⟨rfl, hending⟩ := h
  match ending with
  | some none => rfl
  | some (some failure) => cases hending
  | none => cases hending

/-- One call answers another. -/
def Answers (f : α → β) (related : Prop) : Except E (Option α) → Except E (Option β) → Prop
  | .error _, answer => ∃ failure, answer = .error failure
  | .ok none, answer => answer = .ok none
  | .ok (some a), answer => answer = .ok (some (f a)) ∧ related

/-- Readers whose calls answer each other read alike. -/
theorem drain_alike {first : σ → Except E (Option α) × σ} {second : τ → Except E (Option β) × τ}
    {f : α → β} {related : σ → τ → Prop}
    (hstep : ∀ {s t}, related s t →
      Answers f (related (first s).2 (second t).2) (first s).1 (second t).1)
    (n : Nat) {s : σ} {t : τ} (h : related s t) :
    Alike f (drain first n s) (drain second n t) := by
  induction n generalizing s t with
  | zero => exact ⟨rfl, rfl⟩
  | succ n ih =>
      have hcall := hstep h
      rcases hfirst : first s with ⟨answer, s'⟩
      rcases hsecond : second t with ⟨answer', t'⟩
      rw [hfirst, hsecond] at hcall
      rcases answer with failure | _ | a
      · obtain ⟨failure', rfl⟩ := hcall
        simp only [drain, hfirst, hsecond]
        exact ⟨rfl, rfl⟩
      · obtain rfl : answer' = .ok none := hcall
        simp only [drain, hfirst, hsecond]
        exact ⟨rfl, rfl⟩
      · obtain ⟨rfl, hrelated⟩ := hcall
        obtain ⟨hitems, hending⟩ := ih hrelated
        simp only [drain, hfirst, hsecond]
        exact ⟨by rw [hitems, List.map_cons], hending⟩

end drain

end Reading
