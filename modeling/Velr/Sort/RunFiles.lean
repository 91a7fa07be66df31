import Velr.Common.Reading
import Velr.Common.Slices
import Velr.Sort.Key

/-!
# Records and keys of one size

`read_fixed_records` and `RunReader` of `index_builder.rs`. The first decodes the whole records of a
buffer in place and reads a split one by itself; the second reads a block of keys at once. However
the bytes come, they are cut at the multiples of the size (`fixed_size_reading`).
-/

namespace Velr.Sort

open ByteString (Bytes slice overwrite length_overwrite toLE ofLE length_toLE ofLE_toLE_of_lt)
open IndexStats (Failure)
open Reading
open Slices (slices slices_add slices_one slices_succ slices_take slices_flatMap length_flatMap_eq)

/-! ## Records -/

section
variable {R σ : Type} [Read R] [BufRead R] (n : Nat) (visit : σ → Bytes → σ)

/-- The loop of `read_fixed_records`, with what the visits leave behind. -/
def readRecords (records : Nat) (st : σ) (reader : R) : Except Failure Unit × σ × R :=
  if _hrecords : records = 0 then (.ok (), st, reader)
  else
    let reader := BufRead.fillBuf reader
    let buffered := BufRead.buffer reader
    let complete := min (buffered.length / n) records
    if _hcomplete : complete = 0 then
      match Read.readExact reader n with
      | (none, reader) => (.error (.error "failed to fill whole buffer"), st, reader)
      | (some record, reader) => readRecords (records - 1) (visit st record) reader
    else
      -- `chunks_exact`: `complete * n` is a multiple of the size
      let st := (slices n (buffered.take (complete * n)) complete).foldl visit st
      readRecords (records - complete) st (BufRead.consume reader (complete * n))
termination_by records
decreasing_by
  · omega
  · exact Nat.sub_lt (Nat.pos_of_ne_zero _hrecords) (Nat.pos_of_ne_zero _hcomplete)

/-- `read_fixed_records` -/
def readFixedRecords (records : Nat) (st : σ) (reader : R) : Except Failure Unit × σ × R :=
  if n = 0 then (.error .panic, st, reader) else readRecords n visit records st reader

end

section
variable {R σ : Type} [LawfulBufRead R] {n : Nat} {visit : σ → Bytes → σ}

open LawfulRead (unread)

/-- What a reading of records leaves behind: the records visited in order and the bytes behind them
unread, or an error behind the last record that is whole. -/
def ReadsRecords (n : Nat) (visit : σ → Bytes → σ) (records : Nat) (st : σ) (left : Bytes)
    (outcome : Except Failure Unit × σ × R) : Prop :=
  if records * n ≤ left.length then
    outcome.1 = .ok () ∧ outcome.2.1 = (slices n left records).foldl visit st ∧
      unread outcome.2.2 = left.drop (records * n)
  else
    (∃ message, outcome.1 = .error (.error message)) ∧
      outcome.2.1 = (slices n left (left.length / n)).foldl visit st

/-- Some records and then the others. -/
theorem ReadsRecords.add (hn : 0 < n) {done records : Nat} {st : σ} {left : Bytes}
    {outcome : Except Failure Unit × σ × R} (hdone : done * n ≤ left.length)
    (h : ReadsRecords n visit records ((slices n left done).foldl visit st) (left.drop (done * n))
      outcome) :
    ReadsRecords n visit (done + records) st left outcome := by
  have hlength : (left.drop (done * n)).length = left.length - done * n := List.length_drop
  rw [ReadsRecords, hlength] at h
  rw [ReadsRecords, Nat.add_mul]
  split at h
  · next hfits =>
      obtain ⟨hok, hstate, hunread⟩ := h
      rw [if_pos (by omega), slices_add, List.foldl_append]
      exact ⟨hok, hstate, by rw [hunread, List.drop_drop]⟩
  · next hshort =>
      have hwhole : left.length / n = done + (left.length - done * n) / n := by
        have hsum : left.length = left.length - done * n + done * n := by omega
        rw [hsum, Nat.add_mul_div_right _ _ hn, Nat.add_sub_cancel, Nat.add_comm]
      rw [if_neg (by omega), hwhole, slices_add, List.foldl_append]
      exact h

/-- The records of a file are read one after another, up to its end or to a cut. -/
theorem readRecords_spec (hn : 0 < n) (records : Nat) (st : σ) (reader : R) :
    ReadsRecords n visit records st (unread reader) (readRecords n visit records st reader) := by
  induction records using Nat.strongRecOn generalizing st reader with
  | ind records ih =>
  rw [readRecords]
  split
  case isTrue hzero =>
    subst hzero
    rw [ReadsRecords, if_pos (by rw [Nat.zero_mul]; exact Nat.zero_le _), Nat.zero_mul]
    exact ⟨rfl, rfl, rfl⟩
  case isFalse hrecords =>
    have hfilled := LawfulBufRead.unread_fillBuf reader
    have hbuffer := LawfulBufRead.buffer_prefix (BufRead.fillBuf reader)
    generalize BufRead.fillBuf reader = filled at hfilled hbuffer ⊢
    rw [hfilled] at hbuffer
    dsimp only
    split
    case isTrue hcomplete =>
      -- no record of the buffer is whole: one is read by itself
      by_cases hshort : (unread filled).length < n
      · have hread := LawfulRead.readExact_of_lt hshort
        rcases hcall : Read.readExact filled n with ⟨answer, behind⟩
        rw [hcall] at hread
        subst hread
        rw [hfilled] at hshort
        have hmul : n ≤ records * n := Nat.le_mul_of_pos_left n (Nat.pos_of_ne_zero hrecords)
        rw [ReadsRecords, if_neg (by omega), Nat.div_eq_of_lt hshort]
        exact ⟨⟨_, rfl⟩, rfl⟩
      · obtain ⟨hread, hbehind⟩ := LawfulRead.readExact_of_le (Nat.le_of_not_lt hshort)
        rcases hcall : Read.readExact filled n with ⟨answer, behind⟩
        rw [hcall] at hread hbehind
        subst hread
        rw [hfilled] at hshort hbehind
        obtain ⟨others, rfl⟩ : ∃ others, records = 1 + others := ⟨records - 1, by omega⟩
        have hrest := ih others (by omega) (visit st ((unread reader).take n)) behind
        rw [hfilled, Nat.add_sub_cancel_left]
        refine ReadsRecords.add hn (by omega) ?_
        rw [slices_one, Nat.one_mul, ← hbehind]
        exact hrest
    case isFalse hcomplete =>
      have hwhole : min ((BufRead.buffer filled).length / n) records * n ≤
          (BufRead.buffer filled).length := by
        refine Nat.le_trans (Nat.mul_le_mul_right n (Nat.min_le_left _ _)) ?_
        exact Nat.div_mul_le_self _ _
      have hbehind := LawfulBufRead.unread_consume hwhole
      generalize hcount : min ((BufRead.buffer filled).length / n) records = complete at *
      have hle : complete ≤ records := by rw [← hcount]; exact Nat.min_le_right _ _
      have hrest := ih (records - complete) (by omega)
        ((slices n ((BufRead.buffer filled).take (complete * n)) complete).foldl visit st)
        (BufRead.consume filled (complete * n))
      have hfront : (BufRead.buffer filled).take (complete * n) =
          (unread reader).take (complete * n) := by
        obtain ⟨tail, htail⟩ := hbuffer
        rw [← htail, List.take_append_of_le_length hwhole]
      rw [hbehind, hfilled, hfront, slices_take (Nat.le_refl _)] at hrest
      rw [hfront, slices_take (Nat.le_refl _), ← Nat.add_sub_cancel' hle, Nat.add_sub_cancel_left]
      exact hrest.add hn (Nat.le_trans hwhole hbuffer.length_le)

end

/-! ## Runs -/

/-- `RadixKey` with `from_run_bytes`, and the bytes of `write`. -/
class RunKey (K : Type) extends RadixKey K where
  bytes_pos : 0 < bytes
  fromRunBytes : Bytes → K
  toRunBytes : K → Bytes

/-- A key is read back from its bytes. -/
class LawfulRunKey (K : Type) extends RunKey K where
  length_toRunBytes (key : K) : (toRunBytes key).length = bytes
  fromRunBytes_toRunBytes (key : K) : fromRunBytes (toRunBytes key) = key

/-- A word of a key; the native order is the one of a little-endian machine. -/
def wordAt (bytes : Bytes) (size : Nat) (word : Nat) : Nat := ofLE (Slices.slice size bytes word)

/-- A word is read back from its place. -/
theorem wordAt_flatMap {α : Type} {size : Nat} (value : α → Nat)
    (hvalue : ∀ word, value word < 256 ^ size) {words : List α} {i : Nat} (hi : i < words.length) :
    wordAt (words.flatMap fun word => toLE size (value word)) size i =
      value (words.get ⟨i, hi⟩) := by
  have hslices := slices_flatMap (f := fun word => toLE size (value word))
    (fun word => length_toLE size (value word)) words
  have hget := congrArg (·[i]?) hslices
  simp only [slices, List.getElem?_map, List.getElem?_range hi, List.getElem?_eq_getElem hi,
    Option.map_some, Option.some.injEq] at hget
  rw [wordAt, hget, ofLE_toLE_of_lt (hvalue _)]
  rfl

instance : LawfulRunKey UInt64 where
  bytes_pos := by decide
  fromRunBytes bytes := .ofNat (ofLE bytes)
  toRunBytes key := toLE 8 key.toNat
  length_toRunBytes key := length_toLE 8 key.toNat
  fromRunBytes_toRunBytes key := by
    rw [ofLE_toLE_of_lt (Nat.lt_of_lt_of_eq key.toNat_lt (by decide)), UInt64.ofNat_toNat]

instance : LawfulRunKey Word128 where
  bytes_pos := by decide
  fromRunBytes bytes := ⟨.ofNat 128 (ofLE bytes)⟩
  toRunBytes key := toLE 16 key.bits.toNat
  length_toRunBytes key := length_toLE 16 key.bits.toNat
  fromRunBytes_toRunBytes key := by
    rw [ofLE_toLE_of_lt (Nat.lt_of_lt_of_eq key.bits.isLt (by decide)), BitVec.ofNat_toNat,
      BitVec.setWidth_eq]

instance : LawfulRunKey Packed96 where
  bytes_pos := by decide
  fromRunBytes bytes := ⟨.ofFn fun word => .ofNat (wordAt bytes 4 word)⟩
  toRunBytes key := key.words.toList.flatMap fun word => toLE 4 word.toNat
  length_toRunBytes key := by
    have hword : ∀ word : UInt32, (toLE 4 word.toNat).length = 4 := fun _ => length_toLE ..
    rw [length_flatMap_eq hword, Vector.length_toList]
    rfl
  fromRunBytes_toRunBytes key := by
    congr 1
    refine Vector.ext fun i hi => ?_
    have hvalue : ∀ word : UInt32, word.toNat < 256 ^ 4 :=
      fun word => Nat.lt_of_lt_of_eq word.toNat_lt (by decide)
    rw [Vector.getElem_ofFn, wordAt_flatMap UInt32.toNat hvalue
      (by rw [Vector.length_toList]; exact hi), UInt32.ofNat_toNat]
    exact Vector.getElem_toList _

instance : LawfulRunKey WideKey where
  bytes_pos := by decide
  fromRunBytes bytes := ⟨.ofFn fun field => .ofNat (wordAt bytes 8 field)⟩
  toRunBytes key := key.words.toList.flatMap fun word => toLE 8 word.toNat
  length_toRunBytes key := by
    have hword : ∀ word : UInt64, (toLE 8 word.toNat).length = 8 := fun _ => length_toLE ..
    rw [length_flatMap_eq hword, Vector.length_toList]
    rfl
  fromRunBytes_toRunBytes key := by
    congr 1
    refine Vector.ext fun i hi => ?_
    have hvalue : ∀ word : UInt64, word.toNat < 256 ^ 8 :=
      fun word => Nat.lt_of_lt_of_eq word.toNat_lt (by decide)
    rw [Vector.getElem_ofFn, wordAt_flatMap UInt64.toNat hvalue
      (by rw [Vector.length_toList]; exact hi), UInt64.ofNat_toNat]
    exact Vector.getElem_toList _

/-- `io::Error` -/
inductive ReadError where
  | interrupted
  | other (message : String)
deriving DecidableEq

/-- An open run. Some calls are interrupted before each one that is not, and one may fail. -/
structure RunInput where
  file : File
  /-- the interrupted calls that are still to come -/
  interrupted : Nat
  interruptions : Nat → Nat
  fault : Nat → Option String

/-- `File::read` of a run -/
def RunInput.read (input : RunInput) (n : Nat) : Except ReadError Bytes × RunInput :=
  if input.interrupted = 0 then
    let interrupted := input.interruptions input.file.calls
    match input.fault input.file.calls with
    | some message =>
        let file := { input.file with calls := input.file.calls + 1 }
        (.error (.other message), { input with file, interrupted })
    | none =>
        let (got, file) := input.file.read n
        (.ok got, { input with file, interrupted })
  else (.error .interrupted, { input with interrupted := input.interrupted - 1 })

/-- `RunReader` -/
structure RunReader where
  input : RunInput
  buffer : Bytes
  position : Nat
  length : Nat

/-- `RunReader::open`: how many bytes the buffer has. -/
def runCapacity (bytes : Nat) : Nat := max (64 * 1024 / bytes) 1 * bytes

/-- `RunReader::open` -/
def RunReader.open (K : Type) [RunKey K] (input : RunInput) : RunReader where
  input := input
  buffer := .replicate (runCapacity (RadixKey.bytes K)) 0
  position := 0
  length := 0

/-- A read returns no more than it asked for. -/
theorem RunInput.length_read_le {input input' : RunInput} {n : Nat} {got : Bytes}
    (h : input.read n = (.ok got, input')) : got.length ≤ n := by
  rw [RunInput.read] at h
  split at h
  · split at h
    · cases h
    · obtain ⟨hgot, -⟩ := Prod.mk.inj h
      cases hgot
      exact File.length_read_le input.file n
  · cases h

/-- An interrupt is used up. -/
theorem RunInput.interrupted_read {input input' : RunInput} {n : Nat}
    (h : input.read n = (.error .interrupted, input')) :
    input'.interrupted < input.interrupted := by
  rw [RunInput.read] at h
  split at h
  · split at h
    · cases h
    · cases h
  · next hinterrupted =>
      obtain ⟨-, rfl⟩ := Prod.mk.inj h
      exact Nat.sub_lt (Nat.pos_of_ne_zero hinterrupted) Nat.one_pos

/-- The loop of `refill`. -/
def RunReader.fill (reader : RunReader) : Except Failure Unit × RunReader :=
  if reader.length = reader.buffer.length then (.ok (), reader)
  else
    match _hcall : reader.input.read (reader.buffer.length - reader.length) with
    | (.ok [], input) => (.ok (), { reader with input })
    | (.ok (b :: got), input) =>
        RunReader.fill { reader with
          input, buffer := overwrite reader.buffer reader.length (b :: got)
          length := reader.length + (b :: got).length }
    | (.error .interrupted, input) => RunReader.fill { reader with input }
    | (.error (.other message), input) => (.error (.error message), { reader with input })
termination_by (reader.buffer.length - reader.length, reader.input.interrupted)
decreasing_by
  · have hlength := RunInput.length_read_le _hcall
    rw [List.length_cons] at hlength
    rw [length_overwrite (by rw [List.length_cons]; omega), List.length_cons]
    exact Prod.Lex.left _ _ (by omega)
  · exact Prod.Lex.right _ (RunInput.interrupted_read _hcall)

/-- `RunReader::refill` for keys of a size. -/
def RunReader.refill (bytes : Nat) (reader : RunReader) : Except Failure Unit × RunReader :=
  match RunReader.fill { reader with position := 0, length := 0 } with
  | (.error failure, reader) => (.error failure, reader)
  | (.ok (), reader) =>
      if reader.length % bytes ≠ 0 then
        (.error (.error "private sort run has an incomplete key"), { reader with length := 0 })
      else (.ok (), reader)

section
variable {K : Type} [RunKey K]

/-- The second half of `RunReader::next`. -/
def RunReader.take (reader : RunReader) : Except Failure (Option K) × RunReader :=
  let stop := reader.position + RadixKey.bytes K
  if stop ≤ reader.buffer.length then
    let key := RunKey.fromRunBytes (slice reader.buffer reader.position (RadixKey.bytes K))
    (.ok (some key), { reader with position := stop })
  else (.error .panic, reader)

/-- `RunReader::next` -/
def RunReader.next (reader : RunReader) : Except Failure (Option K) × RunReader :=
  if reader.position = reader.length then
    match reader.refill (RadixKey.bytes K) with
    | (.error failure, reader) => (.error failure, reader)
    | (.ok (), reader) => if reader.length = 0 then (.ok none, reader) else reader.take
  else reader.take

end

/-! ## What a call leaves -/

/-- The bytes of a run that are not read. -/
def RunInput.unread (input : RunInput) : Bytes := input.file.unread

/-- What a call reads is the first part of what is left, and nothing at the end only. -/
theorem RunInput.read_spec (input : RunInput) (n : Nat) :
    match input.read n with
    | (.ok got, input') =>
        got ++ input'.unread = input.unread ∧ (0 < n → got = [] → input'.unread = []) ∧
          input'.fault = input.fault
    | (.error .interrupted, input') =>
        input'.unread = input.unread ∧ input'.fault = input.fault
    | (.error (.other message), _) => ∃ k, input.fault k = some message := by
  rw [RunInput.read]
  by_cases hinterrupted : input.interrupted = 0
  · rw [if_pos hinterrupted]
    dsimp only
    cases hfault : input.fault input.file.calls with
    | some message => exact ⟨_, hfault⟩
    | none =>
        have happend := File.read_append input.file n
        refine ⟨happend, fun hn hgot => ?_, rfl⟩
        have hnil := File.unread_of_read_nil hn hgot
        rw [hgot, hnil] at happend
        exact happend
  · rw [if_neg hinterrupted]
    exact ⟨rfl, rfl⟩

/-- What the loop of `refill` leaves: a buffer that is full, or a file at its end. -/
theorem RunReader.fill_spec (reader : RunReader) (hlength : reader.length ≤ reader.buffer.length) :
    match reader.fill with
    | (.ok (), reader') =>
        reader'.buffer.length = reader.buffer.length ∧ reader'.length ≤ reader'.buffer.length ∧
          reader'.position = reader.position ∧ reader'.input.fault = reader.input.fault ∧
          reader'.buffer.take reader'.length ++ reader'.input.unread =
            reader.buffer.take reader.length ++ reader.input.unread ∧
          (reader'.length = reader'.buffer.length ∨ reader'.input.unread = [])
    | (.error failure, _) => ∃ k message, reader.input.fault k = some message ∧
        failure = .error message := by
  fun_induction RunReader.fill reader with
  | case1 reader hfull => exact ⟨rfl, hlength, rfl, rfl, rfl, .inl hfull⟩
  | case2 reader hfull input hcall =>
      have hread := reader.input.read_spec (reader.buffer.length - reader.length)
      rw [hcall] at hread
      obtain ⟨happend, hnil, hfault⟩ := hread
      exact ⟨rfl, hlength, rfl, hfault, congrArg _ happend, .inr (hnil (by omega) rfl)⟩
  | case3 reader hfull b got input hcall ih =>
      have hread := reader.input.read_spec (reader.buffer.length - reader.length)
      rw [hcall] at hread
      obtain ⟨happend, -, hfault⟩ := hread
      have hgot := RunInput.length_read_le hcall
      have hsame := length_overwrite (s := reader.buffer) (b := b :: got) (i := reader.length)
        (by omega)
      have htake : (overwrite reader.buffer reader.length (b :: got)).take
          (reader.length + (b :: got).length) = reader.buffer.take reader.length ++ (b :: got) := by
        rw [overwrite, List.take_left']
        rw [List.length_append, List.length_take, Nat.min_eq_left hlength]
      have hrest := ih (by dsimp only; rw [hsame]; omega)
      dsimp only at hrest
      rw [hsame, hfault, htake, List.append_assoc, happend] at hrest
      exact hrest
  | case4 reader hfull input hcall ih =>
      have hread := reader.input.read_spec (reader.buffer.length - reader.length)
      rw [hcall] at hread
      have hrest := ih hlength
      dsimp only at hrest
      rw [hread.1, hread.2] at hrest
      exact hrest
  | case5 reader hfull message input hcall =>
      have hread := reader.input.read_spec (reader.buffer.length - reader.length)
      rw [hcall] at hread
      obtain ⟨k, hfault⟩ := hread
      exact ⟨k, message, hfault, rfl⟩

theorem dvd_runCapacity (bytes : Nat) : bytes ∣ runCapacity bytes := Nat.dvd_mul_left ..

theorem runCapacity_pos {bytes : Nat} (h : 0 < bytes) : 0 < runCapacity bytes :=
  Nat.mul_pos (Nat.lt_of_lt_of_le Nat.one_pos (Nat.le_max_right ..)) h

section
variable {K : Type} [RunKey K] {reader : RunReader} {rest : Bytes}

open RadixKey (bytes)

/-- A reader in front of the bytes `rest`: whole keys of its buffer, and what is not read. -/
structure RunReader.Stands (K : Type) [RunKey K] (reader : RunReader) (rest : Bytes) : Prop where
  capacity : reader.buffer.length = runCapacity (bytes K)
  length_le : reader.length ≤ reader.buffer.length
  position_le : reader.position ≤ reader.length
  whole : bytes K ∣ reader.length - reader.position
  rest : (reader.buffer.take reader.length).drop reader.position ++ reader.input.unread = rest

/-- A reader that is opened stands at the start of the file. -/
theorem stands_open (input : RunInput) : (RunReader.open K input).Stands K input.unread where
  capacity := List.length_replicate
  length_le := Nat.zero_le _
  position_le := Nat.le_refl _
  whole := Nat.dvd_zero _
  rest := rfl

/-- What a call answers in front of the bytes `rest`. -/
def NextSpec (K : Type) [RunKey K] (fault : Nat → Option String) (rest : Bytes)
    (outcome : Except Failure (Option K) × RunReader) : Prop :=
  match outcome with
  | (.ok none, _) => rest = []
  | (.ok (some key), reader') =>
      bytes K ≤ rest.length ∧ key = RunKey.fromRunBytes (rest.take (bytes K)) ∧
        reader'.Stands K (rest.drop (bytes K)) ∧ reader'.input.fault = fault
  | (.error failure, _) =>
      (¬bytes K ∣ rest.length ∧
        failure = .error "private sort run has an incomplete key") ∨
      ∃ k message, fault k = some message ∧ failure = .error message

/-- A buffer with a key left gives the first one. -/
theorem RunReader.Stands.take (h : reader.Stands K rest) (hkey : reader.position ≠ reader.length) :
    NextSpec K reader.input.fault rest reader.take := by
  have hlength := h.length_le
  have hposition := h.position_le
  have hpos : 0 < reader.length - reader.position := by omega
  have hfits := Nat.le_of_dvd hpos h.whole
  have hdrop : ((reader.buffer.take reader.length).drop reader.position).length =
      reader.length - reader.position := by
    rw [List.length_drop, List.length_take, Nat.min_eq_left hlength]
  have hfront :
    bytes K ≤ ((reader.buffer.take reader.length).drop reader.position).length := by omega
  have hslice : slice reader.buffer reader.position (bytes K) = rest.take (bytes K) := by
    rw [← h.rest, List.take_append_of_le_length hfront, List.drop_take, List.take_take,
      Nat.min_eq_left hfits, slice]
  have hrest : bytes K ≤ rest.length := by
    rw [← h.rest, List.length_append]
    omega
  rw [RunReader.take, if_pos (by omega)]
  refine ⟨hrest, congrArg _ hslice, ?_, rfl⟩
  exact {
    capacity := h.capacity
    length_le := hlength
    position_le := by dsimp only; omega
    whole := by
      dsimp only
      rw [Nat.sub_add_eq]
      exact Nat.dvd_sub h.whole (Nat.dvd_refl _)
    rest := by
      dsimp only
      rw [← h.rest, List.drop_append_of_le_length hfront, List.drop_drop] }

/-- A call in front of the bytes `rest`. -/
theorem RunReader.Stands.next (h : reader.Stands K rest) :
    NextSpec K reader.input.fault rest reader.next := by
  rw [RunReader.next]
  by_cases hempty : reader.position = reader.length
  swap
  · rw [if_neg hempty]
    exact h.take hempty
  rw [if_pos hempty, RunReader.refill]
  have hunread : reader.input.unread = rest := by
    have hrest := h.rest
    rwa [hempty, List.drop_eq_nil_of_le (by rw [List.length_take]; exact Nat.min_le_left ..),
      List.nil_append] at hrest
  have hfill := RunReader.fill_spec { reader with position := 0, length := 0 } (Nat.zero_le _)
  rcases hcall : RunReader.fill { reader with position := 0, length := 0 } with ⟨result, filled⟩
  rw [hcall] at hfill
  cases result with
  | error failure => exact .inr hfill
  | ok _ =>
      obtain ⟨hsame, hlength, hposition, hfault, hbytes, hend⟩ := hfill
      dsimp only at hsame hposition hfault hbytes ⊢
      rw [List.take_zero, List.nil_append, hunread] at hbytes
      have htotal : filled.length + filled.input.unread.length = rest.length := by
        rw [← hbytes, List.length_append, List.length_take, Nat.min_eq_left hlength]
      have hcapacity : filled.buffer.length = runCapacity (bytes K) := hsame.trans h.capacity
      have hwhole := dvd_runCapacity (bytes K)
      by_cases hcut : filled.length % bytes K ≠ 0
      · -- the buffer is not full, so the file is at its end
        rw [if_pos hcut]
        refine .inl ⟨fun hdvd => hcut (Nat.mod_eq_zero_of_dvd ?_), rfl⟩
        rcases hend with hfull | hnil
        · rw [hfull, hcapacity]
          exact hwhole
        · rwa [← htotal, hnil, List.length_nil, Nat.add_zero] at hdvd
      · rw [if_neg hcut]
        dsimp only
        by_cases hzero : filled.length = 0
        · rw [if_pos hzero]
          rcases hend with hfull | hnil
          · have hpos := runCapacity_pos (RunKey.bytes_pos (K := K))
            omega
          · rw [NextSpec, ← hbytes, hzero, hnil]
            rfl
        · rw [if_neg hzero, ← hfault]
          refine RunReader.Stands.take ?_ (by rw [hposition]; exact Ne.symm hzero)
          exact {
            capacity := hcapacity
            length_le := hlength
            position_le := by rw [hposition]; exact Nat.zero_le _
            whole := by
              rw [hposition]
              exact Nat.dvd_of_mod_eq_zero (not_not.mp hcut)
            rest := by rw [hposition]; exact hbytes }

/-! ## Whole runs -/

/-- The keys of the bytes of a run; what is left behind the last one is none. -/
def keysOf (K : Type) [RunKey K] (run : Bytes) : List K :=
  (slices (bytes K) run (run.length / bytes K)).map RunKey.fromRunBytes

/-- The first key of a file is that of its first bytes. -/
theorem keysOf_cons (h : bytes K ≤ rest.length) :
    keysOf K rest = RunKey.fromRunBytes (rest.take (bytes K)) ::
      keysOf K (rest.drop (bytes K)) := by
  have hpos := RunKey.bytes_pos (K := K)
  obtain ⟨behind, hbehind⟩ := Nat.le.dest h
  have hcount : rest.length / bytes K = (rest.drop (bytes K)).length / bytes K + 1 := by
    rw [List.length_drop, ← hbehind, Nat.add_sub_cancel_left, Nat.add_comm,
      Nat.add_div_right _ hpos]
  rw [keysOf, hcount, slices_succ]
  rfl

theorem dvd_length_drop (h : bytes K ≤ rest.length) :
    bytes K ∣ (rest.drop (bytes K)).length ↔ bytes K ∣ rest.length := by
  rw [List.length_drop, Nat.dvd_sub_iff_left h (Nat.dvd_refl _)]

/-- A run of whole keys is read to its end. -/
theorem RunReader.Stands.drain_whole (h : reader.Stands K rest)
    (hfault : ∀ k, reader.input.fault k = none) (hdvd : bytes K ∣ rest.length) (calls : Nat) :
    drain (RunReader.next (K := K)) calls reader =
      ((keysOf K rest).take calls, if calls ≤ (keysOf K rest).length then none else some none) := by
  induction calls generalizing reader rest with
  | zero => rfl
  | succ calls ih =>
      have hnext := h.next
      rw [drain]
      rcases hcall : reader.next (K := K) with ⟨failure | _ | key, reader'⟩
      · rw [hcall] at hnext
        rcases hnext with ⟨hcut, -⟩ | ⟨k, message, hsome, -⟩
        · exact absurd hdvd hcut
        · rw [hfault] at hsome
          cases hsome
      · rw [hcall] at hnext
        obtain rfl : rest = [] := hnext
        have hnil : keysOf K ([] : Bytes) = [] := by
          rw [keysOf, List.length_nil, Nat.zero_div]
          rfl
        dsimp only
        rw [hnil, List.length_nil, if_neg (Nat.not_succ_le_zero calls), List.take_nil]
      · rw [hcall] at hnext
        obtain ⟨hfits, rfl, hstands, hsame⟩ := hnext
        have hrest := ih hstands (by rw [hsame]; exact hfault) ((dvd_length_drop hfits).mpr hdvd)
        dsimp only
        rw [hrest, keysOf_cons hfits, List.take_succ_cons, List.length_cons]
        simp only [Nat.add_le_add_iff_right]

/-- A run that ends within a key is read up to some key, and then the call fails. -/
theorem RunReader.Stands.drain_cut (h : reader.Stands K rest)
    (hfault : ∀ k, reader.input.fault k = none) (hcut : ¬bytes K ∣ rest.length) :
    ∃ count ≤ (keysOf K rest).length, ∀ calls,
      drain (RunReader.next (K := K)) calls reader =
        ((keysOf K rest).take (min calls count),
          if calls ≤ count then none
          else some (some (.error "private sort run has an incomplete key"))) := by
  induction hlength : rest.length using Nat.strongRecOn generalizing reader rest with
  | ind length ih =>
  subst hlength
  have hnext := h.next
  match hcall : reader.next (K := K) with
  | (.error failure, _) =>
      rw [hcall] at hnext
      rcases hnext with ⟨-, rfl⟩ | ⟨k, message, hsome, -⟩
      · refine ⟨0, Nat.zero_le _, fun calls => ?_⟩
        cases calls with
        | zero => rfl
        | succ calls =>
            rw [drain, hcall, Nat.min_zero, if_neg (Nat.not_succ_le_zero calls)]
            rfl
      · rw [hfault] at hsome
        cases hsome
  | (.ok none, _) =>
      rw [hcall] at hnext
      obtain rfl : rest = [] := hnext
      exact absurd (Nat.dvd_zero _) hcut
  | (.ok (some key), reader') =>
      rw [hcall] at hnext
      obtain ⟨hfits, rfl, hstands, hsame⟩ := hnext
      have hpos := RunKey.bytes_pos (K := K)
      obtain ⟨count, hcount, hdrain⟩ := ih (rest.drop (bytes K)).length
        (by rw [List.length_drop]; omega) hstands (by rw [hsame]; exact hfault)
        (mt (dvd_length_drop hfits).mp hcut) rfl
      have hkeys := keysOf_cons hfits
      refine ⟨count + 1, by rw [hkeys, List.length_cons]; omega, fun calls => ?_⟩
      cases calls with
      | zero =>
          rw [Nat.zero_min, if_pos (Nat.zero_le _)]
          rfl
      | succ calls =>
          rw [drain, hcall]
          dsimp only
          rw [hdrain, hkeys, Nat.succ_min_succ, List.take_succ_cons]
          simp only [Nat.add_le_add_iff_right]

end

/-- Records and keys of one size are cut at its multiples, however the bytes come: the records that
were asked for are visited once each and in order, and what follows is left unread, or the input is
too short and it is an error; the keys of a run are read in order and then its end, or the run ends
within a key and some of the first keys are followed by an error. -/
theorem fixed_size_reading {R σ K : Type} [LawfulBufRead R] [RunKey K] {n : Nat} (hn : 0 < n)
    (visit : σ → Bytes → σ) (records : Nat) (st : σ) (reader : R) (run : Bytes)
    (short interruptions : Nat → Nat) :
    let left := LawfulRead.unread reader
    let outcome := readFixedRecords n visit records st reader
    let input : RunInput :=
      ⟨File.open run short, interruptions 0, interruptions, fun _ => none⟩
    let answers calls := drain (RunReader.next (K := K)) calls (RunReader.open K input)
    (if records * n ≤ left.length then
        outcome.1 = .ok () ∧
          outcome.2.1 = ((List.range records).map fun i => slice left (i * n) n).foldl visit st ∧
          LawfulRead.unread outcome.2.2 = left.drop (records * n)
      else ∃ message, outcome.1 = .error (.error message)) ∧
    (if RadixKey.bytes K ∣ run.length then
        ∀ calls, answers calls = ((keysOf K run).take calls,
          if calls ≤ (keysOf K run).length then none else some none)
      else ∃ count ≤ (keysOf K run).length, ∃ message, ∀ calls,
        answers calls = ((keysOf K run).take (min calls count),
          if calls ≤ count then none else some (some (.error message)))) := by
  intro left outcome input answers
  have hread : ReadsRecords n visit records st left (readRecords n visit records st reader) :=
    readRecords_spec hn records st reader
  have hstands : (RunReader.open K input).Stands K run := stands_open input
  refine ⟨?_, ?_⟩
  · have houtcome : outcome = readRecords n visit records st reader :=
      if_neg (Nat.pos_iff_ne_zero.mp hn)
    rw [houtcome]
    rw [ReadsRecords] at hread
    split
    · next hfits =>
        rw [if_pos hfits] at hread
        exact hread
    · next hshort =>
        rw [if_neg hshort] at hread
        exact hread.1
  · split
    · next hdvd => exact hstands.drain_whole (fun _ => rfl) hdvd
    · next hcut =>
        obtain ⟨count, hcount, hdrain⟩ := hstands.drain_cut (fun _ => rfl) hcut
        exact ⟨count, hcount, _, hdrain⟩

/-- Two records of three bytes through a buffer of four, and a run of one key and a byte. -/
theorem fixed_size_reading_split :
    let reader : BufReader File :=
      .withCapacity 4 (by decide) (.open [1, 2, 3, 4, 5, 6, 7] fun _ => 0)
    let input : RunInput :=
      ⟨File.open [8, 0, 0, 0, 0, 0, 0, 0, 9] fun _ => 2, 1, fun _ => 1, fun _ => none⟩
    let visit (visited : List Bytes) record := visited ++ [record]
    (readFixedRecords 3 visit 2 [] reader).2.1 = [[1, 2, 3], [4, 5, 6]] ∧
      LawfulRead.unread (readFixedRecords 3 visit 2 [] reader).2.2 = [7] ∧
      ∃ count ≤ 1, (drain (RunReader.next (K := UInt64)) 2 (RunReader.open UInt64 input)).1 =
        ([8] : List UInt64).take (min 2 count) := by
  intro reader input visit
  obtain ⟨hrecords, hrun⟩ := fixed_size_reading (K := UInt64) (n := 3) (by decide) visit 2 [] reader
    [8, 0, 0, 0, 0, 0, 0, 0, 9] (fun _ => 2) (fun _ => 1)
  rw [if_pos (by decide)] at hrecords
  rw [if_neg (by decide)] at hrun
  obtain ⟨count, hcount, message, hdrain⟩ := hrun
  exact ⟨hrecords.2.1, hrecords.2.2, count, hcount, congrArg Prod.fst (hdrain 2)⟩

end Velr.Sort
