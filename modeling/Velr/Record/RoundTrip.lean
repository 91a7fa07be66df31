import Mathlib.Data.List.Induction
import Mathlib.Tactic.IntervalCases
import Mathlib.Tactic.Ring
import Velr.Record.Codec

/-!
# Encoded records read back

Iterating `record_values` over an encoded record delivers its values (`collect_encodeRecord`). The
payload of an integer is the low bytes of its two's complement, and the serial type keeps enough of
them (`decodeInteger_toBeBytes`).
-/

namespace Velr.Record

open ByteString Utf8

/-! ## The header -/

/-- What the loop over `header_size` ends with counts its own varint. -/
theorem headerSize_eq (serialBytes header : Nat) (h : header ≤ serialBytes + varintLen header) :
    headerSize serialBytes header h =
      serialBytes + varintLen (headerSize serialBytes header h) := by
  unfold headerSize
  simp only
  split
  · next hn => exact hn.symm
  · exact headerSize_eq serialBytes _ _
termination_by serialBytes + 9 - header
decreasing_by
  have := varintLen_le header
  omega

/-- Both ways of `encode_record` use the serial types of the values. -/
theorem encodeRecord_eq (values : List Value) :
    encodeRecord values = encodeRecordWithTypes values (values.map serialType) := by
  unfold encodeRecord
  simp only
  split
  · rw [List.take_append_of_le_length (by simp), List.take_of_length_le (by simp)]
  · rfl

/-- The header length of a record. -/
def headerLength (values : List Value) : Nat :=
  headerSize ((values.map serialType).map varintLen).sum
    (((values.map serialType).map varintLen).sum + 1) (Nat.add_le_add_left (varintLen_pos _) _)

/-- The serial types of a record. -/
def header (values : List Value) : Bytes := ((values.map serialType).map varint).flatten

/-- The payloads of a record. -/
def body (values : List Value) : Bytes :=
  (values.map fun value => payload value (serialType value)).flatten

/-- A record: the length of its header, the header and the body. -/
theorem encodeRecord_layout (values : List Value) :
    encodeRecord values = varint (headerLength values) ++ header values ++ body values := by
  rw [encodeRecord_eq]
  have hzip : (values.zip (values.map serialType)).map (fun entry => payload entry.1 entry.2) =
      values.map fun value => payload value (serialType value) := by
    rw [List.zip_map_right, List.map_map]
    simp only [List.zip_eq_zipWith]
    induction values with
    | nil => rfl
    | cons value values ih => simp
  simp only [encodeRecordWithTypes, hzip, headerLength, header, body]

/-- The header has a varint for each value. -/
theorem length_header (values : List Value) :
    (header values).length = ((values.map serialType).map varintLen).sum := by
  simp [header, List.length_flatten, Function.comp_def]

/-- The header-length varint is the size of the header, itself included. -/
theorem headerLength_eq (values : List Value) :
    headerLength values = (varint (headerLength values) ++ header values).length := by
  rw [List.length_append, length_varint, length_header, Nat.add_comm]
  exact headerSize_eq _ _ _

/-! ## Reading a varint -/

/-- Where `read_varint` leaves its offset: behind the number, or at the end of the bytes. -/
theorem readVarintMutLoop_eq {bytes : Bytes} : ∀ {n value offset : Nat}, 0 < n →
    readVarintMutLoop bytes n value offset =
      some (match readVarintLoop bytes n value offset with
        | some (result, next) => (.ok result, next)
        | none => (.error "truncated record varint", max offset bytes.length))
  | 0, _, _, h => absurd h (Nat.lt_irrefl 0)
  | n + 1, value, offset, _ => by
      unfold readVarintMutLoop readVarintLoop
      cases hb : bytes[offset]? with
      | none =>
          have : bytes.length ≤ offset := List.getElem?_eq_none_iff.mp hb
          simp [Nat.max_eq_left this]
      | some byte =>
          have hlt : offset < bytes.length := (List.getElem?_eq_some_iff.mp hb).1
          by_cases hn : n = 0
          · simp [hn]
          · by_cases hsmall : byte.toNat < 128
            · simp [hn, hsmall]
            · simp only [if_neg hn, if_neg hsmall]
              rw [readVarintMutLoop_eq (Nat.pos_of_ne_zero hn)]
              have : max (offset + 1) bytes.length = max offset bytes.length := by omega
              simp only [this]

theorem readVarintMut_eq (bytes : Bytes) (offset : Nat) :
    readVarintMut bytes offset =
      some (match readVarint bytes offset with
        | some (result, next) => (.ok result, next)
        | none => (.error "truncated record varint", max offset bytes.length)) :=
  readVarintMutLoop_eq (by omega)

/-- A varint that was written is read back. -/
theorem readVarintMut_varint {bytes tail : Bytes} {offset value : Nat} (hv : value < 2 ^ 64)
    (h : bytes.drop offset = varint value ++ tail) :
    readVarintMut bytes offset = some (.ok value, offset + varintLen value) := by
  rw [readVarintMut_eq, readVarint_varint hv h]

/-! ## Integers -/

/-- The low bytes of a big-endian number. -/
theorem drop_toBE (k w v : Nat) : (toBE (k + w) v).drop k = toBE w v := by
  induction w generalizing v with
  | zero => exact List.drop_eq_nil_of_le (by simp)
  | succ w ih =>
      rw [← Nat.add_assoc, toBE, toBE, List.drop_append_of_le_length (by simp), ih]

/-- The first byte of a big-endian number. -/
theorem head_toBE (w v : Nat) : (toBE (w + 1) v)[0]? = some (UInt8.ofNat (v / 256 ^ w)) := by
  induction w generalizing v with
  | zero => simp [toBE]
  | succ w ih =>
      rw [toBE, List.getElem?_append_left (by simp), ih, Nat.div_div_eq_div_mul,
        Nat.pow_succ, Nat.mul_comm]

/-- The loop of `decode_integer` reads big-endian bytes behind what it has. -/
theorem foldl_toInt (bs : Bytes) (init : Int) :
    bs.foldl (fun (integer : Int) (byte : UInt8) => integer * 256 + byte.toNat) init =
      init * 256 ^ bs.length + ofBE bs := by
  induction bs using List.reverseRecOn with
  | nil => simp
  | append_singleton bs b ih =>
      rw [List.foldl_append, List.foldl_cons, List.foldl_nil, ih, ofBE_concat, List.length_append,
        List.length_singleton, Int.pow_succ]
      push_cast
      ring

/-- Sign extension: `w + 1` bytes spell every number of their range. -/
theorem decodeInteger_toBE (w : Nat) (value : Int64)
    (hlo : -(128 * 256 ^ w : Nat) ≤ value.toInt) (hhi : value.toInt < (128 * 256 ^ w : Nat))
    (hw : w < 8) :
    decodeInteger (toBE (w + 1) (value.toInt % 2 ^ 64).toNat) = some value := by
  let u := (value.toInt % 2 ^ 64).toNat
  have hspell : ∀ init : Int, (toBE (w + 1) u).foldl
      (fun (integer : Int) (byte : UInt8) => integer * 256 + byte.toNat) init =
        init * 256 ^ (w + 1) + (u % 256 ^ (w + 1) : Nat) := by
    intro init
    rw [foldl_toInt, length_toBE, ofBE_toBE]
  have hvalue : (if (UInt8.ofNat (u / 256 ^ w)).toNat ≥ 128 then (-1 : Int) else 0) *
      256 ^ (w + 1) + (u % 256 ^ (w + 1) : Nat) = value.toInt := by
    have hrange := value.le_toInt
    have hrange' := value.toInt_lt
    simp only [UInt8.toNat_ofNat', u]
    interval_cases w <;> split <;> omega
  rw [decodeInteger, head_toBE]
  simp only [Option.bind_eq_bind, Option.bind_some, u] at hspell hvalue ⊢
  rw [hspell, hvalue, Int64.ofInt_toInt]

/-- An integer's serial type keeps enough bytes, and says how many. -/
theorem integerType_spells (value : Int64) :
    let tag := (integerType value).1
    serialLength tag = .ok (payload (.integer value) tag).length ∧
      decodeValue tag (payload (.integer value) tag) = some (.ok (.integer value)) := by
  have hwide : ∀ w tag : Nat, w < 8 → integerWidth tag = w + 1 →
      payload (.integer value) tag = toBE (w + 1) (value.toInt % 2 ^ 64).toNat := by
    intro w tag hw htag
    have hdrop := drop_toBE (8 - (w + 1)) (w + 1) (value.toInt % 2 ^ 64).toNat
    rw [Nat.sub_add_cancel hw] at hdrop
    rw [payload, toBeBytes, htag, hdrop]
  have hnarrow : ∀ w tag : Nat, w < 8 → integerWidth tag = w + 1 → 1 ≤ tag → tag ≤ 6 →
      -(128 * 256 ^ w : Nat) ≤ value.toInt → value.toInt < (128 * 256 ^ w : Nat) →
      serialLength tag = .ok (w + 1) →
      serialLength tag = .ok (payload (.integer value) tag).length ∧
        decodeValue tag (payload (.integer value) tag) = some (.ok (.integer value)) := by
    intro w tag hw htag hlo hhi hfrom hto hlen
    rw [hwide w tag hw htag]
    refine ⟨by simpa using hlen, ?_⟩
    rw [decodeValue, if_neg (by omega), if_pos ⟨hlo, hhi⟩, decodeInteger_toBE w value hfrom hto hw]
    rfl
  have hrange := value.le_toInt
  have hrange' := value.toInt_lt
  simp only [integerType]
  split
  · next h0 =>
      have : value = 0 := Int64.toInt_inj.mp h0
      subst this
      exact ⟨rfl, rfl⟩
  · split
    · next h1 =>
        have : value = 1 := Int64.toInt_inj.mp h1
        subst this
        exact ⟨rfl, rfl⟩
    · split
      · exact hnarrow 0 1 (by omega) rfl (by omega) (by omega) (by omega) (by omega) rfl
      · split
        · exact hnarrow 1 2 (by omega) rfl (by omega) (by omega) (by omega) (by omega) rfl
        · split
          · exact hnarrow 2 3 (by omega) rfl (by omega) (by omega) (by omega) (by omega) rfl
          · split
            · exact hnarrow 3 4 (by omega) rfl (by omega) (by omega) (by omega) (by omega) rfl
            · split
              · exact hnarrow 5 5 (by omega) rfl (by omega) (by omega) (by omega) (by omega) rfl
              · exact hnarrow 7 6 (by omega) rfl (by omega) (by omega) (by omega) (by omega) rfl

/-! ## Values -/

/-- The payload of a value that fits its serial type is read back. -/
theorem serialType_spells (value : Value) (h : serialType value ≤ usizeMax) :
    serialLength (serialType value) = .ok (payload value (serialType value)).length ∧
      decodeValue (serialType value) (payload value (serialType value)) = some (.ok value) := by
  cases value with
  | null => exact ⟨rfl, rfl⟩
  | integer value => exact integerType_spells value
  | real bits =>
      refine ⟨by simp [serialType, payload, serialLength], ?_⟩
      simp only [serialType, payload, decodeValue, fromBeBytes, length_toBE]
      have : ofBE (toBE 8 bits.toNat) = bits.toNat := ofBE_toBE_of_lt bits.toNat_lt
      simp [this]
  | text value =>
      have htag : serialType (.text value) = 12 + 2 * (asBytes value).length + 1 := by
        simp only [serialType]; omega
      rw [htag] at h ⊢
      simp only [payload, serialLength, decodeValue, fromUtf8_asBytes]
      constructor
      · repeat rw [if_neg (by omega)]
        congr 1
        omega
      · repeat rw [if_neg (by omega)]
  | blob value =>
      have htag : serialType (.blob value) = 12 + 2 * value.length := rfl
      rw [htag] at h ⊢
      simp only [payload, serialLength, decodeValue]
      constructor
      · repeat rw [if_neg (by omega)]
        congr 1
        omega
      · repeat rw [if_neg (by omega)]
        rw [if_pos (by omega)]

/-! ## Iteration -/

/-- The iterator over an encoded record with `values` still to come. -/
structure Encoded (it : RecordValues) (values : List Value) : Prop where
  header : (it.bytes.take it.headerEnd).drop it.header = Record.header values
  body : it.bytes.drop it.body = Record.body values
  start : it.header ≤ it.headerEnd
  apart : it.headerEnd ≤ it.body
  within : it.body ≤ it.bytes.length
  bound : it.bytes.length ≤ isizeMax

theorem header_cons (value : Value) (values : List Value) :
    header (value :: values) = varint (serialType value) ++ header values := by
  simp [header]

theorem body_cons (value : Value) (values : List Value) :
    body (value :: values) = payload value (serialType value) ++ body values := by
  simp [body]

/-- A value whose payload and serial type lie in a `Vec` has a serial type within `u64`. -/
theorem serialType_le {value : Value}
    (h : (varint (serialType value)).length + (payload value (serialType value)).length ≤
      isizeMax) :
    serialType value ≤ usizeMax := by
  rw [length_varint] at h
  cases value with
  | null => simp [serialType, usizeMax]
  | integer value =>
      simp only [serialType, integerType, usizeMax]
      split_ifs <;> omega
  | real bits => simp [serialType, usizeMax]
  | text value =>
      simp only [serialType, payload, usizeMax, isizeMax] at h ⊢
      rcases Nat.lt_or_ge (13 + 2 * (asBytes value).length) (2 ^ 64) with hlt | hge
      · omega
      · have : 8 < varintLen (13 + 2 * (asBytes value).length) :=
          lt_varintLen_of_le (by omega) (by omega)
        omega
  | blob value =>
      simp only [serialType, payload, usizeMax, isizeMax] at h ⊢
      rcases Nat.lt_or_ge (12 + 2 * value.length) (2 ^ 64) with hlt | hge
      · omega
      · have : 8 < varintLen (12 + 2 * value.length) := lt_varintLen_of_le (by omega) (by omega)
        omega

/-- One call of `next` delivers the first value that is left. -/
theorem Encoded.next {it : RecordValues} {value : Value} {values : List Value}
    (h : Encoded it (value :: values)) :
    ∃ it', it.next = some (some (.ok value), it') ∧ Encoded it' values := by
  obtain ⟨hheader, hbody, hstart, hapart, hwithin, hbound⟩ := h
  rw [header_cons] at hheader
  rw [body_cons] at hbody
  have hlen := congrArg List.length hheader
  have hlen' := congrArg List.length hbody
  simp only [List.length_drop, List.length_take, List.length_append, length_varint] at hlen hlen'
  have hpos := varintLen_pos (serialType value)
  have htag : serialType value ≤ usizeMax := serialType_le (by rw [length_varint]; omega)
  obtain ⟨hlength, hdecode⟩ := serialType_spells value htag
  have hread : readVarintMut (it.bytes.take it.headerEnd) it.header =
      some (.ok (serialType value), it.header + varintLen (serialType value)) :=
    readVarintMut_varint (by simp only [usizeMax] at htag; omega) hheader
  have hslice : slice it.bytes it.body (payload value (serialType value)).length =
      payload value (serialType value) := by
    rw [slice, hbody, List.take_left]
  refine ⟨{ it with
    header := it.header + varintLen (serialType value)
    body := it.body + (payload value (serialType value)).length }, ?_, ?_⟩
  · have hstop : ¬ usizeMax < it.body + (payload value (serialType value)).length := by
      simp only [isizeMax, usizeMax] at hbound ⊢
      omega
    rw [RecordValues.next, if_neg (by omega), if_neg (by omega), hread]
    simp only [Option.bind_eq_bind, Option.bind_some, RecordValues.value, hlength, if_neg hstop,
      if_neg (by omega : ¬ it.bytes.length < it.body + (payload value (serialType value)).length),
      hslice, hdecode]
  · refine ⟨?_, ?_, by simp only; omega, by simp only; omega, by simp only; omega, hbound⟩
    · simp only
      rw [← List.drop_drop, hheader, List.drop_left' (length_varint _)]
    · simp only
      rw [← List.drop_drop, hbody, List.drop_left]

/-- Calls of `next` deliver all that is left, then the end. -/
theorem Encoded.collect {values : List Value} : ∀ {it : RecordValues} {n : Nat}, Encoded it values →
    values.length < n → it.collect n = some (values.map .ok) := by
  induction values with
  | nil =>
      intro it n h hn
      obtain ⟨n, rfl⟩ := Nat.exists_eq_add_of_lt hn
      have hend : it.header = it.headerEnd := by
        have hlen := congrArg List.length h.header
        simp only [Record.header, List.length_drop, List.length_take, List.map_nil,
          List.flatten_nil, List.length_nil] at hlen
        have := h.start
        have := h.apart
        have := h.within
        omega
      simp [RecordValues.collect, RecordValues.next, hend]
  | cons value values ih =>
      intro it n h hn
      obtain ⟨n, rfl⟩ := Nat.exists_eq_add_of_lt hn
      obtain ⟨it', hnext, henc⟩ := h.next
      simp only [RecordValues.collect, hnext, Option.bind_eq_bind, Option.bind_some]
      rw [ih henc (by simp only [List.length_cons]; omega)]
      rfl

/-- A record that fits a `Vec` is read from its start. -/
theorem recordValues_encodeRecord {values : List Value}
    (h : (encodeRecord values).length ≤ isizeMax) :
    ∃ it, recordValues (encodeRecord values) = some (.ok it) ∧ Encoded it values := by
  have hlayout := encodeRecord_layout values
  have hheader := headerLength_eq values
  have hlen := congrArg List.length hlayout
  simp only [List.length_append, length_varint] at hheader hlen
  have hdrop : (encodeRecord values).drop 0 =
      varint (headerLength values) ++ (header values ++ body values) := by
    rw [List.drop_zero, hlayout, List.append_assoc]
  have hread := readVarintMut_varint (by simp only [isizeMax] at h; omega) hdrop
  refine ⟨⟨encodeRecord values, 0 + varintLen (headerLength values), headerLength values,
    headerLength values⟩, ?_, ?_⟩
  · rw [recordValues, hread]
    simp only [Option.bind_eq_bind, Option.bind_some]
    rw [if_neg (by simp only [isizeMax, usizeMax] at h ⊢; omega), if_neg (by omega)]
  · refine ⟨?_, ?_, by simp only; omega, by simp only; omega, by simp only; omega, h⟩
    · simp only
      rw [hlayout, List.take_left' (by simp only [List.length_append, length_varint]; omega),
        List.drop_left' (by simp)]
    · simp only
      rw [hlayout, List.drop_left' (by simp only [List.length_append, length_varint]; omega)]

/-- Iterating `record_values` over `encode_record` returns the values. -/
theorem collect_encodeRecord {values : List Value} (h : (encodeRecord values).length ≤ isizeMax) :
    ∃ it, recordValues (encodeRecord values) = some (.ok it) ∧
      ∀ n, values.length < n → it.collect n = some (values.map .ok) := by
  obtain ⟨it, hit, henc⟩ := recordValues_encodeRecord h
  exact ⟨it, hit, fun n hn => henc.collect hn⟩

/-! ## Arbitrary bytes -/

/-- What every iterator over a record keeps: it has read within the header and points its slices
into the record. -/
structure RecordValues.Within (it : RecordValues) (bytes : Bytes) : Prop where
  bytes_eq : it.bytes = bytes
  header : it.header ≤ it.headerEnd
  headerEnd : it.headerEnd ≤ bytes.length
  body : it.body ≤ bytes.length

/-- A blob or text is a slice of the record. -/
def Value.Lies (bytes : Bytes) : Value → Prop
  | .blob value => ∃ start, start + value.length ≤ bytes.length ∧
      slice bytes start value.length = value
  | .text value => ∃ start, start + (asBytes value).length ≤ bytes.length ∧
      slice bytes start (asBytes value).length = asBytes value
  | _ => True

/-- Reading a varint never panics, advances, and stays within the bytes. -/
theorem readVarintMut_within (bytes : Bytes) (offset : Nat) (h : offset < bytes.length) :
    ∃ result next, readVarintMut bytes offset = some (result, next) ∧
      offset < next ∧ next ≤ bytes.length := by
  rw [readVarintMut_eq]
  cases hread : readVarint bytes offset with
  | none => exact ⟨_, _, rfl, by omega, by omega⟩
  | some read =>
      obtain ⟨result, next⟩ := read
      exact ⟨_, _, rfl, readVarint_bounds hread⟩

/-- Bytes make an integer, if there is one. -/
theorem decodeInteger_isSome (value : Bytes) (h : 0 < value.length) :
    ∃ integer, decodeInteger value = some integer := by
  rw [decodeInteger, List.getElem?_eq_getElem h]
  exact ⟨_, rfl⟩

/-- The width of a numeric serial type. -/
theorem serialLength_number {tag length : Nat} (hlength : serialLength tag = .ok length) :
    (1 ≤ tag ∧ tag ≤ 6 → 0 < length) ∧ (tag = 7 → length = 8) := by
  unfold serialLength at hlength
  split_ifs at hlength <;> cases hlength <;> omega

/-- Bytes of the length a serial type asks for decode to a value or an error. -/
theorem decodeValue_isSome {tag : Nat} {bytes : Bytes} {start length : Nat}
    (hlength : serialLength tag = .ok length) (hin : start + length ≤ bytes.length) :
    ∃ result, decodeValue tag (slice bytes start length) = some result ∧
      ∀ value, result = .ok value → value.Lies bytes := by
  have hslice := length_slice hin
  obtain ⟨hinteger, hreal⟩ := serialLength_number hlength
  unfold decodeValue
  split
  · exact ⟨_, rfl, fun value h => by cases h; trivial⟩
  · split
    · next hnumber =>
        obtain ⟨integer, hdecode⟩ := decodeInteger_isSome (slice bytes start length)
          (by have := hinteger hnumber; omega)
        exact ⟨_, by rw [hdecode]; rfl, fun value h => by cases h; trivial⟩
    · split
      · next h7 =>
          rw [fromBeBytes, if_pos (by rw [hslice, hreal h7])]
          exact ⟨_, rfl, fun value h => by cases h; trivial⟩
      · split
        · exact ⟨_, rfl, fun value h => by cases h; trivial⟩
        · split
          · exact ⟨_, rfl, fun value h => by cases h; trivial⟩
          · split
            · refine ⟨_, rfl, fun value h => ?_⟩
              cases h
              exact ⟨start, by rw [hslice]; exact hin, by rw [hslice]⟩
            · split
              · exact ⟨_, rfl, fun value h => by cases h⟩
              · next text htext =>
                  refine ⟨_, rfl, fun value h => ?_⟩
                  cases h
                  have hbytes := fromUtf8_some htext
                  exact ⟨start, by rw [hbytes, hslice]; exact hin, by rw [hbytes, hslice]⟩

/-- `next` on any record: it ends at the end of the header, and otherwise reads on without
panicking; what it lends lies within the record. -/
theorem RecordValues.Within.next {it : RecordValues} {bytes : Bytes} (h : it.Within bytes) :
    (it.header = it.headerEnd ∧ it.next = some (none, it)) ∨
    (it.header < it.headerEnd ∧ ∃ item it', it.next = some (some item, it') ∧ it'.Within bytes ∧
      it.header < it'.header ∧ it'.headerEnd = it.headerEnd ∧
      ∀ value, item = .ok value → value.Lies bytes) := by
  obtain ⟨hbytes, hheader, hend, hbody⟩ := h
  rcases Nat.eq_or_lt_of_le hheader with heq | hlt
  · exact .inl ⟨heq, by rw [RecordValues.next, if_pos heq]⟩
  · obtain ⟨tag, header, hread, hadvance, hinside⟩ :=
      readVarintMut_within (it.bytes.take it.headerEnd) it.header
        (by rw [List.length_take, hbytes]; omega)
    rw [List.length_take] at hinside
    refine .inr ⟨hlt, ?_⟩
    rw [RecordValues.next, if_neg (by omega), if_neg (by rw [hbytes]; omega), hread]
    simp only [Option.bind_eq_bind, Option.bind_some]
    have hkept : RecordValues.Within { it with header } bytes :=
      ⟨hbytes, by simp only; omega, hend, hbody⟩
    cases tag with
    | error e => exact ⟨_, _, rfl, hkept, hadvance, rfl, fun value h => by cases h⟩
    | ok tag =>
        simp only [RecordValues.value]
        split
        · exact ⟨_, _, rfl, hkept, hadvance, rfl, fun value h => by cases h⟩
        · next length hlength =>
            split
            · exact ⟨_, _, rfl, hkept, hadvance, rfl, fun value h => by cases h⟩
            · split
              · exact ⟨_, _, rfl, hkept, hadvance, rfl, fun value h => by cases h⟩
              · next hshort =>
                  rw [hbytes] at hshort ⊢
                  obtain ⟨result, hdecode, hlies⟩ :=
                    decodeValue_isSome hlength (Nat.le_of_not_lt hshort)
                  rw [hdecode]
                  exact ⟨_, _, rfl, ⟨rfl, hkept.header, hend, Nat.le_of_not_lt hshort⟩, hadvance,
                    rfl, hlies⟩

/-- Iteration over any record ends after at most one call for each byte of its header, with values
and errors. -/
theorem RecordValues.Within.collect {bytes : Bytes} : ∀ {n : Nat} {it : RecordValues},
    it.Within bytes → it.headerEnd - it.header < n →
    ∃ items, it.collect n = some items ∧ ∀ value, .ok value ∈ items → value.Lies bytes
  | 0, _, _, hn => absurd hn (Nat.not_lt_zero _)
  | n + 1, it, h, hn => by
      cases h.next with
      | inl hdone =>
          refine ⟨[], ?_, fun value h => by cases h⟩
          simp [RecordValues.collect, hdone.2]
      | inr hitem =>
          obtain ⟨hlt, item, it', hnext, hwithin, hadvance, hsame, hlies⟩ := hitem
          obtain ⟨items, hcollect, hall⟩ :=
            RecordValues.Within.collect (n := n) hwithin (by have := hwithin.header; omega)
          refine ⟨item :: items, ?_, fun value h => ?_⟩
          · simp [RecordValues.collect, hnext, hcollect]
          · cases List.mem_cons.mp h with
            | inl heq => exact hlies value heq.symm
            | inr hmem => exact hall value hmem

/-- `record_values` on any bytes: an error, or an iterator within them. -/
theorem recordValues_within (bytes : Bytes) :
    (∃ e, recordValues bytes = some (.error e)) ∨
    ∃ it, recordValues bytes = some (.ok it) ∧ it.Within bytes := by
  unfold recordValues
  rw [readVarintMut_eq]
  simp only [Option.bind_eq_bind, Option.bind_some]
  cases hread : readVarint bytes 0 with
  | none => exact .inl ⟨_, rfl⟩
  | some read =>
      obtain ⟨headerEnd, offset⟩ := read
      simp only
      split
      · exact .inl ⟨_, rfl⟩
      · split
        · exact .inl ⟨_, rfl⟩
        · next hvalid => exact .inr ⟨_, rfl, rfl, by simp only; omega, by simp only; omega,
            by simp only; omega⟩

/-! ## The codec -/

/-- The SQLite record codec: encoded values read back; the header length counts the whole header;
`read_varint` undoes `varint`; and arbitrary bytes are iterated to an end without a panic, lending
only bytes of the record. -/
theorem record_codec :
    (∀ values, (encodeRecord values).length ≤ isizeMax →
      ∃ it, recordValues (encodeRecord values) = some (.ok it) ∧
        ∀ n, values.length < n → it.collect n = some (values.map .ok)) ∧
    (∀ values, ∃ header body, encodeRecord values = varint (headerLength values) ++ header ++ body ∧
      header = ((values.map serialType).map varint).flatten ∧
      headerLength values = (varint (headerLength values) ++ header).length) ∧
    (∀ value, value < 2 ^ 64 → ∀ before after : Bytes,
      readVarintMut (before ++ varint value ++ after) before.length =
        some (.ok value, before.length + (varint value).length) ∧
      (varint value).length = varintLen value) ∧
    (∀ bytes, (∃ e, recordValues bytes = some (.error e)) ∨
      ∃ it, recordValues bytes = some (.ok it) ∧ it.Within bytes ∧
        ∀ n, bytes.length < n → ∃ items, it.collect n = some items ∧
          ∀ value, .ok value ∈ items → value.Lies bytes) := by
  refine ⟨fun values h => collect_encodeRecord h, fun values => ?_, fun value h before after => ?_,
    fun bytes => ?_⟩
  · exact ⟨header values, body values, encodeRecord_layout values, rfl, headerLength_eq values⟩
  · refine ⟨?_, length_varint value⟩
    rw [length_varint]
    exact readVarintMut_varint h (by rw [List.append_assoc, List.drop_left])
  · cases recordValues_within bytes with
    | inl herror => exact .inl herror
    | inr hok =>
        obtain ⟨it, hit, hwithin⟩ := hok
        refine .inr ⟨it, hit, hwithin, fun n hn => hwithin.collect ?_⟩
        have := hwithin.headerEnd
        omega

/-- Nine columns around the width boundaries, and a varint of nine bytes. -/
theorem record_codec_small :
    (∃ it, recordValues (encodeRecord [.null, .integer (-129), .real 0x7ff8000000000001, .text "é",
        .blob [255, 0], .integer 1, .integer 140737488355328, .integer (-9223372036854775808),
        .null]) = some (.ok it) ∧
      it.collect 10 = some ([.null, .integer (-129), .real 0x7ff8000000000001, .text "é",
        .blob [255, 0], .integer 1, .integer 140737488355328, .integer (-9223372036854775808),
        .null].map .ok)) ∧
    readVarintMut ([7] ++ varint (2 ^ 56) ++ [9]) 1 = some (.ok (2 ^ 56), 10) := by
  constructor
  · obtain ⟨it, hit, hcollect⟩ := record_codec.1 [.null, .integer (-129), .real 0x7ff8000000000001,
      .text "é", .blob [255, 0], .integer 1, .integer 140737488355328,
      .integer (-9223372036854775808), .null] (by decide +kernel)
    exact ⟨it, hit, hcollect 10 (by decide)⟩
  · exact (record_codec.2.2.1 (2 ^ 56) (by decide) [7] [9]).1

end Velr.Record
