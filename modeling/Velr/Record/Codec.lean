import Velr.Common.Utf8
import Velr.PageWriter.Varint

/-!
# SQLite records

`record_values`, its iterator and `encode_record` of `page_writer.rs`. A record is a header (its own
length, then one serial type for each value) and the values' payloads behind it. A lookup that would
panic in the source is `none` here; the errors keep their texts.
-/

namespace Velr.Record

open ByteString Utf8

/-- `StorageValueRef`; a real is its bits. -/
inductive Value where
  | null
  | integer (value : Int64)
  | real (bits : UInt64)
  | text (value : String)
  | blob (value : Bytes)
deriving DecidableEq

/-- The greatest `usize` and `u64`. -/
def usizeMax : Nat := 2 ^ 64 - 1

/-- The bound the language puts on the length of a `Vec<u8>`. -/
def isizeMax : Nat := 2 ^ 63 - 1

/-! ## Encoding -/

/-- `integer_type` -/
def integerType (value : Int64) : Nat × Nat :=
  let value := value.toInt
  if value = 0 then (8, 0)
  else if value = 1 then (9, 0)
  else if -128 ≤ value ∧ value ≤ 127 then (1, 1)
  else if -32768 ≤ value ∧ value ≤ 32767 then (2, 2)
  else if -8388608 ≤ value ∧ value ≤ 8388607 then (3, 3)
  else if -2147483648 ≤ value ∧ value ≤ 2147483647 then (4, 4)
  else if -140737488355328 ≤ value ∧ value ≤ 140737488355327 then (5, 6)
  else (6, 8)

/-- `serial_type` -/
def serialType : Value → Nat
  | .null => 0
  | .integer value => (integerType value).1
  | .real _ => 7
  | .text value => 13 + 2 * (asBytes value).length
  | .blob value => 12 + 2 * value.length

/-- `value.to_be_bytes()` of an `i64` -/
def toBeBytes (value : Int64) : Bytes := toBE 8 (value.toInt % 2 ^ 64).toNat

/-- The width `encode_record_with_types` takes from an integer's serial type. -/
def integerWidth : Nat → Nat
  | 1 => 1
  | 2 => 2
  | 3 => 3
  | 4 => 4
  | 5 => 6
  | 6 => 8
  | _ => 0

/-- What `encode_record_with_types` appends for one value and its serial type. -/
def payload : Value → Nat → Bytes
  | .null, _ => []
  | .integer value, tag => (toBeBytes value).drop (8 - integerWidth tag)
  | .real bits, _ => toBE 8 bits.toNat
  | .text value, _ => asBytes value
  | .blob value, _ => value

/-- The loop over `header_size`. A round never shrinks the size, and the size stays within nine
bytes of `serial_bytes`: this is what ends it. -/
def headerSize (serialBytes header : Nat) (h : header ≤ serialBytes + varintLen header) : Nat :=
  let next := serialBytes + varintLen header
  if _hn : next = header then header
  else headerSize serialBytes next (by
    have hmono : varintLen header ≤ varintLen next := varintLen_mono h
    omega)
termination_by serialBytes + 9 - header
decreasing_by
  have := varintLen_le header
  omega

/-- `encode_record_with_types` -/
def encodeRecordWithTypes (values : List Value) (types : List Nat) : Bytes :=
  let serialBytes := (types.map varintLen).sum
  let header := headerSize serialBytes (serialBytes + 1)
    (Nat.add_le_add_left (varintLen_pos _) _)
  varint header ++ (types.map varint).flatten ++
    ((values.zip types).map fun (value, tag) => payload value tag).flatten

/-- `encode_record`: up to eight serial types are kept in an array. -/
def encodeRecord (values : List Value) : Bytes :=
  let types := List.replicate 8 0
  if values.length ≤ types.length then
    let types := values.map serialType ++ types.drop values.length
    encodeRecordWithTypes values (types.take values.length)
  else encodeRecordWithTypes values (values.map serialType)

/-! ## Decoding -/

/-- The loop of `read_varint` with `n` of its nine rounds left, and where it leaves `offset`, also
when it fails. -/
def readVarintMutLoop (bytes : Bytes) : Nat → Nat → Nat → Option (Except String Nat × Nat)
  -- `unreachable!()`
  | 0, _, _ => none
  | n + 1, value, offset =>
      match bytes[offset]? with
      | none => some (.error "truncated record varint", offset)
      | some byte =>
          if n = 0 then some (.ok (value * 256 + byte.toNat), offset + 1)
          else if byte.toNat < 128 then some (.ok (value * 128 + byte.toNat % 128), offset + 1)
          else readVarintMutLoop bytes n (value * 128 + byte.toNat % 128) (offset + 1)

/-- `read_varint` with its `&mut offset`. -/
def readVarintMut (bytes : Bytes) (offset : Nat) : Option (Except String Nat × Nat) :=
  readVarintMutLoop bytes 9 0 offset

/-- `RecordValues` -/
structure RecordValues where
  bytes : Bytes
  header : Nat
  headerEnd : Nat
  body : Nat
deriving DecidableEq

/-- `record_values` -/
def recordValues (bytes : Bytes) : Option (Except String RecordValues) := do
  let (headerEnd, offset) ← readVarintMut bytes 0
  match headerEnd with
  | .error e => some (.error e)
  | .ok headerEnd =>
      if usizeMax < headerEnd then some (.error "record header overflow")
      else if headerEnd < offset ∨ bytes.length < headerEnd then
        some (.error "invalid record header")
      else some (.ok { bytes, header := offset, headerEnd, body := headerEnd })

/-- The length a serial type gives its value. -/
def serialLength (tag : Nat) : Except String Nat :=
  if tag = 0 ∨ tag = 8 ∨ tag = 9 then .ok 0
  else if 1 ≤ tag ∧ tag ≤ 4 then .ok tag
  else if tag = 5 then .ok 6
  else if tag = 6 ∨ tag = 7 then .ok 8
  else if tag = 10 ∨ tag = 11 then .error "reserved record serial type"
  else if usizeMax < (tag - 12) / 2 then .error "record size overflow"
  else .ok ((tag - 12) / 2)

/-- The two's complement number `value` spells; `value[0]` panics when there is no byte. -/
def decodeInteger (value : Bytes) : Option Int64 := do
  let first ← value[0]?
  let integer : Int := if first.toNat ≥ 128 then -1 else 0
  some (Int64.ofInt (value.foldl (fun integer byte => integer * 256 + byte.toNat) integer))

/-- `u64::from_be_bytes(value.try_into().unwrap())` -/
def fromBeBytes (value : Bytes) : Option UInt64 :=
  if value.length = 8 then some (UInt64.ofNat (ofBE value)) else none

/-- The value of a serial type and its bytes. -/
def decodeValue (tag : Nat) (value : Bytes) : Option (Except String Value) :=
  if tag = 0 then some (.ok .null)
  else if 1 ≤ tag ∧ tag ≤ 6 then (decodeInteger value).map fun integer => .ok (.integer integer)
  else if tag = 7 then (fromBeBytes value).map fun bits => .ok (.real bits)
  else if tag = 8 then some (.ok (.integer 0))
  else if tag = 9 then some (.ok (.integer 1))
  else if tag % 2 = 0 then some (.ok (.blob value))
  else
    match fromUtf8 value with
    | none => some (.error "record text is not UTF-8")
    | some text => some (.ok (.text text))

/-- The body of `RecordValues::next` behind its serial type. -/
def RecordValues.value (values : RecordValues) (tag : Nat) :
    Option (Except String Value × RecordValues) :=
  match serialLength tag with
  | .error e => some (.error e, values)
  | .ok length =>
      let stop := values.body + length
      if usizeMax < stop then some (.error "record body overflow", values)
      else if values.bytes.length < stop then some (.error "truncated record value", values)
      else do
        let value ← decodeValue tag (slice values.bytes values.body length)
        some (value, { values with body := stop })

/-- `RecordValues::next`. The slice `self.bytes[..self.header_end]` panics when it ends behind the
record. -/
def RecordValues.next (values : RecordValues) :
    Option (Option (Except String Value) × RecordValues) :=
  if values.header = values.headerEnd then some (none, values)
  else if values.bytes.length < values.headerEnd then none
  else do
    let (tag, header) ← readVarintMut (values.bytes.take values.headerEnd) values.header
    let values := { values with header }
    match tag with
    | .error e => some (some (.error e), values)
    | .ok tag =>
        let (value, values) ← values.value tag
        some (some value, values)

/-- The items `n` calls of `next` deliver; `none` when one panics or the iterator is not at its
end. -/
def RecordValues.collect : Nat → RecordValues → Option (List (Except String Value))
  | 0, _ => none
  | n + 1, values => do
      match ← values.next with
      | (none, _) => some []
      | (some item, values) => do
          let items ← RecordValues.collect n values
          some (item :: items)

end Velr.Record
