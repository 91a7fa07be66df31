import Velr.Record.RoundTrip

/-!
# The encoders of fixed rows

`encode_node_record`, `encode_edge_record` and `encode_property_record` of `page_writer.rs` and
`encode_integer_record` and `encode_tuple_record` of `index_builder.rs`. They write the header of
their rows without the general machinery, the last two with a width table of their own; each writes
what `encode_record` writes for the row's values (`specialised_encoders`).
-/

namespace Velr.Record

open ByteString Utf8

/-! ## The graph rows -/

/-- `encode_node_record` -/
def encodeNodeRecord (labelGroup : Int64) : Bytes :=
  let (tag, width) := integerType labelGroup
  [3, 0, UInt8.ofNat tag] ++ (toBeBytes labelGroup).drop (8 - width)

/-- `encode_edge_record` -/
def encodeEdgeRecord (source target kind : Int64) : Bytes :=
  let (sourceTag, sourceWidth) := integerType source
  let (targetTag, targetWidth) := integerType target
  let (kindTag, kindWidth) := integerType kind
  [5, 0, UInt8.ofNat sourceTag, UInt8.ofNat targetTag, UInt8.ofNat kindTag] ++
    (toBeBytes source).drop (8 - sourceWidth) ++ (toBeBytes target).drop (8 - targetWidth) ++
    (toBeBytes kind).drop (8 - kindWidth)

/-- `encode_property_record` -/
def encodePropertyRecord (owner key : Int64) (value : Value) : Bytes :=
  let (ownerTag, ownerWidth) := integerType owner
  let (keyTag, keyWidth) := integerType key
  let valueTag := serialType value
  let headerSize := 3 + varintLen valueTag
  [UInt8.ofNat headerSize, UInt8.ofNat ownerTag, UInt8.ofNat keyTag] ++ varint valueTag ++
    (toBeBytes owner).drop (8 - ownerWidth) ++ (toBeBytes key).drop (8 - keyWidth) ++
    payload value valueTag

/-! ## The index rows -/

/-- The width table of `encode_integer_record`. -/
def integerRecordType (value : Int64) : UInt8 × Nat :=
  let value := value.toInt
  if value = 0 then (8, 0)
  else if value = 1 then (9, 0)
  else if -128 ≤ value ∧ value ≤ 127 then (1, 1)
  else if -32768 ≤ value ∧ value ≤ 32767 then (2, 2)
  else if -8388608 ≤ value ∧ value ≤ 8388607 then (3, 3)
  else if -2147483648 ≤ value ∧ value ≤ 2147483647 then (4, 4)
  else if -140737488355328 ≤ value ∧ value ≤ 140737488355327 then (5, 6)
  else (6, 8)

/-- The last loop of `encode_integer_record`: each value's low bytes at the next offset. -/
def fillPayloads (record : Bytes) (offset : Nat) : List Int64 → Bytes
  | [] => record
  | value :: values =>
      let width := (integerRecordType value).2
      fillPayloads (overwrite record offset ((toBeBytes value).drop (8 - width))) (offset + width)
        values

/-- `encode_integer_record`; `none` is its failed assertion. -/
def encodeIntegerRecord (values : List Int64) : Option Bytes :=
  if values.length ≤ 8 then
    let tags := values.map fun value => (integerRecordType value).1
    let widths := values.map fun value => (integerRecordType value).2
    let record := List.replicate (values.length + 1 + widths.sum) 0
    let record := overwrite record 0 [UInt8.ofNat (values.length + 1)]
    let record := overwrite record 1 tags
    some (fillPayloads record (values.length + 1) values)
  else none

/-- The loop of `encode_tuple_record` over `values`, an array of eight; `none` is an index out of
range. -/
def selectFields (tuple : Vector Int64 4) :
    List Nat → Nat → Vector Int64 8 → Option (Vector Int64 8)
  | [], _, values => some values
  | field :: fields, column, values => do
      let value ← tuple[field]?
      if h : column < 8 then selectFields tuple fields (column + 1) (values.set column value h)
      else none

/-- `encode_tuple_record`; `none` is an index out of range. -/
def encodeTupleRecord (tuple : Vector Int64 4) (fields : List Nat) : Option Bytes :=
  match fields with
  | [a, b, c] => do
      encodeIntegerRecord [← tuple[a]?, ← tuple[b]?, ← tuple[c]?]
  | [a, b, c, d] => do
      encodeIntegerRecord [← tuple[a]?, ← tuple[b]?, ← tuple[c]?, ← tuple[d]?]
  | [a, b, c, d, e] => do
      encodeIntegerRecord [← tuple[a]?, ← tuple[b]?, ← tuple[c]?, ← tuple[d]?, ← tuple[e]?]
  | _ => do
      let values ← selectFields tuple fields 0 (Vector.replicate 8 0)
      if fields.length ≤ 8 then encodeIntegerRecord (values.toList.take fields.length) else none

/-! ## Short headers -/

theorem varint_of_lt {value : Nat} (h : value < 128) : varint value = [UInt8.ofNat value] := by
  have hlen : varintLen value = 1 :=
    Nat.le_antisymm (varintLen_le_of_lt (by omega) (by omega) (by omega)) (varintLen_pos value)
  rw [varint_eq, hlen, if_neg (by omega), Nat.mod_eq_of_lt h]
  rfl

/-- A header of less than 118 bytes counts itself in one byte. -/
theorem encodeRecord_short {values : List Value} (h : (header values).length < 118) :
    encodeRecord values =
      UInt8.ofNat ((header values).length + 1) :: (header values ++ body values) := by
  have heq := headerLength_eq values
  have hle := varintLen_le (headerLength values)
  rw [List.length_append, length_varint] at heq
  have hone : varintLen (headerLength values) = 1 :=
    Nat.le_antisymm (varintLen_le_of_lt (by omega) (by omega) (by omega)) (varintLen_pos _)
  rw [encodeRecord_layout, varint_of_lt (by omega), heq, hone, Nat.add_comm]
  rfl

/-- The type of an integer is a byte below 10. -/
theorem integerType_lt (value : Int64) : (integerType value).1 < 10 := by
  simp only [integerType]
  split_ifs <;> omega

/-- The width an integer's serial type stands for is the one `integer_type` gives beside it. -/
theorem integerWidth_integerType (value : Int64) :
    integerWidth (integerType value).1 = (integerType value).2 := by
  simp only [integerType]
  split_ifs <;> rfl

/-- The payload of an integer is the low bytes of its type. -/
theorem payload_integer (value : Int64) :
    payload (.integer value) (serialType (.integer value)) =
      (toBeBytes value).drop (8 - (integerType value).2) := by
  rw [payload, serialType, integerWidth_integerType]

theorem varint_integer (value : Int64) :
    varint (serialType (.integer value)) = [UInt8.ofNat (integerType value).1] :=
  varint_of_lt (Nat.lt_of_lt_of_le (integerType_lt value) (by omega))

/-- An integer takes one byte of the header. -/
theorem header_integer_cons (value : Int64) (values : List Value) :
    header (.integer value :: values) = UInt8.ofNat (integerType value).1 :: header values := by
  rw [header_cons, varint_integer]
  rfl

/-- It takes the low bytes of its type in the body. -/
theorem body_integer_cons (value : Int64) (values : List Value) :
    body (.integer value :: values) =
      (toBeBytes value).drop (8 - (integerType value).2) ++ body values := by
  rw [body_cons, payload_integer]

/-! ## The graph rows agree -/

@[simp] theorem header_nil : header [] = [] := rfl

@[simp] theorem body_nil : body [] = [] := rfl

theorem header_null_cons (values : List Value) : header (.null :: values) = 0 :: header values := by
  rw [header_cons]
  rfl

theorem body_null_cons (values : List Value) : body (.null :: values) = body values := by
  rw [body_cons]
  rfl

/-- `encode_node_record` is the general encoder on its values. -/
theorem encodeNodeRecord_eq (labelGroup : Int64) :
    encodeNodeRecord labelGroup = encodeRecord [.null, .integer labelGroup] := by
  have hheader : header [.null, .integer labelGroup]
      = [0, UInt8.ofNat (integerType labelGroup).1] := by
    rw [header_null_cons, header_integer_cons, header_nil]
  rw [encodeRecord_short (by rw [hheader]; simp), hheader, body_null_cons, body_integer_cons,
    body_nil, List.append_nil]
  rfl

/-- So is `encode_edge_record`. -/
theorem encodeEdgeRecord_eq (source target kind : Int64) :
    encodeEdgeRecord source target kind
      = encodeRecord [.null, .integer source, .integer target, .integer kind] := by
  have hheader : header [.null, .integer source, .integer target, .integer kind]
      = [0, UInt8.ofNat (integerType source).1, UInt8.ofNat (integerType target).1,
          UInt8.ofNat (integerType kind).1] := by
    simp only [header_null_cons, header_integer_cons, header_nil]
  rw [encodeRecord_short (by rw [hheader]; simp), hheader]
  simp only [body_null_cons, body_integer_cons, body_nil, encodeEdgeRecord, List.append_assoc,
    List.append_nil]
  rfl

/-- So is `encode_property_record`. -/
theorem encodePropertyRecord_eq (owner key : Int64) (value : Value) :
    encodePropertyRecord owner key value
      = encodeRecord [.integer owner, .integer key, value] := by
  have hheader : header [.integer owner, .integer key, value]
      = UInt8.ofNat (integerType owner).1 :: UInt8.ofNat (integerType key).1
          :: varint (serialType value) := by
    rw [header_integer_cons, header_integer_cons, header_cons, header_nil, List.append_nil]
  have hlen : (header [.integer owner, .integer key, value]).length
      = 2 + varintLen (serialType value) := by
    rw [hheader, List.length_cons, List.length_cons, length_varint]
    omega
  have hle := varintLen_le (serialType value)
  rw [encodeRecord_short (by omega), hlen, hheader]
  have hsize : 2 + varintLen (serialType value) + 1 = 3 + varintLen (serialType value) := by omega
  simp only [hsize, body_integer_cons, body_cons value, body_nil, encodePropertyRecord,
    List.append_assoc, List.append_nil, List.cons_append, List.nil_append]

/-! ## The index rows agree -/

/-- The second width table is the first. -/
theorem integerRecordType_eq (value : Int64) :
    integerRecordType value = (UInt8.ofNat (integerType value).1, (integerType value).2) := by
  simp only [integerRecordType, integerType]
  split_ifs <;> rfl

/-- The header of integers is their types. -/
theorem header_integers (values : List Int64) :
    header (values.map .integer) = values.map fun value => (integerRecordType value).1 := by
  induction values with
  | nil => rfl
  | cons value values ih =>
      rw [List.map_cons, header_integer_cons, ih, List.map_cons, integerRecordType_eq]

/-- The body of integers is their low bytes. -/
theorem body_integers (values : List Int64) :
    body (values.map .integer)
      = (values.map fun value =>
          (toBeBytes value).drop (8 - (integerRecordType value).2)).flatten := by
  induction values with
  | nil => rfl
  | cons value values ih =>
      rw [List.map_cons, body_integer_cons, ih, List.map_cons, List.flatten_cons,
        integerRecordType_eq]

theorem integerRecordType_le (value : Int64) : (integerRecordType value).2 ≤ 8 := by
  simp only [integerRecordType]
  split_ifs <;> omega

/-- The low bytes of an integer are as many as its type says. -/
theorem length_lowBytes (value : Int64) :
    ((toBeBytes value).drop (8 - (integerRecordType value).2)).length
      = (integerRecordType value).2 := by
  have := integerRecordType_le value
  rw [List.length_drop, toBeBytes, length_toBE]
  omega

/-- The loop appends the payloads to what is already in front of the offset. -/
theorem fillPayloads_eq : ∀ (values : List Int64) (front rest : Bytes),
    rest.length = (values.map fun value => (integerRecordType value).2).sum →
    fillPayloads (front ++ rest) front.length values = front ++ body (values.map .integer)
  | [], front, rest, h => by
      have : rest = [] := List.eq_nil_of_length_eq_zero (by simpa using h)
      subst this
      rfl
  | value :: values, front, rest, h => by
      rw [List.map_cons, List.sum_cons] at h
      let low := (toBeBytes value).drop (8 - (integerRecordType value).2)
      have hlow : low.length = (integerRecordType value).2 := length_lowBytes value
      have hcopy : overwrite (front ++ rest) front.length low
          = (front ++ low) ++ rest.drop (integerRecordType value).2 := by
        rw [overwrite, List.take_left', List.drop_append, hlow]
        · simp
        · rfl
      have hoffset : front.length + (integerRecordType value).2 = (front ++ low).length := by
        rw [List.length_append, hlow]
      rw [fillPayloads]
      rw [hcopy, hoffset, fillPayloads_eq values (front ++ low) _ (by rw [List.length_drop]; omega)]
      rw [body_integers, body_integers, List.map_cons, List.flatten_cons, List.append_assoc]

/-- `encode_integer_record` is the general encoder on up to eight integers. -/
theorem encodeIntegerRecord_eq {values : List Int64} (h : values.length ≤ 8) :
    encodeIntegerRecord values = some (encodeRecord (values.map .integer)) := by
  have hheader := header_integers values
  have hlen : (header (values.map .integer)).length = values.length := by
    rw [hheader, List.length_map]
  rw [encodeRecord_short (by omega), hlen, encodeIntegerRecord, if_pos h]
  simp only [Option.some.injEq]
  let tags := values.map fun value => (integerRecordType value).1
  let sizes := (values.map fun value => (integerRecordType value).2).sum
  have htags : tags.length = values.length := List.length_map ..
  have hfront : overwrite (overwrite (List.replicate (values.length + 1 + sizes) 0) 0
      [UInt8.ofNat (values.length + 1)]) 1 tags
      = (UInt8.ofNat (values.length + 1) :: tags) ++ List.replicate sizes 0 := by
    have hjoin := overwrite_overwrite (s := List.replicate (values.length + 1 + sizes) 0)
      (a := [UInt8.ofNat (values.length + 1)]) (b := tags) (i := 0)
      (by simp only [List.length_singleton, List.length_replicate]; omega)
    simp only [List.length_singleton, Nat.zero_add] at hjoin
    rw [hjoin, overwrite_zero, List.drop_replicate]
    congr 2
    simp only [List.length_append, List.length_singleton, htags]
    omega
  have hfill := fillPayloads_eq values (UInt8.ofNat (values.length + 1) :: tags)
    (List.replicate sizes 0) (List.length_replicate ..)
  rw [List.length_cons, htags] at hfill
  rw [hheader]
  exact (congrArg (fillPayloads · (values.length + 1) values) hfront).trans hfill

/-- The loop over the fields fills the array from its front. -/
theorem selectFields_eq (tuple : Vector Int64 4) : ∀ (fields : List (Fin 4)) (column : Nat)
    (values : Vector Int64 8), column + fields.length ≤ 8 →
    ∃ result, selectFields tuple (fields.map Fin.val) column values = some result ∧
      result.toList.take (column + fields.length)
        = values.toList.take column ++ fields.map tuple.get
  | [], column, values, _ => ⟨values, rfl, by simp⟩
  | field :: fields, column, values, h => by
      rw [List.length_cons] at h
      have hcolumn : column < 8 := by omega
      obtain ⟨result, hresult, htake⟩ := selectFields_eq tuple fields (column + 1)
        (values.set column (tuple.get field) hcolumn) (by omega)
      refine ⟨result, ?_, ?_⟩
      · rw [List.map_cons, selectFields]
        have hget : tuple[field.val]? = some (tuple.get field) := by simp [Vector.get]
        rw [hget]
        simp only [Option.bind_eq_bind, Option.bind_some, dif_pos hcolumn]
        exact hresult
      · have hset : (values.set column (tuple.get field) hcolumn).toList.take (column + 1)
            = values.toList.take column ++ [tuple.get field] := by
          rw [Vector.toList_set, List.take_add_one, List.take_set_of_le (Nat.le_refl _)]
          simp [hcolumn]
        rw [List.length_cons,
          show column + (fields.length + 1) = column + 1 + fields.length by omega,
          htake, hset, List.map_cons, List.append_assoc, List.singleton_append]

/-- So is `encode_tuple_record` on the fields of a tuple. -/
theorem encodeTupleRecord_eq (tuple : Vector Int64 4) {fields : List (Fin 4)}
    (h : fields.length ≤ 8) :
    encodeTupleRecord tuple (fields.map Fin.val)
      = some (encodeRecord ((fields.map tuple.get).map .integer)) := by
  have hget : ∀ field : Fin 4, tuple[field.val]? = some (tuple.get field) := fun field => by
    simp [Vector.get]
  obtain ⟨result, hresult, htake⟩ := selectFields_eq tuple fields 0 (Vector.replicate 8 0)
    (by omega)
  rw [Nat.zero_add, List.take_zero, List.nil_append] at htake
  have hgeneral : (do
      let values ← selectFields tuple (fields.map Fin.val) 0 (Vector.replicate 8 0)
      if (fields.map Fin.val).length ≤ 8 then
        encodeIntegerRecord (values.toList.take (fields.map Fin.val).length)
      else none) = encodeIntegerRecord (fields.map tuple.get) := by
    rw [hresult, List.length_map, ← htake]
    simp only [Option.bind_eq_bind, Option.bind_some, if_pos h]
  rw [← encodeIntegerRecord_eq (by simpa using h)]
  match fields, hgeneral with
  | [a, b, c], _ => simp only [List.map_cons, List.map_nil, encodeTupleRecord, hget]; rfl
  | [a, b, c, d], _ => simp only [List.map_cons, List.map_nil, encodeTupleRecord, hget]; rfl
  | [a, b, c, d, e], _ => simp only [List.map_cons, List.map_nil, encodeTupleRecord, hget]; rfl
  | [], hgeneral => exact hgeneral
  | [_], hgeneral => exact hgeneral
  | [_, _], hgeneral => exact hgeneral
  | _ :: _ :: _ :: _ :: _ :: _ :: _, hgeneral => exact hgeneral

/-- The encoders of fixed rows write what `encode_record` writes for the values of their row. -/
theorem specialised_encoders :
    (∀ labelGroup, encodeNodeRecord labelGroup = encodeRecord [.null, .integer labelGroup]) ∧
    (∀ source target kind, encodeEdgeRecord source target kind
      = encodeRecord [.null, .integer source, .integer target, .integer kind]) ∧
    (∀ owner key value, encodePropertyRecord owner key value
      = encodeRecord [.integer owner, .integer key, value]) ∧
    (∀ values, values.length ≤ 8 →
      encodeIntegerRecord values = some (encodeRecord (values.map .integer))) ∧
    (∀ (tuple : Vector Int64 4) (fields : List (Fin 4)), fields.length ≤ 8 →
      encodeTupleRecord tuple (fields.map Fin.val)
        = some (encodeRecord ((fields.map tuple.get).map .integer))) :=
  ⟨encodeNodeRecord_eq, encodeEdgeRecord_eq, encodePropertyRecord_eq,
    fun _ => encodeIntegerRecord_eq, fun tuple _ => encodeTupleRecord_eq tuple⟩

/-- Values at the width boundaries and a selection that repeats a field. -/
theorem specialised_encoders_small :
    encodeIntegerRecord [0, 1, 128, -129, 8388608] = some (encodeRecord
      [.integer 0, .integer 1, .integer 128, .integer (-129), .integer 8388608]) ∧
    encodeTupleRecord #v[5, -9223372036854775808, 0, 7] [1, 3, 1, 0, 2, 2]
      = some (encodeRecord [.integer (-9223372036854775808), .integer 7,
          .integer (-9223372036854775808), .integer 5, .integer 0, .integer 0]) :=
  ⟨specialised_encoders.2.2.2.1 [0, 1, 128, -129, 8388608] (by decide),
    specialised_encoders.2.2.2.2 #v[5, -9223372036854775808, 0, 7] [1, 3, 1, 0, 2, 2] (by decide)⟩

end Velr.Record
