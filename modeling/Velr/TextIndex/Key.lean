import Velr.Record.Specialised
import Velr.Sort.Key
import Velr.TextIndex.Spool

/-!
# Text keys

`TextCodec` and `TextKey` of `text_index.rs`. A key is a row of bytes: the distance of the key from
the least one, the prefix with zeros behind it, and the distances of the node and the rowid, each in
as many bytes as the spool needs, with zeros in front. As a number it is made up of the four fields
(`value_keyOf`), so that keys are ordered as the entries are (`value_lt_iff`).
-/

namespace Velr.TextIndex

open BitFields ByteString Utf8
open IndexStats (Failure)
open Velr.Sort (ordered unordered RadixKey LawfulRadixKey)
open Velr.Sort.LawfulRadixKey (value)

/-! ## The codec -/

/-- `TextCodec` -/
structure TextCodec where
  minimum : Vector UInt64 3
  widths : Vector Nat 3
  prefixBytes : Nat

/-- `TextCodec::new`: how many bytes the range of a field takes. -/
def fieldBytes (spool : TextSpool) (field : Fin 3) : Except Failure Nat :=
  if spool.rows = 0 then .ok ((bitLength 0 + 7) / 8)
  -- a subtraction that underflows panics
  else if spool.maximum[field] < spool.minimum[field] then .error .panic
  else .ok ((bitLength (spool.maximum[field] - spool.minimum[field]).toNat + 7) / 8)

/-- `TextCodec::new` -/
def TextCodec.new (spool : TextSpool) : Except Failure TextCodec := do
  let key ← fieldBytes spool 0
  let node ← fieldBytes spool 1
  let rowid ← fieldBytes spool 2
  .ok { minimum := spool.minimum, widths := #v[key, node, rowid], prefixBytes := spool.prefixBytes }

/-- `TextCodec::bytes` -/
def TextCodec.bytes (codec : TextCodec) : Nat :=
  codec.widths[0] + codec.widths[1] + codec.widths[2] + codec.prefixBytes

/-! ## Keys -/

/-- `TextKey` -/
structure TextKey (N : Nat) where
  bytes : Bytes
  size : bytes.length = N
deriving DecidableEq

instance {N : Nat} : Inhabited (TextKey N) := ⟨⟨List.replicate N 0, List.length_replicate⟩⟩

instance {N : Nat} : RadixKey (TextKey N) where
  compare a b := compare a.bytes b.bytes
  bytes := N
  digit key pass :=
    -- an index below the first byte panics
    if pass < N then
      match key.bytes[N - 1 - pass]? with
      | some byte => .ok byte.toNat
      | none => .error .panic
    else .error .panic

/-- `key.0[offset..offset + bytes.len()].copy_from_slice(bytes)` -/
def TextKey.copy {N : Nat} (key : TextKey N) (offset : Nat) (bytes : Bytes) :
    Except Failure (TextKey N) :=
  if h : offset + bytes.length ≤ N then
    .ok ⟨overwrite key.bytes offset bytes, (length_overwrite (key.size.symm ▸ h)).trans key.size⟩
  else .error .panic

section
variable {N : Nat}

/-- `TextCodec::pack`: one integer of the tuple. -/
def TextCodec.packField (codec : TextCodec) (tuple : TextTuple) (field : Fin 3) (key : TextKey N)
    (offset : Nat) : Except Failure (TextKey N × Nat) :=
  -- a subtraction that underflows panics, and so does a width behind the integer
  if ordered tuple.values[field] < codec.minimum[field] ∨ 8 < codec.widths[field] then .error .panic
  else do
    let distance := ordered tuple.values[field] - codec.minimum[field]
    let key ← key.copy offset ((toBE 8 distance.toNat).drop (8 - codec.widths[field]))
    .ok (key, offset + codec.widths[field])

/-- `TextCodec::pack`: the prefix of the tuple. -/
def TextCodec.packPrefix (codec : TextCodec) (tuple : TextTuple) (key : TextKey N) (offset : Nat) :
    Except Failure (TextKey N × Nat) :=
  if tuple.text.length < codec.prefixBytes then .error .panic
  else do
    let key ← key.copy offset (tuple.text.take codec.prefixBytes)
    .ok (key, offset + codec.prefixBytes)

/-- `TextCodec::pack` -/
def TextCodec.pack (N : Nat) (codec : TextCodec) (tuple : TextTuple) : Except Failure (TextKey N) :=
  if N < codec.bytes then .error .panic
  else do
    let (key, offset) ← codec.packField tuple 0 default (N - codec.bytes)
    let (key, offset) ← codec.packPrefix tuple key offset
    let (key, offset) ← codec.packField tuple 1 key offset
    let (key, _) ← codec.packField tuple 2 key offset
    .ok key

/-- `TextCodec::ranges`: the start and the end of each column of a key. -/
def TextCodec.ranges (N : Nat) (codec : TextCodec) : Except Failure (Vector (Nat × Nat) 4) :=
  if N < codec.bytes then .error .panic
  else
    let a := N - codec.bytes
    let b := a + codec.widths[0]
    let c := b + codec.prefixBytes
    let d := c + codec.widths[1]
    .ok #v[(a, b), (b, c), (c, d), (d, N)]

/-- `key.0[range]` -/
def TextKey.range (key : TextKey N) (range : Nat × Nat) : Bytes :=
  slice key.bytes range.1 (range.2 - range.1)

/-- `TextCodec::first_changed` -/
def TextCodec.firstChanged (codec : TextCodec) (last key : TextKey N) :
    Except Failure (Option Nat) := do
  let ranges ← codec.ranges N
  .ok (ranges.toList.findIdx? fun range => last.range range != key.range range)

/-- `TextCodec::encode`: the integer of a column. -/
def TextCodec.integer (codec : TextCodec) (column : Bytes) (field : Fin 3) : Int64 :=
  let value := column.foldl (fun (value : UInt64) byte => (value <<< 8) ||| byte.toUInt64) 0
  unordered (value + codec.minimum[field])

/-- `TextCodec::encode` -/
def TextCodec.encode (codec : TextCodec) (key : TextKey N) : Except Failure Bytes := do
  let ranges ← codec.ranges N
  let text := key.range ranges[1]!
  match fromUtf8 (text.take (untilZero text)) with
  | none => .error (.error "sorted text prefix is not UTF-8")
  | some text =>
      .ok (Record.encodeRecord
        [.integer (codec.integer (key.range ranges[0]!) 0), .text text,
          .integer (codec.integer (key.range ranges[2]!) 1),
          .integer (codec.integer (key.range ranges[3]!) 2)])

end

/-! ## Bytes as numbers -/

/-- The number of a concatenation. -/
theorem ofBE_append (a b : Bytes) : ofBE (a ++ b) = ofBE a * 256 ^ b.length + ofBE b := by
  induction b using List.reverseRecOn with
  | nil => simp
  | append_singleton b x ih =>
      rw [← List.append_assoc, ofBE_concat, ofBE_concat, ih, List.length_append,
        List.length_singleton, Nat.pow_succ]
      ring

theorem ofBE_replicate (n : Nat) : ofBE (List.replicate n 0) = 0 := by
  induction n with
  | zero => rfl
  | succ n ih =>
      rw [List.replicate_succ', ofBE_concat, ih]
      rfl

theorem ofBE_cons (b : UInt8) (bytes : Bytes) :
    ofBE (b :: bytes) = b.toNat * 256 ^ bytes.length + ofBE bytes := by
  have happend := ofBE_append [b] bytes
  rwa [show ofBE [b] = b.toNat from Nat.zero_add _] at happend

/-- Bytes are words of eight bits. -/
theorem ofBE_eq_ofWords : ∀ bytes : Bytes, ofBE bytes = ofWords 8 (bytes.map UInt8.toNat)
  | [] => rfl
  | b :: bytes => by
      rw [ofBE_cons, ofBE_eq_ofWords bytes, List.map_cons, ofWords, List.length_map, Nat.pow_mul]

theorem toNat_lt_of_mem {bytes : Bytes} : ∀ n ∈ bytes.map UInt8.toNat, n < 2 ^ 8 := by
  intro n hn
  obtain ⟨b, -, rfl⟩ := List.mem_map.mp hn
  exact b.toNat_lt

theorem ofBE_lt (bytes : Bytes) : ofBE bytes < 256 ^ bytes.length := by
  have hlt : ofWords 8 (bytes.map UInt8.toNat) < _ := ofWords_lt toNat_lt_of_mem
  rwa [← ofBE_eq_ofWords, List.length_map, Nat.pow_mul] at hlt

/-- Bytes of one length are determined by their number. -/
theorem ofBE_injective {a b : Bytes} (hlength : a.length = b.length) (h : ofBE a = ofBE b) :
    a = b := by
  rw [ofBE_eq_ofWords, ofBE_eq_ofWords] at h
  have hwords := ofWords_injective (by simpa using hlength) toNat_lt_of_mem toNat_lt_of_mem h
  exact List.map_injective_iff.mpr (fun _ _ => UInt8.toNat_inj.mp) hwords

theorem compare_uint8 (a b : UInt8) : compare a b = compare a.toNat b.toNat :=
  Sort.compare_word (fun _ _ => UInt8.lt_iff_toNat_lt) (fun _ _ => UInt8.toNat_inj.mp) a b

/-- Bytes of one length compare as their numbers. -/
theorem compare_ofBE {a b : Bytes} (hlength : a.length = b.length) :
    compare (ofBE a) (ofBE b) = compare a b := by
  rw [ofBE_eq_ofWords, ofBE_eq_ofWords,
    compare_ofWords (by simpa using hlength) toNat_lt_of_mem toNat_lt_of_mem,
    ← Sort.compare_toNat UInt8.toNat compare_uint8]

/-- Numbers of as many bytes are ordered as the bytes. -/
theorem ofBE_lt_iff : ∀ {a b : Bytes}, a.length = b.length →
    (ofBE a < ofBE b ↔ List.Lex (· < ·) a b)
  | [], [], _ => by simp
  | x :: a, y :: b, h => by
      have hlength : a.length = b.length := by simpa using h
      have ih := ofBE_lt_iff hlength
      have ha := ofBE_lt a
      have hb := ofBE_lt b
      rw [ofBE_cons, ofBE_cons, hlength, List.cons_lex_cons_iff, ← ih, UInt8.lt_iff_toNat_lt,
        ← UInt8.toNat_inj]
      rw [hlength] at ha
      rcases Nat.lt_trichotomy x.toNat y.toNat with hlt | heq | hgt
      · have hle := Nat.mul_le_mul_right (256 ^ b.length) hlt
        rw [Nat.succ_mul] at hle
        omega
      · rw [heq]
        omega
      · have hle := Nat.mul_le_mul_right (256 ^ b.length) hgt
        rw [Nat.succ_mul] at hle
        omega

instance {N : Nat} : LawfulRadixKey (TextKey N) where
  value key := ofBE key.bytes
  value_injective a b h := by
    have hbytes := ofBE_injective (a.size.trans b.size.symm) h
    cases a
    cases b
    cases hbytes
    rfl
  value_lt key := by
    have hlt := ofBE_lt key.bytes
    rwa [key.size] at hlt
  compare_value a b := (compare_ofBE (a.size.trans b.size.symm)).symm
  digit_value key pass hpass := by
    have hpass : pass < N := hpass
    have hsize := key.size
    have hindex : N - 1 - pass < key.bytes.length := by omega
    have hget : (key.bytes.map UInt8.toNat)[(key.bytes.map UInt8.toNat).length - 1 - pass / 1]?
        = some key.bytes[N - 1 - pass].toNat := by
      rw [List.length_map, hsize, Nat.div_one, List.getElem?_map, List.getElem?_eq_getElem hindex]
      rfl
    have hbyte := byte_ofWords (b := 1) Nat.one_pos _ (by simpa [hsize] using hpass)
      toNat_lt_of_mem hget
    show (if pass < N then _ else _) = _
    rw [if_pos hpass, List.getElem?_eq_getElem hindex, ofBE_eq_ofWords, hbyte, Nat.mod_one,
      Nat.zero_mul, Nat.shiftRight_zero, Nat.and_two_pow_sub_one_eq_mod _ 8,
      Nat.mod_eq_of_lt (UInt8.toNat_lt _)]

/-! ## What is packed -/

/-- What a codec knows of the entries of its spool. -/
structure TextCodec.Covers (codec : TextCodec) (entries : List Entry) : Prop where
  least : ∀ entry ∈ entries, ∀ field : Fin 3,
    codec.minimum[field] ≤ ordered (tupleOf entry).values[field]
  fits : ∀ entry ∈ entries, ∀ field : Fin 3,
    (ordered (tupleOf entry).values[field] - codec.minimum[field]).toNat < 256 ^ codec.widths[field]
  widths : ∀ field : Fin 3, codec.widths[field] ≤ 8
  prefixes : ∀ entry ∈ entries, (asBytes (prefixOf entry.text)).length ≤ codec.prefixBytes
  bound : codec.prefixBytes ≤ 48

/-- A field takes eight bytes at most, and every distance fits. -/
theorem fieldBytes_ok {spool : TextSpool} {entries : List Entry} (h : spool.Ranges entries)
    (field : Fin 3) : ∃ width, fieldBytes spool field = .ok width ∧ width ≤ 8 ∧
      ∀ entry ∈ entries,
        (ordered (tupleOf entry).values[field] - spool.minimum[field]).toNat < 256 ^ width := by
  unfold fieldBytes
  split
  · next hrows =>
      have hnil : entries = [] := List.eq_nil_of_length_eq_zero (h.rows.symm.trans hrows)
      refine ⟨_, rfl, by decide, fun entry hentry => ?_⟩
      rw [hnil] at hentry
      cases hentry
  · next hrows =>
      have hle : spool.minimum[field] ≤ spool.maximum[field] := by
        obtain ⟨entry, hentry⟩ := List.exists_mem_of_length_pos (l := entries) (by
          rw [← h.rows]
          omega)
        obtain ⟨hmin, hmax⟩ := h.within entry hentry field field.isLt
        exact UInt64.le_trans hmin hmax
      rw [if_neg (UInt64.not_lt.mpr hle)]
      have hbits := bitLength_le_iff.mpr
        (UInt64.toNat_lt (spool.maximum[field] - spool.minimum[field]))
      refine ⟨_, rfl, by omega, fun entry hentry => ?_⟩
      have hwithin : spool.minimum[field] ≤ ordered (tupleOf entry).values[field] ∧
          ordered (tupleOf entry).values[field] ≤ spool.maximum[field] :=
        h.within entry hentry field field.isLt
      have hrange := lt_two_pow_bitLength (spool.maximum[field] - spool.minimum[field]).toNat
      have hpow : (2 : Nat) ^ bitLength (spool.maximum[field] - spool.minimum[field]).toNat
          ≤ 256 ^ ((bitLength (spool.maximum[field] - spool.minimum[field]).toNat + 7) / 8) := by
        rw [Sort.pow_256]
        exact Nat.pow_le_pow_right (by omega) (by omega)
      rw [UInt64.toNat_sub_of_le _ _ hle] at hrange hpow ⊢
      rw [UInt64.toNat_sub_of_le _ _ hwithin.1]
      have hmax := UInt64.le_iff_toNat_le.mp hwithin.2
      omega

/-- A spool has a codec. -/
theorem TextCodec.new_covers {spool : TextSpool} {entries : List Entry} (h : spool.Ranges entries) :
    ∃ codec, TextCodec.new spool = .ok codec ∧ codec.Covers entries := by
  obtain ⟨key, hkey, hkey8, hkeys⟩ := fieldBytes_ok h 0
  obtain ⟨node, hnode, hnode8, hnodes⟩ := fieldBytes_ok h 1
  obtain ⟨rowid, hrowid, hrowid8, hrowids⟩ := fieldBytes_ok h 2
  refine ⟨_, Results.bind_eq_ok_iff.mpr ⟨key, hkey, Results.bind_eq_ok_iff.mpr ⟨node, hnode,
    Results.bind_eq_ok_iff.mpr ⟨rowid, hrowid, rfl⟩⟩⟩, fun entry hentry field => ?_,
    fun entry hentry field => ?_, fun field => ?_, h.prefixes, h.bound⟩
  · exact (h.within entry hentry field field.isLt).1
  · match field with
    | 0 => exact hkeys entry hentry
    | 1 => exact hnodes entry hentry
    | 2 => exact hrowids entry hentry
  · match field with
    | 0 => exact hkey8
    | 1 => exact hnode8
    | 2 => exact hrowid8

/-- The distance of an integer of an entry from the least one. -/
def TextCodec.distance (codec : TextCodec) (entry : Entry) (field : Fin 3) : Nat :=
  (ordered (tupleOf entry).values[field] - codec.minimum[field]).toNat

/-- The columns of the key of an entry. -/
def TextCodec.columns (codec : TextCodec) (entry : Entry) : List Bytes :=
  [toBE codec.widths[0] (codec.distance entry 0),
    padTo codec.prefixBytes (asBytes (prefixOf entry.text)),
    toBE codec.widths[1] (codec.distance entry 1),
    toBE codec.widths[2] (codec.distance entry 2)]

/-- The bytes of the key of an entry. -/
def TextCodec.keyBytes (N : Nat) (codec : TextCodec) (entry : Entry) : Bytes :=
  List.replicate (N - codec.bytes) 0 ++ (codec.columns entry).flatten

section
variable {N : Nat} {codec : TextCodec} {entries : List Entry} {entry : Entry}

/-- The columns of a key have the widths of the codec. -/
theorem TextCodec.Covers.length_columns (h : codec.Covers entries) (hentry : entry ∈ entries) :
    (codec.columns entry).map List.length
      = [codec.widths[0], codec.prefixBytes, codec.widths[1], codec.widths[2]] := by
  simp only [TextCodec.columns, List.map_cons, List.map_nil, length_toBE,
    length_padTo (h.prefixes entry hentry)]

/-- A key has `N` bytes. -/
theorem TextCodec.Covers.length_keyBytes (h : codec.Covers entries) (hentry : entry ∈ entries)
    (hN : codec.bytes ≤ N) : (codec.keyBytes N entry).length = N := by
  have hcolumns := h.length_columns hentry
  rw [TextCodec.keyBytes, List.length_append, List.length_replicate, List.length_flatten, hcolumns]
  rw [TextCodec.bytes] at hN ⊢
  simp only [List.sum_cons, List.sum_nil]
  omega

/-- The prefix of a tuple, cut to the bytes that the prefixes take. -/
theorem take_padTo {n m : Nat} {bytes : Bytes} (hbytes : bytes.length ≤ n) (hn : n ≤ m) :
    (padTo m bytes).take n = padTo n bytes := by
  rw [padTo, padTo, List.take_append, List.take_of_length_le hbytes, List.take_replicate,
    Nat.min_eq_left (by omega)]

/-- Copying bytes into a key overwrites them. -/
theorem copy_eq (key : TextKey N) {offset : Nat} {bytes : Bytes} (h : offset + bytes.length ≤ N) :
    ∃ next, key.copy offset bytes = .ok next ∧ next.bytes = overwrite key.bytes offset bytes :=
  ⟨_, dif_pos h, rfl⟩

/-- Four copies side by side. -/
theorem overwrite_columns {i : Nat} (s a b c d : Bytes)
    (h : i + (a.length + b.length + c.length + d.length) ≤ s.length) :
    overwrite (overwrite (overwrite (overwrite s i a) (i + a.length) b) (i + a.length + b.length) c)
        (i + a.length + b.length + c.length) d
      = overwrite s i [a, b, c, d].flatten := by
  have happend : ∀ x y : Bytes, i + (x ++ y).length = i + x.length + y.length := by
    intro x y
    rw [List.length_append, Nat.add_assoc]
  have hab : overwrite (overwrite s i a) (i + a.length) b = overwrite s i (a ++ b) :=
    overwrite_overwrite (by omega)
  have hc : overwrite (overwrite s i (a ++ b)) (i + (a ++ b).length) c =
      overwrite s i (a ++ b ++ c) :=
    overwrite_overwrite (by rw [happend]; omega)
  have hd : overwrite (overwrite s i (a ++ b ++ c)) (i + (a ++ b ++ c).length) d
      = overwrite s i (a ++ b ++ c ++ d) :=
    overwrite_overwrite (by rw [happend, happend]; omega)
  rw [happend] at hc
  rw [happend, happend] at hd
  rw [hab, hc, hd]
  simp only [List.flatten_cons, List.flatten_nil, List.append_nil, List.append_assoc]

/-- A field is packed as its distance. -/
theorem TextCodec.Covers.packField_eq (h : codec.Covers entries) (hentry : entry ∈ entries)
    (field : Fin 3) (key : TextKey N) (offset : Nat) (hroom : offset + codec.widths[field] ≤ N) :
    ∃ next, codec.packField (tupleOf entry) field key offset
        = .ok (next, offset + codec.widths[field]) ∧
      next.bytes
        = overwrite key.bytes offset (toBE codec.widths[field] (codec.distance entry field)) := by
  have hwidth := h.widths field
  have hdrop :
      ∀ v : Nat, (toBE 8 v).drop (8 - codec.widths[field]) = toBE codec.widths[field] v := by
    intro v
    have hlow := Record.drop_toBE (8 - codec.widths[field]) codec.widths[field] v
    rwa [Nat.sub_add_cancel hwidth] at hlow
  have hinside : offset + (toBE codec.widths[field] (codec.distance entry field)).length ≤ N := by
    rwa [length_toBE]
  obtain ⟨next, hcopy, hnext⟩ := copy_eq key hinside
  refine ⟨next, ?_, hnext⟩
  rw [TextCodec.packField, if_neg]
  · simp only [hdrop]
    exact Results.bind_eq_ok_iff.mpr ⟨next, hcopy, rfl⟩
  · rintro (hlt | hwide)
    · exact absurd (h.least entry hentry field) (UInt64.not_le.mpr hlt)
    · omega

/-- An entry is packed to its columns. -/
theorem TextCodec.Covers.pack_eq (h : codec.Covers entries) (hentry : entry ∈ entries)
    (hN : codec.bytes ≤ N) :
    codec.pack N (tupleOf entry) = .ok ⟨codec.keyBytes N entry, h.length_keyBytes hentry hN⟩ := by
  have hbytes : codec.bytes
      = codec.widths[0] + codec.widths[1] + codec.widths[2] + codec.prefixBytes := rfl
  have htext : (tupleOf entry).text.length = 48 := length_padTo (length_prefixOf_le entry.text)
  have htake : (tupleOf entry).text.take codec.prefixBytes
      = padTo codec.prefixBytes (asBytes (prefixOf entry.text)) :=
    take_padTo (h.prefixes entry hentry) h.bound
  have hlength := length_padTo (h.prefixes entry hentry)
  have hbound := h.bound
  obtain ⟨first, hfirst, hkey⟩ := h.packField_eq hentry 0 default (N - codec.bytes)
    (show _ + codec.widths[0] ≤ N by omega)
  have hinside : N - codec.bytes + codec.widths[0]
      + (padTo codec.prefixBytes (asBytes (prefixOf entry.text))).length ≤ N := by omega
  obtain ⟨second, hcopy, hsecond⟩ := copy_eq first hinside
  obtain ⟨third, hthird, hnode⟩ := h.packField_eq hentry 1 second
    (N - codec.bytes + codec.widths[0] + codec.prefixBytes)
    (show _ + codec.widths[1] ≤ N by omega)
  obtain ⟨last, hlast, hrowid⟩ := h.packField_eq hentry 2 third
    (N - codec.bytes + codec.widths[0] + codec.prefixBytes + codec.widths[1])
    (show _ + codec.widths[2] ≤ N by omega)
  have hprefix : codec.packPrefix (tupleOf entry) first (N - codec.bytes + codec.widths[0])
      = .ok (second, N - codec.bytes + codec.widths[0] + codec.prefixBytes) := by
    rw [TextCodec.packPrefix, htext, if_neg (by omega), htake]
    exact Results.bind_eq_ok_iff.mpr ⟨second, hcopy, rfl⟩
  have hpack : codec.pack N (tupleOf entry) = .ok last := by
    rw [TextCodec.pack, if_neg (by omega)]
    exact Results.bind_eq_ok_iff.mpr ⟨_, hfirst, Results.bind_eq_ok_iff.mpr ⟨_, hprefix,
      Results.bind_eq_ok_iff.mpr ⟨_, hthird, Results.bind_eq_ok_iff.mpr ⟨_, hlast, rfl⟩⟩⟩⟩
  have hbytes : last.bytes = codec.keyBytes N entry := by
    rw [hrowid, hnode, hsecond, hkey]
    have hcopies := overwrite_columns (i := N - codec.bytes) (default : TextKey N).bytes
      (toBE codec.widths[0] (codec.distance entry 0))
      (padTo codec.prefixBytes (asBytes (prefixOf entry.text)))
      (toBE codec.widths[1] (codec.distance entry 1))
      (toBE codec.widths[2] (codec.distance entry 2)) (by
        rw [(default : TextKey N).size]
        simp only [length_toBE, hlength]
        omega)
    simp only [length_toBE, hlength] at hcopies
    refine hcopies.trans ?_
    have hcolumns := h.length_columns hentry
    have hflatten : (codec.columns entry).flatten.length = codec.bytes := by
      rw [List.length_flatten, hcolumns]
      simp only [List.sum_cons, List.sum_nil]
      omega
    show overwrite (List.replicate N 0) _ (codec.columns entry).flatten = _
    rw [overwrite, hflatten, Nat.sub_add_cancel hN, List.take_replicate, List.drop_replicate,
      Nat.sub_self, Nat.min_eq_left (Nat.sub_le N _), TextCodec.keyBytes]
    exact List.append_nil _
  rw [hpack]
  cases last
  cases hbytes
  rfl

/-- The ranges of a codec cut the key of an entry into its columns. -/
theorem TextCodec.Covers.ranges_eq (h : codec.Covers entries) (hN : codec.bytes ≤ N) :
    ∃ a b c d : Nat × Nat, codec.ranges N = .ok #v[a, b, c, d] ∧
      ∀ entry ∈ entries, ∀ key : TextKey N, key.bytes = codec.keyBytes N entry →
        [key.range a, key.range b, key.range c, key.range d] = codec.columns entry := by
  refine ⟨_, _, _, _, if_neg (by omega), fun entry hentry key hkey => ?_⟩
  have hbytes : codec.bytes
      = codec.widths[0] + codec.widths[1] + codec.widths[2] + codec.prefixBytes := rfl
  have hlength := length_padTo (h.prefixes entry hentry)
  have hkey' : key.bytes = (List.replicate (N - codec.bytes) 0 : Bytes) ++
      (toBE codec.widths[0] (codec.distance entry 0) ++
        (padTo codec.prefixBytes (asBytes (prefixOf entry.text)) ++
          (toBE codec.widths[1] (codec.distance entry 1) ++
            (toBE codec.widths[2] (codec.distance entry 2) ++ [])))) := hkey
  simp only [TextKey.range, hkey', TextCodec.columns, List.cons.injEq, and_true]
  refine ⟨?_, ?_, ?_, ?_⟩
  · exact slice_middle (by simp) (by simp)
  · rw [← List.append_assoc]
    exact slice_middle (by simp) (by rw [hlength]; omega)
  · rw [← List.append_assoc, ← List.append_assoc]
    exact slice_middle (by simp [hlength, Nat.add_assoc]) (by simp)
  · rw [← List.append_assoc, ← List.append_assoc, ← List.append_assoc]
    refine slice_middle (by simp [hlength, Nat.add_assoc]) ?_
    rw [length_toBE]
    omega

end

/-! ## The order of keys -/

/-- Rows whose parts are as long as each other's. -/
theorem lex_append_iff : ∀ {a b x y : Bytes}, a.length = b.length →
    (List.Lex (· < ·) (a ++ x) (b ++ y) ↔
      List.Lex (· < ·) a b ∨ a = b ∧ List.Lex (· < ·) x y)
  | [], [], _, _, _ => by simp
  | a :: as, b :: bs, x, y, h => by
      have ih := lex_append_iff (x := x) (y := y) (show as.length = bs.length by simpa using h)
      simp only [List.cons_append, List.cons_lex_cons_iff, List.cons.injEq, ih]
      tauto

/-- Columns of equal widths compare as one text. -/
theorem lex_flatten_iff : ∀ {as bs : List Bytes}, as.map List.length = bs.map List.length →
    (List.Lex (· < ·) as.flatten bs.flatten ↔ List.Lex (List.Lex (· < ·)) as bs)
  | [], [], _ => by simp
  | a :: as, b :: bs, h => by
      obtain ⟨hlength, hrest⟩ := List.cons.inj h
      rw [List.flatten_cons, List.flatten_cons, lex_append_iff hlength, lex_flatten_iff hrest,
        List.cons_lex_cons_iff]

/-- Zeros behind bytes that are not zero do not change the order. -/
theorem lex_padTo_iff : ∀ {n : Nat} {a b : Bytes}, 0 ∉ a → 0 ∉ b → a.length ≤ n → b.length ≤ n →
    (List.Lex (· < ·) (padTo n a) (padTo n b) ↔ List.Lex (· < ·) a b)
  | 0, [], [], _, _, _, _ => by simp [padTo]
  | n + 1, [], [], _, _, _, _ => by
      have hirrefl : ∀ bytes : Bytes, ¬List.Lex (· < ·) bytes bytes := fun bytes =>
        irrefl_of (List.Lex (· < ·)) bytes
      exact iff_of_false (hirrefl _) (hirrefl _)
  | n + 1, [], y :: b, _, hb, _, _ => by
      have hy : 0 < y := UInt8.pos_iff_ne_zero.mpr fun heq => hb (by simp [heq])
      exact iff_of_true (.rel hy) .nil
  | n + 1, x :: a, [], ha, _, _, _ => by
      refine iff_of_false (fun hlex => ?_) (fun hlex => by cases hlex)
      cases hlex with
      | rel hlt => exact absurd hlt (UInt8.not_lt.mpr UInt8.zero_le)
      | cons => exact ha (by simp)
  | n + 1, x :: a, y :: b, ha, hb, hla, hlb => by
      have ih := lex_padTo_iff (n := n) (a := a) (b := b) (fun h => ha (by simp [h]))
        (fun h => hb (by simp [h])) (by simpa using hla) (by simpa using hlb)
      have hcons : ∀ (x : UInt8) (a : Bytes), padTo (n + 1) (x :: a) = x :: padTo n a := by
        intro x a
        rw [padTo, padTo, List.length_cons, Nat.add_sub_add_right]
        rfl
      rw [hcons, hcons, List.cons_lex_cons_iff, List.cons_lex_cons_iff, ih]

/-- Texts without NUL are equal if they are when padded. -/
theorem padTo_inj {n : Nat} {a b : Bytes} (ha : 0 ∉ a) (hb : 0 ∉ b) :
    padTo n a = padTo n b ↔ a = b := by
  have hfilter : ∀ bytes : Bytes, 0 ∉ bytes → (padTo n bytes).filter (· ≠ 0) = bytes := by
    intro bytes hbytes
    have hself : bytes.filter (· ≠ 0) = bytes := List.filter_eq_self.mpr fun b hb => by
      simpa using fun heq : b = 0 => hbytes (heq ▸ hb)
    rw [padTo, List.filter_append, hself, List.filter_replicate_of_neg (by simp), List.append_nil]
  refine ⟨fun h => ?_, fun h => by rw [h]⟩
  rw [← hfilter a ha, h, hfilter b hb]

/-- Numbers in as many bytes are ordered as the bytes. -/
theorem lex_toBE_iff {w m n : Nat} (hm : m < 256 ^ w) (hn : n < 256 ^ w) :
    (List.Lex (· < ·) (toBE w m) (toBE w n) ↔ m < n) ∧ (toBE w m = toBE w n ↔ m = n) := by
  constructor
  · rw [← ofBE_lt_iff (by simp), ofBE_toBE_of_lt hm, ofBE_toBE_of_lt hn]
  · refine ⟨fun h => ?_, fun h => by rw [h]⟩
    have hnumber := congrArg ofBE h
    rwa [ofBE_toBE_of_lt hm, ofBE_toBE_of_lt hn] at hnumber

/-- The four columns of an entry. -/
def Entry.indexed (entry : Entry) : Int64 × String × Int64 × Int64 :=
  (entry.key, prefixOf entry.text, entry.node, entry.rowid)

/-- The order of the index: signed key, prefix byte by byte, signed node, signed rowid. -/
def EntryLt (a b : Entry) : Prop :=
  a.key < b.key ∨ a.key = b.key ∧
    (List.Lex (· < ·) (asBytes (prefixOf a.text)) (asBytes (prefixOf b.text)) ∨
      prefixOf a.text = prefixOf b.text ∧
        (a.node < b.node ∨ a.node = b.node ∧ a.rowid < b.rowid))

/-- The first of the four columns in which two entries differ. -/
def firstColumn (a b : Entry) : Option Nat :=
  if a.key ≠ b.key then some 0
  else if prefixOf a.text ≠ prefixOf b.text then some 1
  else if a.node ≠ b.node then some 2
  else if a.rowid ≠ b.rowid then some 3
  else none

/-- A text is determined by its bytes. -/
theorem asBytes_inj {a b : String} : asBytes a = asBytes b ↔ a = b := by
  refine ⟨fun h => ?_, fun h => by rw [h]⟩
  have htext := congrArg fromUtf8 h
  rw [fromUtf8_asBytes, fromUtf8_asBytes] at htext
  exact Option.some.inj htext

section
variable {N : Nat} {codec : TextCodec} {entries : List Entry} {a b : Entry}

/-- Distances compare as the values. -/
theorem TextCodec.Covers.distance_iff (h : codec.Covers entries) (ha : a ∈ entries)
    (hb : b ∈ entries) (field : Fin 3) :
    (codec.distance a field < codec.distance b field ↔
      (tupleOf a).values[field] < (tupleOf b).values[field]) ∧
    (codec.distance a field = codec.distance b field ↔
      (tupleOf a).values[field] = (tupleOf b).values[field]) := by
  have hla := h.least a ha field
  have hlb := h.least b hb field
  rw [TextCodec.distance, TextCodec.distance, UInt64.toNat_sub_of_le _ _ hla,
    UInt64.toNat_sub_of_le _ _ hlb, ← Sort.ordered_lt_iff, UInt64.lt_iff_toNat_lt]
  rw [UInt64.le_iff_toNat_le] at hla hlb
  refine ⟨by omega, ⟨fun heq => ?_, fun heq => by rw [heq]⟩⟩
  have hsame : ordered (tupleOf a).values[field] = ordered (tupleOf b).values[field] :=
    UInt64.toNat_inj.mp (by omega)
  rw [← Sort.unordered_ordered (tupleOf a).values[field], hsame, Sort.unordered_ordered]

/-- One integer column of two keys. -/
theorem TextCodec.Covers.integer_iff (h : codec.Covers entries) (ha : a ∈ entries)
    (hb : b ∈ entries) (field : Fin 3) :
    (List.Lex (· < ·) (toBE codec.widths[field] (codec.distance a field))
        (toBE codec.widths[field] (codec.distance b field)) ↔
      (tupleOf a).values[field] < (tupleOf b).values[field]) ∧
    (toBE codec.widths[field] (codec.distance a field)
        = toBE codec.widths[field] (codec.distance b field) ↔
      (tupleOf a).values[field] = (tupleOf b).values[field]) := by
  have hbytes := lex_toBE_iff (h.fits a ha field) (h.fits b hb field)
  have hdistance := h.distance_iff ha hb field
  exact ⟨hbytes.1.trans hdistance.1, hbytes.2.trans hdistance.2⟩

/-- The prefix column of two keys. -/
theorem TextCodec.Covers.prefix_iff (h : codec.Covers entries) (ha : a ∈ entries)
    (hb : b ∈ entries) :
    (List.Lex (· < ·) (padTo codec.prefixBytes (asBytes (prefixOf a.text)))
        (padTo codec.prefixBytes (asBytes (prefixOf b.text))) ↔
      List.Lex (· < ·) (asBytes (prefixOf a.text)) (asBytes (prefixOf b.text))) ∧
    (padTo codec.prefixBytes (asBytes (prefixOf a.text))
        = padTo codec.prefixBytes (asBytes (prefixOf b.text)) ↔
      prefixOf a.text = prefixOf b.text) := by
  have hza := zero_notMem_prefixOf a.text
  have hzb := zero_notMem_prefixOf b.text
  exact ⟨lex_padTo_iff hza hzb (h.prefixes a ha) (h.prefixes b hb),
    (padTo_inj hza hzb).trans asBytes_inj⟩

/-- Keys are ordered as the entries. -/
theorem TextCodec.Covers.value_lt_iff (h : codec.Covers entries) (ha : a ∈ entries)
    (hb : b ∈ entries) {ka kb : TextKey N}
    (hka : ka.bytes = codec.keyBytes N a) (hkb : kb.bytes = codec.keyBytes N b) :
    value ka < value kb ↔ EntryLt a b := by
  have hcolumns := (h.length_columns ha).trans (h.length_columns hb).symm
  have hzeros : ¬List.Lex (· < ·) (List.replicate (N - codec.bytes) (0 : UInt8))
      (List.replicate (N - codec.bytes) 0) := irrefl_of (List.Lex (· < ·)) _
  have hkey : _ ∧ (_ ↔ a.key = b.key) := h.integer_iff ha hb 0
  have hnode : _ ∧ (_ ↔ a.node = b.node) := h.integer_iff ha hb 1
  have hrowid : (_ ↔ a.rowid < b.rowid) ∧ _ := h.integer_iff ha hb 2
  obtain ⟨htext, htexts⟩ := h.prefix_iff ha hb
  show ofBE ka.bytes < ofBE kb.bytes ↔ _
  rw [ofBE_lt_iff (ka.size.trans kb.size.symm), hka, hkb, TextCodec.keyBytes, TextCodec.keyBytes,
    lex_append_iff rfl, lex_flatten_iff hcolumns]
  simp only [Fin.getElem_fin, Fin.val_zero, Fin.val_one, Fin.val_two] at hkey hnode hrowid
  simp only [hzeros, false_or, true_and, TextCodec.columns, List.cons_lex_cons_iff, hkey.1, hkey.2,
    htext, htexts, hnode.1, hnode.2, hrowid.1, List.not_lex_nil, and_false, or_false]
  rfl

/-- Equal keys are of entries without a column that differs. -/
theorem TextCodec.Covers.firstChanged_eq (h : codec.Covers entries) (ha : a ∈ entries)
    (hb : b ∈ entries) (hN : codec.bytes ≤ N) {ka kb : TextKey N}
    (hka : ka.bytes = codec.keyBytes N a) (hkb : kb.bytes = codec.keyBytes N b) :
    codec.firstChanged ka kb = .ok (firstColumn a b) := by
  obtain ⟨r₀, r₁, r₂, r₃, hranges, hcut⟩ := h.ranges_eq hN
  have hcuta := hcut a ha ka hka
  have hcutb := hcut b hb kb hkb
  simp only [TextCodec.columns, List.cons.injEq, and_true] at hcuta hcutb
  have hkey : _ ∧ (_ ↔ a.key = b.key) := h.integer_iff ha hb 0
  have hnode : _ ∧ (_ ↔ a.node = b.node) := h.integer_iff ha hb 1
  have hrowid : _ ∧ (_ ↔ a.rowid = b.rowid) := h.integer_iff ha hb 2
  obtain ⟨-, htexts⟩ := h.prefix_iff ha hb
  simp only [Fin.getElem_fin, Fin.val_zero, Fin.val_one, Fin.val_two] at hkey hnode hrowid
  rw [TextCodec.firstChanged, hranges]
  refine congrArg Except.ok ?_
  show [r₀, r₁, r₂, r₃].findIdx? _ = _
  simp only [List.findIdx?_cons, List.findIdx?_nil, hcuta, hcutb, bne_iff_ne, ne_eq, hkey.2, htexts,
    hnode.2, hrowid.2, firstColumn]
  split_ifs <;> rfl

/-! ## Reading a key back -/

/-- Shifting in a byte appends it to the number. -/
theorem toNat_shift_or (v : UInt64) (b : UInt8) :
    ((v <<< 8) ||| b.toUInt64).toNat = (v.toNat * 256 + b.toNat) % 2 ^ 64 := by
  have hb := b.toNat_lt
  have height : (8 : UInt64).toNat % 64 = 8 := rfl
  have hhigh : v.toNat * 2 ^ 8 % 2 ^ 64 = 2 ^ 8 * (v.toNat % 2 ^ 56) := by omega
  rw [UInt64.toNat_or, UInt64.toNat_shiftLeft, UInt8.toNat_toUInt64, height,
    Nat.shiftLeft_eq, hhigh,
    ← Nat.two_pow_add_eq_or_of_lt hb]
  omega

/-- The number of bytes that are shifted in, modulo 2^64. -/
theorem foldl_bytes (bytes : Bytes) (first : UInt64) :
    (bytes.foldl (fun (value : UInt64) byte => (value <<< 8) ||| byte.toUInt64) first).toNat
      = (first.toNat * 256 ^ bytes.length + ofBE bytes) % 2 ^ 64 := by
  induction bytes generalizing first with
  | nil =>
      rw [List.foldl_nil, List.length_nil, Nat.pow_zero, Nat.mul_one, ofBE_nil, Nat.add_zero,
        Nat.mod_eq_of_lt first.toNat_lt]
  | cons b bytes ih =>
      rw [List.foldl_cons, ih, toNat_shift_or, ofBE_cons, List.length_cons, pow_succ 256]
      have hmod : ∀ x y z : Nat, (x % 2 ^ 64 * y + z) % 2 ^ 64 = (x * y + z) % 2 ^ 64 := by
        intro x y z
        rw [Nat.add_mod, Nat.mod_mul_mod, ← Nat.add_mod]
      rw [hmod]
      congr 1
      ring

/-- Where the zeros behind a prefix start. -/
theorem untilZero_padTo {n : Nat} {bytes : Bytes} (h : 0 ∉ bytes) (hn : bytes.length ≤ n) :
    untilZero (padTo n bytes) = bytes.length := by
  have hnone : bytes.findIdx? (· == 0) = none := List.findIdx?_eq_none_iff.mpr fun b hb => by
    simpa using fun heq : b = 0 => h (heq ▸ hb)
  rw [untilZero, length_padTo hn, padTo, List.findIdx?_append, hnone]
  cases hzeros : n - bytes.length with
  | zero =>
      show n = _
      omega
  | succ m => simp [List.replicate_succ, List.findIdx?_cons]

/-- The record of an entry. -/
def recordOf (entry : Entry) : Bytes :=
  Record.encodeRecord
    [.integer entry.key, .text (prefixOf entry.text), .integer entry.node, .integer entry.rowid]

/-- The value of a field is read back from its distance. -/
theorem TextCodec.Covers.integer_eq (h : codec.Covers entries) (ha : a ∈ entries) (field : Fin 3) :
    codec.integer (toBE codec.widths[field] (codec.distance a field)) field
      = (tupleOf a).values[field] := by
  have hfits : codec.distance a field < 256 ^ codec.widths[field] := h.fits a ha field
  have hbound : codec.distance a field < 2 ^ 64 := UInt64.toNat_lt _
  have hnumber := foldl_bytes (toBE codec.widths[field] (codec.distance a field)) 0
  rw [ofBE_toBE_of_lt hfits, UInt64.toNat_zero, Nat.zero_mul, Nat.zero_add,
    Nat.mod_eq_of_lt hbound] at hnumber
  rw [TextCodec.integer, UInt64.toNat_inj.mp hnumber, UInt64.sub_add_cancel, Sort.unordered_ordered]

/-- The key of an entry is read back as its record. -/
theorem TextCodec.Covers.encode_eq (h : codec.Covers entries) (ha : a ∈ entries)
    (hN : codec.bytes ≤ N) {key : TextKey N} (hkey : key.bytes = codec.keyBytes N a) :
    codec.encode key = .ok (recordOf a) := by
  obtain ⟨r₀, r₁, r₂, r₃, hranges, hcut⟩ := h.ranges_eq hN
  have hcuta := hcut a ha key hkey
  simp only [TextCodec.columns, List.cons.injEq, and_true] at hcuta
  obtain ⟨hkeys, htext, hnode, hrowid⟩ := hcuta
  have htake : (padTo codec.prefixBytes (asBytes (prefixOf a.text))).take
      (asBytes (prefixOf a.text)).length = asBytes (prefixOf a.text) := List.take_left
  have hread : fromUtf8 ((key.range r₁).take (untilZero (key.range r₁))) =
      some (prefixOf a.text) := by
    rw [htext, untilZero_padTo (zero_notMem_prefixOf a.text) (h.prefixes a ha), htake,
      fromUtf8_asBytes]
  have hkey : codec.integer (toBE codec.widths[0] (codec.distance a 0)) 0 = a.key :=
    h.integer_eq ha 0
  have hnodes : codec.integer (toBE codec.widths[1] (codec.distance a 1)) 1 = a.node :=
    h.integer_eq ha 1
  have hrowids : codec.integer (toBE codec.widths[2] (codec.distance a 2)) 2 = a.rowid :=
    h.integer_eq ha 2
  have hget : ∀ r : Vector (Nat × Nat) 4, r = #v[r₀, r₁, r₂, r₃] →
      r[0]! = r₀ ∧ r[1]! = r₁ ∧ r[2]! = r₂ ∧ r[3]! = r₃ := by
    rintro r rfl
    exact ⟨rfl, rfl, rfl, rfl⟩
  rw [TextCodec.encode, hranges]
  generalize hr : #v[r₀, r₁, r₂, r₃] = r
  obtain ⟨h₀, h₁, h₂, h₃⟩ := hget r hr.symm
  simp only [bind, Except.bind, h₀, h₁, h₂, h₃, hread, hkeys, hnode, hrowid, hkey, hnodes, hrowids]
  rfl

end

end Velr.TextIndex
