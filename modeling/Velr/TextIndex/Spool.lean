import Mathlib.Data.List.TakeWhile
import Velr.Common.Results
import Velr.Common.Utf8
import Velr.Sort.Spool

/-!
# The text spool

`TextSpool::create` and `push` of `text_index.rs`. A tuple of the spool is a key, a node and a rowid
beside the first twelve characters of a text, cut at the first NUL and padded with zeros to 48
bytes. The shortcut that looks at bytes only finds the same cut (`prefixEnd_eq`). The file of the
tuples is their list.
-/

namespace Velr.TextIndex

open ByteString Utf8
open IndexStats (Failure)
open Velr.Sort (ordered)

/-! ## The prefix -/

/-- `bytes.iter().position(|&byte| byte == 0).unwrap_or(bytes.len())` -/
def untilZero (bytes : Bytes) : Nat := (bytes.findIdx? (· == 0)).getD bytes.length

/-- `char_indices` -/
def charIndices : Nat → List Char → List (Nat × Char)
  | _, [] => []
  | start, character :: text =>
      (start, character) :: charIndices (start + (encode character).length) text

/-- `push`: where the prefix ends, in general. -/
def generalEnd (text : String) : Nat :=
  ((((charIndices 0 text.toList).take 12).takeWhile
    fun (_, character) => character ≠ Char.ofNat 0).map
    fun (start, character) => start + (encode character).length).getLast?.getD 0

/-- `push`: where the prefix ends. -/
def prefixEnd (text : String) : Nat :=
  let asciiPrefix := (asBytes text).take (min (asBytes text).length 12)
  if asciiPrefix.all (·.toNat < 128) then untilZero asciiPrefix else generalEnd text

/-! ## Tuples -/

/-- `[u8; 72]`: the integers and the prefix. -/
structure TextTuple where
  values : Vector Int64 3
  text : Bytes
deriving DecidableEq

/-- `TextSpool`; its file is the list of the tuples. -/
structure TextSpool where
  tuples : List TextTuple
  isSealed : Bool
  rows : Nat
  minimum : Vector UInt64 3
  maximum : Vector UInt64 3
  prefixBytes : Nat

/-- What `push` is given. -/
structure Entry where
  key : Int64
  text : String
  node : Int64
  rowid : Int64
deriving DecidableEq

/-- `TextSpool::create` -/
def TextSpool.create : TextSpool where
  tuples := []
  isSealed := false
  rows := 0
  minimum := .replicate 3 (.ofNat Record.usizeMax)
  maximum := .replicate 3 0
  prefixBytes := 0

/-- `TextSpool::push` -/
def TextSpool.push (spool : TextSpool) (entry : Entry) : Except Failure TextSpool :=
  let values := #v[entry.key, entry.node, entry.rowid]
  let stop := prefixEnd entry.text
  -- a copy behind the tuple, or from behind the text, panics
  if 48 < stop ∨ (asBytes entry.text).length < stop then .error .panic
  else if spool.isSealed then .error (.error "text index tuple spool is already sealed")
  else if Record.usizeMax < spool.rows + 1 then .error (.error "too many text index tuples")
  else
    .ok { spool with
      tuples := spool.tuples ++
        [{ values, text := overwrite (List.replicate 48 0) 0 ((asBytes entry.text).take stop) }]
      rows := spool.rows + 1
      minimum := .ofFn fun field => min (spool.minimum.get field) (ordered (values.get field))
      maximum := .ofFn fun field => max (spool.maximum.get field) (ordered (values.get field))
      prefixBytes := max spool.prefixBytes stop }

/-- A spool after some pushes. -/
def TextSpool.pushAll (spool : TextSpool) : List Entry → Except Failure TextSpool
  | [] => .ok spool
  | entry :: rest => do
      let spool ← spool.push entry
      spool.pushAll rest

/-! ## What the prefix is -/

/-- The first twelve characters of a text, up to the first NUL. -/
def prefixChars (text : List Char) : List Char := (text.take 12).takeWhile (· ≠ Char.ofNat 0)

/-- `substr(text, 1, 12)` -/
def prefixOf (text : String) : String := .ofList (prefixChars text.toList)

/-- The prefix of a text: its first characters. -/
theorem asBytes_prefixOf (text : String) :
    asBytes (prefixOf text) = encodeAll (prefixChars text.toList) := by
  rw [asBytes_eq, prefixOf, String.toList_ofList]

/-- The last end of the characters up to a first NUL. -/
theorem charIndices_end (n : Nat) : ∀ (text : List Char) (start : Nat),
    ((((charIndices start text).take n).takeWhile fun (_, c) => c ≠ Char.ofNat 0).map
        fun (start, c) => start + (encode c).length).getLast?.getD start
      = start + (encodeAll ((text.take n).takeWhile (· ≠ Char.ofNat 0))).length := by
  induction n with
  | zero => simp
  | succ n ih =>
      intro text start
      cases text with
      | nil => simp [charIndices]
      | cons c text =>
          rw [charIndices, List.take_succ_cons, List.take_succ_cons]
          by_cases hc : c = Char.ofNat 0
          · simp [hc]
          · have hlast := ih text (start + (encode c).length)
            rw [List.takeWhile_cons_of_pos (by simpa using hc),
              List.takeWhile_cons_of_pos (by simpa using hc), List.map_cons, encodeAll_cons,
              List.length_append, List.getLast?_cons, Option.getD_some, hlast, Nat.add_assoc]

/-- The general path cuts behind these characters. -/
theorem generalEnd_eq (text : String) :
    generalEnd text = (encodeAll (prefixChars text.toList)).length := by
  have hlast := charIndices_end 12 text.toList 0
  rw [Nat.zero_add] at hlast
  exact hlast

/-- Bytes that are ASCII are characters. -/
theorem untilZero_take : ∀ (n : Nat) (text : List Char),
    (∀ b ∈ (encodeAll text).take n, b.toNat < 128) →
    untilZero ((encodeAll text).take n)
      = (encodeAll ((text.take n).takeWhile (· ≠ Char.ofNat 0))).length
  | 0, _, _ => by simp [untilZero]
  | _ + 1, [], _ => by simp [untilZero]
  | n + 1, c :: text, h => by
      obtain ⟨first, tail, hc, -, -⟩ := encode_shape c
      have hfirst : first.toNat < 128 := h first (by simp [hc])
      obtain ⟨hone, hzero⟩ := encode_of_ascii hc hfirst
      rw [encodeAll_cons, hone, List.singleton_append, List.take_succ_cons] at h ⊢
      have ih := untilZero_take n text fun b hb => h b (List.mem_cons_of_mem _ hb)
      rw [List.take_succ_cons, untilZero, List.findIdx?_cons]
      by_cases hnul : c = Char.ofNat 0
      · simp [hzero.mpr hnul, hnul]
      · have hne : (first == 0) = false := by simpa using fun heq => hnul (hzero.mp heq)
        rw [untilZero] at ih
        rw [List.takeWhile_cons_of_pos (by simpa using hnul), encodeAll_cons, hone,
          List.singleton_append, List.length_cons, List.length_cons, ← ih, hne]
        cases ((encodeAll text).take n).findIdx? (· == 0) <;> rfl

/-- Both ways find the end of the prefix. -/
theorem prefixEnd_eq (text : String) :
    prefixEnd text = (asBytes (prefixOf text)).length := by
  have htake : (asBytes text).take (min (asBytes text).length 12)
      = (encodeAll text.toList).take 12 := by
    rw [← asBytes_eq, Nat.min_comm, ← List.take_eq_take_min]
  rw [prefixEnd, htake, asBytes_prefixOf]
  split
  · next hascii =>
      refine untilZero_take 12 text.toList fun b hb => ?_
      simpa using List.all_eq_true.mp hascii b hb
  · exact generalEnd_eq text

/-- The prefix of a text begins it. -/
theorem take_prefixEnd (text : String) :
    (asBytes text).take (prefixEnd text) = asBytes (prefixOf text) := by
  obtain ⟨rest, hrest⟩ : prefixChars text.toList <+: text.toList :=
    (List.takeWhile_prefix _).trans (List.take_prefix _ _)
  have htext : asBytes text = asBytes (prefixOf text) ++ encodeAll rest := by
    rw [asBytes_prefixOf, ← encodeAll_append, hrest, asBytes_eq]
  rw [prefixEnd_eq, htext, List.take_left]

/-- A prefix has 48 bytes at most. -/
theorem length_prefixOf_le (text : String) : (asBytes (prefixOf text)).length ≤ 48 := by
  have hchars : (prefixChars text.toList).length ≤ 12 :=
    (List.takeWhile_prefix _).length_le.trans (List.length_take_le _ _)
  have hbytes : ∀ chars : List Char, (encodeAll chars).length ≤ 4 * chars.length := by
    intro chars
    induction chars with
    | nil => exact Nat.le_refl 0
    | cons c chars ih =>
        have hc := length_encode_le c
        rw [encodeAll_cons, List.length_append, List.length_cons]
        omega
  rw [asBytes_prefixOf]
  exact (hbytes _).trans (Nat.mul_le_mul_left 4 hchars)

/-- A prefix has no zero byte. -/
theorem zero_notMem_prefixOf (text : String) : (0 : UInt8) ∉ asBytes (prefixOf text) := by
  rw [asBytes_prefixOf, encodeAll, List.mem_flatMap]
  rintro ⟨c, hc, hzero⟩
  have hne := List.mem_takeWhile_imp hc
  exact zero_notMem_encode (by simpa using hne) hzero

/-! ## What a spool holds -/

/-- Bytes with zeros behind them. -/
def padTo (n : Nat) (bytes : Bytes) : Bytes := bytes ++ List.replicate (n - bytes.length) 0

/-- A padded prefix has its full length. -/
theorem length_padTo {n : Nat} {bytes : Bytes} (h : bytes.length ≤ n) :
    (padTo n bytes).length = n := by
  rw [padTo, List.length_append, List.length_replicate]
  omega

/-- The tuple of an entry. -/
def tupleOf (entry : Entry) : TextTuple where
  values := #v[entry.key, entry.node, entry.rowid]
  text := padTo 48 (asBytes (prefixOf entry.text))

/-- What a spool knows of its tuples. -/
structure TextSpool.Ranges (spool : TextSpool) (entries : List Entry) : Prop where
  tuples : spool.tuples = entries.map tupleOf
  rows : spool.rows = entries.length
  within : ∀ entry ∈ entries, ∀ field (h : field < 3),
    spool.minimum[field] ≤ ordered (tupleOf entry).values[field] ∧
      ordered (tupleOf entry).values[field] ≤ spool.maximum[field]
  prefixes : ∀ entry ∈ entries, (asBytes (prefixOf entry.text)).length ≤ spool.prefixBytes
  bound : spool.prefixBytes ≤ 48

/-- A new spool has no ranges to keep. -/
theorem TextSpool.create_ranges : TextSpool.create.Ranges [] where
  tuples := rfl
  rows := rfl
  within _ h := by cases h
  prefixes _ h := by cases h
  bound := by decide

/-- One push. -/
theorem TextSpool.Ranges.push {spool : TextSpool} {entries : List Entry} (h : spool.Ranges entries)
    (hopen : spool.isSealed = false) (hroom : entries.length + 1 < 2 ^ 64) (entry : Entry) :
    ∃ pushed, spool.push entry = .ok pushed ∧ pushed.isSealed = false ∧
      pushed.Ranges (entries ++ [entry]) := by
  have hstop := prefixEnd_eq entry.text
  have hle := length_prefixOf_le entry.text
  have hbytes := congrArg List.length (take_prefixEnd entry.text)
  rw [List.length_take] at hbytes
  have htext : overwrite (List.replicate 48 0) 0 ((asBytes entry.text).take (prefixEnd entry.text))
      = padTo 48 (asBytes (prefixOf entry.text)) := by
    rw [take_prefixEnd, overwrite_zero, padTo, List.drop_replicate]
  rw [TextSpool.push, if_neg (by omega), hopen, if_neg (by simp), htext,
    if_neg (by rw [h.rows]; show ¬ 2 ^ 64 - 1 < _; omega)]
  refine ⟨_, rfl, rfl, ?_, ?_, fun e he field hfield => ?_, fun e he => ?_, ?_⟩
  · show spool.tuples ++ [tupleOf entry] = _
    rw [h.tuples, List.map_append]
    rfl
  · show spool.rows + 1 = _
    rw [h.rows, List.length_append]
    rfl
  · have hat (words : Vector UInt64 3) : words.get ⟨field, hfield⟩ = words[field] := rfl
    simp only [Vector.getElem_ofFn, hat, UInt64.le_iff_toNat_le, UInt64.toNat_min,
      UInt64.toNat_max]
    rcases List.mem_append.mp he with he | he
    · have hwithin := h.within e he field hfield
      simp only [UInt64.le_iff_toNat_le] at hwithin
      omega
    · rw [List.mem_singleton.mp he]
      exact ⟨Nat.min_le_right _ _, Nat.le_max_right _ _⟩
  · rcases List.mem_append.mp he with he | he
    · exact (h.prefixes e he).trans (Nat.le_max_left _ _)
    · rw [List.mem_singleton.mp he, ← hstop]
      exact Nat.le_max_right _ _
  · exact Nat.max_le.mpr ⟨h.bound, by omega⟩

/-- Pushing entries to a new spool succeeds. -/
theorem TextSpool.create_pushAll {entries : List Entry} (h : entries.length < 2 ^ 64) :
    ∃ spool, TextSpool.create.pushAll entries = .ok spool ∧ spool.isSealed = false ∧
      spool.Ranges entries := by
  have hall : ∀ (rest done : List Entry) (spool : TextSpool), spool.isSealed = false →
      spool.Ranges done → done.length + rest.length < 2 ^ 64 →
      ∃ filled, spool.pushAll rest = .ok filled ∧ filled.isSealed = false ∧
        filled.Ranges (done ++ rest) := by
    intro rest
    induction rest with
    | nil =>
        intro done spool hopen hspool _
        exact ⟨spool, rfl, hopen, by rwa [List.append_nil]⟩
    | cons entry rest ih =>
        intro done spool hopen hspool hroom
        rw [List.length_cons] at hroom
        obtain ⟨pushed, hpush, hopen, hpushed⟩ := hspool.push hopen (by omega) entry
        obtain ⟨filled, hfill, hopen, hfilled⟩ := ih (done ++ [entry]) pushed hopen hpushed (by
          rw [List.length_append, List.length_singleton]
          omega)
        rw [List.append_assoc, List.singleton_append] at hfilled
        exact ⟨filled, Results.bind_eq_ok_iff.mpr ⟨pushed, hpush, hfill⟩, hopen, hfilled⟩
  exact hall entries [] .create rfl TextSpool.create_ranges (by rwa [List.length_nil, Nat.zero_add])

end Velr.TextIndex
