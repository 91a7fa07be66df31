import Velr.Csv.Spans
import Velr.Csv.Lines

/-!
# The fast path of the reader

A line without quotes is split where it lies in the buffer. `next_agrees` says that this gives the
record which the slow path reads from the same bytes, and leaves the reader with the same bytes to
come.
-/

namespace Velr.Csv

open ByteString Utf8

variable {d : Dialect} {raw : Bytes} {stop : Nat}

/-! ## Records without quotes -/

/-- The fields of a record, the first one apart. -/
theorem parseFields_eq (d : Dialect) (raw : Bytes) (stop position : Nat) :
    parseFields d raw stop position =
      match parseField d raw stop position with
      | .error e => .error e
      | .ok none => .ok .more
      | .ok (some (field, next)) =>
          if next = stop then .ok (.complete [field])
          else if stop < next + (encode d.delimiter).length then
            .error "invalid CSV delimiter boundary"
          else
            match parseFields d raw stop (next + (encode d.delimiter).length) with
            | .error e => .error e
            | .ok .more => .ok .more
            | .ok (.complete fields) => .ok (.complete (field :: fields)) := by
  rw [parseFields]
  split
  · next h => rw [h]
  · next h => rw [h]
  · next h => exact h ▸ rfl

/-- A field of a record without quotes. -/
theorem parseField_unquoted (hquote : ∀ position, startsWith d.quote raw position stop = false)
    (fieldStart : Nat) :
    parseField d raw stop fieldStart =
      match fieldLength (unquotedEnd d.delimiter raw stop fieldStart - fieldStart) d.limit with
      | .error e => .error e
      | .ok () =>
          let next := unquotedEnd d.delimiter raw stop fieldStart
          .ok (some ({ text := .span fieldStart next, quoted := false }, next)) := by
  rw [parseField]
  exact if_neg (by rw [hquote]; exact Bool.false_ne_true)

/-- The fields of a record without quotes. -/
theorem parseFields_unquoted (hquote : ∀ position, startsWith d.quote raw position stop = false)
    {fieldStart : Nat} (hle : fieldStart ≤ stop) :
    parseFields d raw stop fieldStart =
      match fieldLength (unquotedEnd d.delimiter raw stop fieldStart - fieldStart) d.limit with
      | .error e => .error e
      | .ok () =>
          let next := unquotedEnd d.delimiter raw stop fieldStart
          let field : Field := { text := .span fieldStart next, quoted := false }
          if next = stop then .ok (.complete [field])
          else
            match parseFields d raw stop (next + (encode d.delimiter).length) with
            | .error e => .error e
            | .ok .more => .ok .more
            | .ok (.complete fields) => .ok (.complete (field :: fields)) := by
  rw [parseFields_eq, parseField_unquoted hquote]
  obtain ⟨hend, hnext⟩ := unquotedEnd_close d raw hle
  cases fieldLength (unquotedEnd d.delimiter raw stop fieldStart - fieldStart) d.limit with
  | error e => rfl
  | ok _ =>
      simp only
      split
      · rfl
      · next hne =>
          rw [if_neg]
          have := (startsWith_drop (hnext (by omega))).2.1
          omega

/-- The delimiters of a record, one after the other. -/
theorem memchrIter_eq (b : UInt8) (bytes : Bytes) (i : Nat) :
    memchrIter b i bytes =
      match memchr b bytes with
      | none => []
      | some offset => (i + offset) :: memchrIter b (i + offset + 1) (bytes.drop (offset + 1)) := by
  induction bytes generalizing i with
  | nil => rfl
  | cons x bytes ih =>
      rw [memchrIter, memchr, List.findIdx?_cons]
      split
      · rfl
      · rw [ih, memchr]
        cases bytes.findIdx? (· == b) with
        | none => rfl
        | some offset => simp [Nat.add_assoc, Nat.add_comm 1]

/-- A single-byte delimiter splits as the slow path does. -/
theorem splitAt_eq {b : UInt8} (hb : encode d.delimiter = [b])
    (hquote : ∀ position, startsWith d.quote raw position stop = false)
    (hstop : stop ≤ raw.length) {fieldStart : Nat} (hle : fieldStart ≤ stop) :
    parseFields d raw stop fieldStart =
      (splitAt (raw.take stop) d.limit fieldStart
        (memchrIter b fieldStart (between raw fieldStart stop))).map Parsed.complete := by
  have hlen : (raw.take stop).length = stop := by
    rw [List.length_take]
    omega
  rw [parseFields_unquoted hquote hle, memchrIter_eq]
  cases hfind : memchr b (between raw fieldStart stop) with
  | none =>
      have hend : unquotedEnd d.delimiter raw stop fieldStart = stop := by
        simp only [unquotedEnd, hb, hfind, Option.getD_none]
        omega
      rw [hend, splitAt, hlen]
      cases fieldLength (stop - fieldStart) d.limit with
      | error e => rfl
      | ok _ => simp; rfl
  | some offset =>
      have hend : unquotedEnd d.delimiter raw stop fieldStart = fieldStart + offset := by
        simp only [unquotedEnd, hb, hfind, Option.getD_some]
      have hlt : fieldStart + offset < stop := by
        have := (startsWith_drop (startsWith_of_memchr hb hfind)).2.1
        rw [hb] at this
        exact this
      have hrest : (between raw fieldStart stop).drop (offset + 1) =
          between raw (fieldStart + offset + 1) stop := by
        rw [between, List.drop_drop]
        rfl
      rw [hend, if_neg (by omega), hb, splitAt, hrest, Nat.add_sub_cancel_left]
      simp only [List.length_singleton]
      rw [splitAt_eq hb hquote hstop hlt]
      cases fieldLength offset d.limit with
      | error e => rfl
      | ok _ =>
          simp only
          cases splitAt (raw.take stop) d.limit (fieldStart + offset + 1)
              (memchrIter b (fieldStart + offset + 1)
                (between raw (fieldStart + offset + 1) stop)) with
          | error e => rfl
          | ok fields => rfl
termination_by stop - fieldStart

/-- The scan for a delimiter of several bytes, up to the next one. -/
theorem splitScan_eq_scan {delimiter : Char} {limit start position : Nat}
    (hstop : stop ≤ raw.length) (hle : position ≤ stop) :
    splitScan delimiter (raw.take stop) limit start position =
      let next := scanDelimiter delimiter raw stop position
      if next < stop then do
        fieldLength (next - start) limit
        let position' := next + (encode delimiter).length
        let fields ← splitScan delimiter (raw.take stop) limit position' position'
        pure ({ text := .span start next, quoted := false } :: fields)
      else (do
        fieldLength (stop - start) limit
        pure [{ text := .span start stop, quoted := false }]) := by
  have hlen : (raw.take stop).length = stop := by
    rw [List.length_take]
    omega
  have hstarts (position : Nat) :
      startsWith delimiter (raw.take stop) position stop =
        startsWith delimiter raw position stop := by
    rw [startsWith, startsWith, between, between, List.take_take, Nat.min_self]
  fun_induction scanDelimiter delimiter raw stop position with
  | case1 position h ih =>
      rw [splitScan, hlen, if_pos h.1, hstarts, if_neg (by simpa using h.2)]
      exact ih h.1
  | case2 position h =>
      rw [splitScan, hlen]
      simp only
      split
      · next hlt =>
          rw [hstarts, if_pos]
          by_contra hdelimiter
          exact h ⟨hlt, by simpa using hdelimiter⟩
      · rfl

/-- A delimiter of several bytes splits as the slow path does. -/
theorem splitScan_eq (hb : ∀ b, encode d.delimiter ≠ [b])
    (hquote : ∀ position, startsWith d.quote raw position stop = false)
    (hstop : stop ≤ raw.length) {fieldStart : Nat} (hle : fieldStart ≤ stop) :
    parseFields d raw stop fieldStart =
      (splitScan d.delimiter (raw.take stop) d.limit fieldStart fieldStart).map
        Parsed.complete := by
  obtain ⟨hclose, hnext⟩ := unquotedEnd_close d raw hle
  have hend : unquotedEnd d.delimiter raw stop fieldStart =
      scanDelimiter d.delimiter raw stop fieldStart := by
    unfold unquotedEnd
    split
    · next b h => exact absurd h (hb b)
    · rfl
  rw [parseFields_unquoted hquote hle, splitScan_eq_scan hstop hle, ← hend]
  have hge := unquotedEnd_ge d.delimiter raw stop fieldStart
  generalize unquotedEnd d.delimiter raw stop fieldStart = next at hclose hnext hge
  simp only
  by_cases heq : next = stop
  · subst heq
    rw [if_neg (Nat.lt_irrefl _)]
    cases fieldLength (next - fieldStart) d.limit with
    | error e => rfl
    | ok _ => simp only [if_pos]; rfl
  · have hlt : next < stop := by omega
    have hfits := (startsWith_drop (hnext hlt)).2.1
    have hpos := length_encode_pos d.delimiter
    rw [if_pos hlt, if_neg heq, splitScan_eq hb hquote hstop hfits]
    cases fieldLength (next - fieldStart) d.limit with
    | error e => rfl
    | ok _ =>
        cases splitScan d.delimiter (raw.take stop) d.limit (next + (encode d.delimiter).length)
            (next + (encode d.delimiter).length) with
        | error e => rfl
        | ok fields => rfl
termination_by stop - fieldStart

/-- `parse_unquoted_record` gives the fields that `parse_record` gives. -/
theorem parseUnquotedRecord_eq {q : UInt8} (hq : encode d.quote = [q])
    (hno : q ∉ raw.take (recordEnd raw)) :
    parseRecord d raw =
      (parseUnquotedRecord (raw.take (recordEnd raw)) d.delimiter d.limit).map Parsed.complete := by
  have hstop := (recordEnd_boundary raw).1
  have hquote (position : Nat) : startsWith d.quote raw position (recordEnd raw) = false := by
    by_contra hstarts
    rw [Bool.not_eq_false] at hstarts
    obtain ⟨⟨rest, hrest⟩, hlt, _⟩ := startsWith_drop hstarts
    have hget : raw[position]? = some q := by
      rw [← List.head?_drop, hrest, hq]
      rfl
    rw [hq, List.length_singleton] at hlt
    exact hno (List.mem_of_getElem? (by rw [List.getElem?_take_of_lt hlt, hget]))
  unfold parseUnquotedRecord
  split
  · next b hb =>
      rw [parseRecord, splitAt_eq hb hquote hstop (Nat.zero_le _)]
      rfl
  · next h => exact splitScan_eq h hquote hstop (Nat.zero_le _)

end Velr.Csv
