import Velr.Common.Utf8

/-!
# Parsing a CSV record

`parse_record` and `parse_unquoted_record` of `import/csv.rs`, over the raw bytes of a record and
offsets into them. A field is a span of the raw bytes, or a text decoded from them where quotes or
backslashes were escaped.
-/

namespace Velr.Csv

open ByteString Utf8

/-- What the parsers take from `Options`: the delimiter and the quote stand for their bytes. -/
structure Dialect where
  delimiter : Char
  quote : Char
  legacy : Bool
  trim : Bool
  limit : Nat

/-- `FieldText` -/
inductive FieldText where
  | span (start stop : Nat)
  | decoded (text : String)
deriving DecidableEq

/-- `Field` -/
structure Field where
  text : FieldText
  quoted : Bool
deriving DecidableEq

/-- `Parsed`, with the fields of a complete record. -/
inductive Parsed where
  | complete (fields : List Field)
  | more
deriving DecidableEq

/-- `b'\n'` -/
def lf : UInt8 := 10

/-- `b'\r'` -/
def cr : UInt8 := 13

/-- `b'\\'` -/
def backslash : UInt8 := 92

/-- `memchr::memchr` -/
def memchr (b : UInt8) (bytes : Bytes) : Option Nat := bytes.findIdx? (· == b)

/-- `memchr::memchr_iter`, from offset `i` on. -/
def memchrIter (b : UInt8) : Nat → Bytes → List Nat
  | _, [] => []
  | i, x :: bytes => if x == b then i :: memchrIter b (i + 1) bytes else memchrIter b (i + 1) bytes

/-- `raw[start..stop]` -/
def between (raw : Bytes) (start stop : Nat) : Bytes := (raw.take stop).drop start

/-- `raw[position..stop].starts_with(token)` -/
def startsWith (c : Char) (raw : Bytes) (position stop : Nat) : Bool :=
  (encode c).isPrefixOf (between raw position stop)

/-- `field_length` -/
def fieldLength (length limit : Nat) : Except String Unit :=
  if limit < length then .error s!"CSV field exceeds --read-buffer-size ({limit})" else .ok ()

/-! ## Records without quotes -/

/-- The fields between single-byte delimiters. -/
def splitAt (raw : Bytes) (limit : Nat) : Nat → List Nat → Except String (List Field)
  | start, [] => do
      fieldLength (raw.length - start) limit
      pure [{ text := .span start raw.length, quoted := false }]
  | start, stop :: stops => do
      fieldLength (stop - start) limit
      let fields ← splitAt raw limit (stop + 1) stops
      pure ({ text := .span start stop, quoted := false } :: fields)

/-- The fields between delimiters of several bytes. -/
def splitScan (delimiter : Char) (raw : Bytes) (limit start position : Nat) :
    Except String (List Field) :=
  if position < raw.length then
    if startsWith delimiter raw position raw.length then do
      fieldLength (position - start) limit
      let position' := position + (encode delimiter).length
      let fields ← splitScan delimiter raw limit position' position'
      pure ({ text := .span start position, quoted := false } :: fields)
    else splitScan delimiter raw limit start (position + 1)
  else do
    fieldLength (raw.length - start) limit
    pure [{ text := .span start raw.length, quoted := false }]
termination_by raw.length - position
decreasing_by
  · have := length_encode_pos delimiter
    omega
  · omega

/-- `parse_unquoted_record` -/
def parseUnquotedRecord (raw : Bytes) (delimiter : Char) (limit : Nat) :
    Except String (List Field) :=
  match encode delimiter with
  | [b] => splitAt raw limit 0 (memchrIter b 0 raw)
  | _ => splitScan delimiter raw limit 0 0

/-! ## Quoted fields -/

/-- The bytes of a record without its terminator. -/
def recordEnd (raw : Bytes) : Nat :=
  let stop := raw.length
  if 0 < stop ∧ raw[stop - 1]? = some lf then
    let stop := stop - 1
    if 0 < stop ∧ raw[stop - 1]? = some cr then stop - 1 else stop
  else if 0 < stop ∧ raw[stop - 1]? = some cr then stop - 1
  else stop

/-- Where a character's byte is found it is not at the start. -/
theorem memchr_pos {c : Char} {b : UInt8} {raw : Bytes} {position stop offset : Nat}
    (hc : encode c = [b]) (h : ¬ startsWith c raw position stop = true)
    (hfind : memchr b (between raw position stop) = some offset) : 0 < offset := by
  cases offset with
  | succ offset => exact Nat.succ_pos offset
  | zero =>
      refine absurd ?_ h
      rw [startsWith, hc]
      cases hrest : between raw position stop with
      | nil => rw [hrest] at hfind; cases hfind
      | cons x rest =>
          rw [hrest, memchr, List.findIdx?_cons] at hfind
          split at hfind
          · next hx => simpa using (beq_iff_eq.mp hx).symm
          · cases hrec : rest.findIdx? (· == b) <;> simp [hrec] at hfind

/-- The loop over a quoted field whose text begins at `text_start`: `none` when the record goes on
behind `stop`, otherwise the position behind the closing quote, with `output` and `escaped`. -/
def quotedLoop (d : Dialect) (raw : Bytes) (stop textStart position span : Nat) (output : Bytes)
    (escaped : Bool) : Except String (Option (Nat × Bytes × Bool)) :=
  let width := (encode d.quote).length
  if stop ≤ position then do
    fieldLength (output.length + stop - span) d.limit
    pure none
  else if _hquote : startsWith d.quote raw position stop then
    let output := if escaped then output ++ between raw span position else output
    match fieldLength (if escaped then output.length else position - textStart) d.limit with
    | .error e => .error e
    | .ok () =>
        if startsWith d.quote raw (position + width) stop then
          let output := if escaped then output else output ++ between raw textStart position
          quotedLoop d raw stop textStart (position + width + width) (position + width + width)
            (output ++ encode d.quote) true
        else if position + width < stop ∧ !startsWith d.delimiter raw (position + width) stop then
          .error "unexpected data after closing quote"
        else .ok (some (position + width, output, escaped))
  else if d.legacy ∧ raw[position]? = some backslash ∧
    startsWith d.quote raw (position + 1) stop then
    quotedLoop d raw stop textStart (position + 1 + width) (position + 1 + width)
      (output ++ between raw span position ++ encode d.quote) true
  else if d.legacy ∧ raw[position]? = some backslash ∧ raw[position + 1]? = some backslash then
    let output := output ++ between raw span position ++ [backslash]
    match fieldLength output.length d.limit with
    | .error e => .error e
    | .ok () => quotedLoop d raw stop textStart (position + 2) (position + 2) output true
  else
    match hbyte : encode d.quote, d.legacy with
    -- `quote.len() == 1 && !legacy`: on to the next quote.
    | [b], false =>
        match _hfind : memchr b (between raw position stop) with
        | some offset => quotedLoop d raw stop textStart (position + offset) span output escaped
        | none => do
            fieldLength (output.length + stop - span) d.limit
            pure none
    | _, _ => quotedLoop d raw stop textStart (position + 1) span output escaped
termination_by stop - position
decreasing_by
  · have := length_encode_pos d.quote
    omega
  · have := length_encode_pos d.quote
    omega
  · omega
  · have := memchr_pos hbyte _hquote _hfind
    omega
  · omega

/-- The spaces and tabs before a field. -/
def trimStart (d : Dialect) (raw : Bytes) (stop position : Nat) : Nat :=
  if position < stop ∧ (raw[position]? = some 32 ∨ raw[position]? = some 9) ∧
      !startsWith d.delimiter raw position stop then
    trimStart d raw stop (position + 1)
  else position
termination_by stop - position

/-- The end of an unquoted field, for a delimiter of several bytes. -/
def scanDelimiter (delimiter : Char) (raw : Bytes) (stop position : Nat) : Nat :=
  if position < stop ∧ !startsWith delimiter raw position stop then
    scanDelimiter delimiter raw stop (position + 1)
  else position
termination_by stop - position

/-- The end of an unquoted field. -/
def unquotedEnd (delimiter : Char) (raw : Bytes) (stop fieldStart : Nat) : Nat :=
  match encode delimiter with
  | [b] => fieldStart + (memchr b (between raw fieldStart stop)).getD (stop - fieldStart)
  | _ => scanDelimiter delimiter raw stop fieldStart

/-- One field from `field_start` on, and the position behind it; `none` when a quoted field goes on
behind the record. -/
def parseField (d : Dialect) (raw : Bytes) (stop fieldStart : Nat) :
    Except String (Option (Field × Nat)) :=
  let position := if d.trim then trimStart d raw stop fieldStart else fieldStart
  if startsWith d.quote raw position stop then
    let textStart := position + (encode d.quote).length
    match quotedLoop d raw stop textStart textStart textStart [] false with
    | .error e => .error e
    | .ok none => .ok none
    | .ok (some (position, output, true)) =>
        match fromUtf8 output with
        | none => .error "CSV field is not valid UTF-8"
        | some text => .ok (some ({ text := .decoded text, quoted := true }, position))
    | .ok (some (position, _, false)) =>
        .ok (some ({ text := .span textStart (position - (encode d.quote).length), quoted := true },
          position))
  else
    let position := unquotedEnd d.delimiter raw stop fieldStart
    match fieldLength (position - fieldStart) d.limit with
    | .error e => .error e
    | .ok () => .ok (some ({ text := .span fieldStart position, quoted := false }, position))

/-! ### Positions only advance -/

/-- A record that goes on has no field yet. -/
theorem more_ne {α : Type} {length limit : Nat} {result : α} :
    (do fieldLength length limit; pure none) ≠ (.ok (some result) : Except String (Option α)) := by
  unfold fieldLength
  split <;> intro h <;> cases h

/-- The loop of a quoted field does not go back. -/
theorem quotedLoop_ge {d : Dialect} {raw : Bytes} {stop textStart position span : Nat}
    {output : Bytes} {escaped : Bool} {result : Nat × Bytes × Bool}
    (h : quotedLoop d raw stop textStart position span output escaped = .ok (some result)) :
    position ≤ result.1 := by
  fun_induction quotedLoop d raw stop textStart position span output escaped with
  | case1 | case10 => exact absurd h more_ne
  | case2 | case4 | case7 => cases h
  | case3 _ _ _ _ _ _ _ _ _ _ _ ih | case6 _ _ _ _ _ _ _ _ ih | case8 _ _ _ _ _ _ _ _ _ _ ih
  | case9 _ _ _ _ _ _ _ _ _ _ _ _ _ ih | case11 _ _ _ _ _ _ _ _ _ ih =>
      have := ih h
      omega
  | case5 => cases h; exact Nat.le_add_right _ _

/-- Neither does the skipping of spaces. -/
theorem trimStart_ge (d : Dialect) (raw : Bytes) (stop position : Nat) :
    position ≤ trimStart d raw stop position := by
  fun_induction trimStart d raw stop position with
  | case1 position _ ih => omega
  | case2 position _ => exact Nat.le_refl _

/-- Neither does the search for a delimiter. -/
theorem scanDelimiter_ge (delimiter : Char) (raw : Bytes) (stop position : Nat) :
    position ≤ scanDelimiter delimiter raw stop position := by
  fun_induction scanDelimiter delimiter raw stop position with
  | case1 position _ ih => omega
  | case2 position _ => exact Nat.le_refl _

theorem unquotedEnd_ge (delimiter : Char) (raw : Bytes) (stop fieldStart : Nat) :
    fieldStart ≤ unquotedEnd delimiter raw stop fieldStart := by
  unfold unquotedEnd
  split
  · exact Nat.le_add_right _ _
  · exact scanDelimiter_ge _ _ _ _

/-- So no field ends before it begins. -/
theorem parseField_ge {d : Dialect} {raw : Bytes} {stop fieldStart : Nat} {field : Field}
    {next : Nat} (h : parseField d raw stop fieldStart = .ok (some (field, next))) :
    fieldStart ≤ next := by
  have htrim : fieldStart ≤ if d.trim then trimStart d raw stop fieldStart else fieldStart := by
    split
    · exact trimStart_ge d raw stop fieldStart
    · exact Nat.le_refl _
  unfold parseField at h
  generalize (if d.trim then trimStart d raw stop fieldStart else fieldStart) = position at h htrim
  simp only at h
  split at h
  · split at h
    · cases h
    · cases h
    · next hloop =>
        have := quotedLoop_ge hloop
        split at h
        · cases h
        · cases h
          omega
    · next hloop =>
        have := quotedLoop_ge hloop
        cases h
        omega
  · have hend := unquotedEnd_ge d.delimiter raw stop fieldStart
    split at h
    · cases h
    · cases h
      exact hend

/-- The loop over the fields of a record. -/
def parseFields (d : Dialect) (raw : Bytes) (stop position : Nat) : Except String Parsed :=
  match _hfield : parseField d raw stop position with
  | .error e => .error e
  | .ok none => .ok .more
  | .ok (some (field, next)) =>
      if next = stop then .ok (.complete [field])
      else if stop < next + (encode d.delimiter).length then
        .error "invalid CSV delimiter boundary"
      else
        match parseFields d raw stop (next + (encode d.delimiter).length) with
        | .error e => .error e
        | .ok .more => .ok .more
        | .ok (.complete fields) => .ok (.complete (field :: fields))
termination_by stop - position
decreasing_by
  have := parseField_ge _hfield
  have := length_encode_pos d.delimiter
  omega

/-- `parse_record` -/
def parseRecord (d : Dialect) (raw : Bytes) : Except String Parsed :=
  parseFields d raw (recordEnd raw) 0

end Velr.Csv
