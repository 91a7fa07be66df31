import Velr.Csv.Reader

/-!
# Spans lie on character boundaries

`Record::iter` slices the record at the spans of its fields. Each span begins and ends where a
delimiter, a quote or the record's terminator does, so it can be cut out of a text.
-/

namespace Velr.Csv

open ByteString Utf8

variable {d : Dialect} {raw : Bytes} {stop : Nat}

/-! ## Tokens in a record -/

/-- A token found in `raw[..stop]` stands in `raw`, and in front of `stop`. -/
theorem startsWith_drop {c : Char} {position : Nat} (h : startsWith c raw position stop = true) :
    (∃ rest, raw.drop position = encode c ++ rest) ∧ position + (encode c).length ≤ stop ∧
      position + (encode c).length ≤ raw.length := by
  rw [startsWith, List.isPrefixOf_iff_prefix] at h
  obtain ⟨rest, hrest⟩ := h
  have hlen := congrArg List.length hrest
  simp only [between, List.length_append, List.length_drop, List.length_take] at hlen
  have hpos := length_encode_pos c
  refine ⟨⟨rest ++ raw.drop stop, ?_⟩, by omega, by omega⟩
  have hle : position ≤ (raw.take stop).length := by
    rw [List.length_take]
    omega
  rw [← List.append_assoc, hrest, between, ← List.drop_append_of_le_length hle,
    List.take_append_drop]

/-- A token of one byte stands where its byte is. -/
theorem startsWith_of_memchr {c : Char} {b : UInt8} {position offset : Nat}
    (hc : encode c = [b]) (h : memchr b (between raw position stop) = some offset) :
    startsWith c raw (position + offset) stop = true := by
  rw [memchr, List.findIdx?_eq_some_iff_getElem] at h
  obtain ⟨hlt, hb, _⟩ := h
  rw [startsWith, hc, between, ← List.drop_drop, List.drop_eq_getElem_cons (by exact hlt)]
  simp only [List.isPrefixOf, Bool.and_true, beq_iff_eq]
  exact (beq_iff_eq.mp hb).symm

/-- An encoded character begins and ends on boundaries. -/
theorem boundary_of_drop {text : List Char} {c : Char} {offset : Nat} {rest : Bytes}
    (h : (encodeAll text).drop offset = encode c ++ rest) :
    isCharBoundary (encodeAll text) offset = true ∧
      isCharBoundary (encodeAll text) (offset + (encode c).length) = true := by
  obtain ⟨before, after, rfl, rfl⟩ := exists_of_drop h
  exact ⟨isCharBoundary_iff.mpr ⟨before, c :: after, rfl, rfl⟩,
    isCharBoundary_iff.mpr ⟨before ++ [c], after, by simp, by simp⟩⟩

/-- The text between two boundaries. -/
theorem strSlice_isSome {text : List Char} {start stop : Nat} (hle : start ≤ stop)
    (hstop : stop ≤ (encodeAll text).length)
    (h : isCharBoundary (encodeAll text) start = true)
    (h' : isCharBoundary (encodeAll text) stop = true) :
    (strSlice (encodeAll text) start stop).isSome = true := by
  rw [strSlice, if_pos ⟨hle, hstop, h, h'⟩]
  obtain ⟨before, after, rfl, rfl⟩ := isCharBoundary_iff.mp h'
  obtain ⟨before', after', htext, rfl⟩ := isCharBoundary_iff.mp h
  obtain ⟨middle, rfl⟩ : ∃ middle, before = before' ++ middle := by
    rcases List.append_eq_append_iff.mp htext.symm with ⟨middle, hbefore, _⟩ | ⟨middle, hbefore, _⟩
    · exact ⟨middle, hbefore⟩
    · rw [hbefore, encodeAll_append, List.length_append] at hle
      cases middle with
      | nil => exact ⟨[], by simpa using hbefore.symm⟩
      | cons c middle =>
          have := length_encode_pos c
          rw [encodeAll_cons, List.length_append] at hle
          omega
  have hbetween : between (encodeAll (before' ++ middle ++ after)) (encodeAll before').length
      (encodeAll (before' ++ middle)).length = encodeAll middle := by
    rw [between, encodeAll_append _ after, List.take_left, encodeAll_append, List.drop_left]
  rw [hbetween, fromUtf8_encodeAll]
  rfl

/-! ## Fields -/

/-- A text that can be read off the record. -/
def FieldText.Within (raw : Bytes) : FieldText → Prop
  | .span start stop =>
      start ≤ stop ∧ stop ≤ raw.length ∧ isCharBoundary raw start = true ∧
        isCharBoundary raw stop = true
  | .decoded _ => True

/-- A quoted field ends with a quote, and in front of a delimiter if the record goes on. -/
theorem quotedLoop_close {textStart position span : Nat} {output : Bytes} {escaped : Bool}
    {result : Nat × Bytes × Bool}
    (h : quotedLoop d raw stop textStart position span output escaped = .ok (some result)) :
    ∃ close, result.1 = close + (encode d.quote).length ∧ position ≤ close ∧
      startsWith d.quote raw close stop = true ∧
      (result.1 < stop → startsWith d.delimiter raw result.1 stop = true) := by
  fun_induction quotedLoop d raw stop textStart position span output escaped with
  | case1 | case10 => exact absurd h more_ne
  | case2 | case4 | case7 => cases h
  | case3 _ _ _ _ _ _ _ _ _ _ _ ih | case6 _ _ _ _ _ _ _ _ ih | case8 _ _ _ _ _ _ _ _ _ _ ih
  | case9 _ _ _ _ _ _ _ _ _ _ _ _ _ ih | case11 _ _ _ _ _ _ _ _ _ ih =>
      obtain ⟨close, hclose, hle, hquote⟩ := ih h
      exact ⟨close, hclose, by omega, hquote⟩
  | case5 position span output escaped _ _ hquote _ _ _ hclosed =>
      cases h
      refine ⟨position, rfl, Nat.le_refl _, hquote, fun hlt => ?_⟩
      by_contra hdelimiter
      exact hclosed ⟨hlt, by simpa using hdelimiter⟩

/-- An unquoted field ends with the record or in front of a delimiter. -/
theorem unquotedEnd_close (d : Dialect) (raw : Bytes) {fieldStart : Nat} (hle : fieldStart ≤ stop) :
    unquotedEnd d.delimiter raw stop fieldStart ≤ stop ∧
      (unquotedEnd d.delimiter raw stop fieldStart < stop →
        startsWith d.delimiter raw (unquotedEnd d.delimiter raw stop fieldStart) stop = true) := by
  unfold unquotedEnd
  split
  · next b hb =>
      cases hfind : memchr b (between raw fieldStart stop) with
      | none =>
          rw [Option.getD_none, Nat.add_sub_cancel' hle]
          exact ⟨Nat.le_refl _, fun h => absurd h (Nat.lt_irrefl _)⟩
      | some offset =>
          have hfound := startsWith_of_memchr hb hfind
          have := (startsWith_drop hfound).2.1
          rw [Option.getD_some]
          exact ⟨by omega, fun _ => hfound⟩
  · fun_induction scanDelimiter d.delimiter raw stop fieldStart with
    | case1 position h ih => exact ih h.1
    | case2 position h =>
        refine ⟨hle, fun hlt => ?_⟩
        by_contra hdelimiter
        exact h ⟨hlt, by simpa using hdelimiter⟩

/-- The bytes of a record end on a boundary. -/
theorem recordEnd_boundary (raw : Bytes) :
    recordEnd raw ≤ raw.length ∧ isCharBoundary raw (recordEnd raw) = true := by
  have hbyte {offset : Nat} {b : UInt8} (h : raw[offset]? = some b)
      (hb : isContinuation b = false) :
      isCharBoundary raw offset = true := by
    simp [isCharBoundary, h, hb]
  have hlf : isContinuation lf = false := by decide
  have hcr : isContinuation cr = false := by decide
  unfold recordEnd
  simp only
  split
  · next h =>
      split
      · next h' => exact ⟨by omega, hbyte h'.2 hcr⟩
      · exact ⟨by omega, hbyte h.2 hlf⟩
  · split
    · next h => exact ⟨by omega, hbyte h.2 hcr⟩
    · exact ⟨Nat.le_refl _, by simp [isCharBoundary]⟩

/-- A field's text can be read off the record, and ends with the record or in front of a
delimiter. -/
theorem parseField_within {text : List Char} {fieldStart next : Nat} {field : Field}
    (hle : fieldStart ≤ stop) (hstop : stop ≤ (encodeAll text).length)
    (hstart : isCharBoundary (encodeAll text) fieldStart = true)
    (hboundary : isCharBoundary (encodeAll text) stop = true)
    (h : parseField d (encodeAll text) stop fieldStart = .ok (some (field, next))) :
    field.text.Within (encodeAll text) ∧ next ≤ stop ∧
      (next < stop → startsWith d.delimiter (encodeAll text) next stop = true) := by
  unfold parseField at h
  generalize (if d.trim then trimStart d (encodeAll text) stop fieldStart else fieldStart) =
    position at h
  simp only at h
  split at h
  · next hopen =>
      obtain ⟨⟨_, hrest⟩, _⟩ := startsWith_drop hopen
      have htext := (boundary_of_drop hrest).2
      split at h
      · cases h
      · cases h
      · next hloop =>
          obtain ⟨close, hclose, _, hquote, hnext⟩ := quotedLoop_close hloop
          have := (startsWith_drop hquote).2.1
          split at h
          · cases h
          · cases h
            exact ⟨trivial, by omega, hnext⟩
      · next hloop =>
          obtain ⟨close, hclose, hge, hquote, hnext⟩ := quotedLoop_close hloop
          obtain ⟨⟨_, hrest'⟩, hlt, _⟩ := startsWith_drop hquote
          cases h
          dsimp only at hclose hnext
          refine ⟨⟨by omega, by omega, htext, ?_⟩, by omega, hnext⟩
          rw [hclose, Nat.add_sub_cancel]
          exact (boundary_of_drop hrest').1
  · obtain ⟨hend, hnext⟩ := unquotedEnd_close d (encodeAll text) hle
    have hge := unquotedEnd_ge d.delimiter (encodeAll text) stop fieldStart
    split at h
    · cases h
    · cases h
      refine ⟨⟨hge, by omega, hstart, ?_⟩, hend, hnext⟩
      rcases Nat.lt_or_eq_of_le hend with hlt | heq
      · obtain ⟨⟨_, hrest⟩, _⟩ := startsWith_drop (hnext hlt)
        exact (boundary_of_drop hrest).1
      · rw [heq]
        exact hboundary

/-- The spans of the fields are on the boundaries of characters. -/
theorem parseFields_within {text : List Char} {position : Nat} {fields : List Field}
    (hle : position ≤ stop) (hstop : stop ≤ (encodeAll text).length)
    (hstart : isCharBoundary (encodeAll text) position = true)
    (hboundary : isCharBoundary (encodeAll text) stop = true)
    (h : parseFields d (encodeAll text) stop position = .ok (.complete fields)) :
    ∀ field ∈ fields, field.text.Within (encodeAll text) := by
  fun_induction parseFields d (encodeAll text) stop position generalizing fields with
  | case1 | case2 | case4 | case5 | case6 => cases h
  | case3 position field hfield =>
      cases h
      simpa using (parseField_within hle hstop hstart hboundary hfield).1
  | case7 position field next hfield hne hfits fields' hfields ih =>
      obtain ⟨hwithin, hnext, hdelimiter⟩ := parseField_within hle hstop hstart hboundary hfield
      obtain ⟨⟨_, hrest⟩, _⟩ := startsWith_drop (hdelimiter (by omega))
      cases h
      intro f hf
      rcases List.mem_cons.mp hf with rfl | hf
      · exact hwithin
      · exact ih (by omega) (boundary_of_drop hrest).2 hfields f hf

/-! ## Records -/

/-- Spans on the boundaries are texts. -/
theorem mapM_cell_isSome {text : List Char} {fields : List Field}
    (h : ∀ field ∈ fields, field.text.Within (encodeAll text)) :
    (fields.mapM (Field.cell (encodeAll text))).isSome = true := by
  induction fields with
  | nil => rfl
  | cons field fields ih =>
      have hcell : (field.cell (encodeAll text)).isSome = true := by
        have hwithin := h field List.mem_cons_self
        unfold Field.cell
        cases htext : field.text with
        | decoded text => rfl
        | span start stop =>
            rw [htext] at hwithin
            simpa using strSlice_isSome hwithin.1 hwithin.2.1 hwithin.2.2.1 hwithin.2.2.2
      have hcells := ih fun f hf => h f (List.mem_cons_of_mem _ hf)
      obtain ⟨cell, hcell⟩ := Option.isSome_iff_exists.mp hcell
      obtain ⟨cells, hcells⟩ := Option.isSome_iff_exists.mp hcells
      simp [List.mapM_cons, hcell, hcells]

/-- The fields of a record that the parser returns lie in it, on character boundaries. -/
theorem parseRecord_within {raw : Bytes} {fields : List Field} {text : String}
    (hparse : parseRecord d raw = .ok (.complete fields)) (htext : fromUtf8 raw = some text) :
    ∀ field ∈ fields, field.text.Within raw := by
  have hraw := fromUtf8_some htext
  rw [asBytes_eq] at hraw
  obtain ⟨hstop, hboundary⟩ := recordEnd_boundary raw
  rw [parseRecord] at hparse
  subst hraw
  exact parseFields_within (Nat.zero_le _) hstop rfl hboundary hparse

/-- Iterating a record whose fields lie in it does not panic. -/
theorem Record.cells_isSome {record : Record} {text : String}
    (htext : fromUtf8 record.raw = some text)
    (h : ∀ field ∈ record.fields, field.text.Within record.raw) : record.cells.isSome = true := by
  have hraw := fromUtf8_some htext
  rw [asBytes_eq] at hraw
  rw [Record.cells]
  rw [← hraw] at h ⊢
  exact mapM_cell_isSome h

end Velr.Csv
