import Velr.Common.Bytes

/-!
# UTF-8

Characters as bytes. A character's bytes are one leading byte and continuation bytes behind it, so
that an encoded character is found in an encoded text only where a character begins
(`exists_of_drop`), and the boundaries of a text are where its characters begin.
-/

namespace Utf8

open ByteString

/-- The bytes of a character. -/
def encode (c : Char) : Bytes := String.utf8EncodeChar c

/-- The bytes of a text. -/
def encodeAll (text : List Char) : Bytes := text.flatMap encode

/-- The bytes of a string. -/
def asBytes (text : String) : Bytes := text.toByteArray.data.toList

/-- The string that bytes spell, if they do. -/
def fromUtf8 (bytes : Bytes) : Option String := String.fromUTF8? ⟨bytes.toArray⟩

/-- A byte that does not begin a character. -/
def isContinuation (b : UInt8) : Bool := b.toNat / 64 == 2

/-- An offset at which a string may be cut. -/
def isCharBoundary (bytes : Bytes) (offset : Nat) : Bool :=
  offset == 0 || offset == bytes.length ||
    match bytes[offset]? with
    | some b => !isContinuation b
    | none => false

theorem encode_ne_nil (c : Char) : encode c ≠ [] := String.utf8EncodeChar_ne_nil

theorem length_encode_pos (c : Char) : 0 < (encode c).length :=
  List.length_pos_iff.mpr (encode_ne_nil c)

/-- A character is a byte that is no continuation and continuations behind it. -/
theorem encode_shape (c : Char) : ∃ b tail, encode c = b :: tail ∧ isContinuation b = false ∧
    ∀ x ∈ tail, isContinuation x = true := by
  have hvalid : c.val.toNat < 0x110000 := by
    have := c.valid
    simp only [UInt32.isValidChar, Nat.isValidChar] at this
    omega
  unfold encode String.utf8EncodeChar
  generalize c.val.toNat = v at hvalid ⊢
  simp only
  split
  · exact ⟨_, _, rfl, by simp [isContinuation]; omega, by simp⟩
  · split
    · exact ⟨_, _, rfl, by simp [isContinuation]; omega, by simp [isContinuation]; omega⟩
    · split
      · exact ⟨_, _, rfl, by simp [isContinuation]; omega, by simp [isContinuation]; omega⟩
      · exact ⟨_, _, rfl, by simp [isContinuation]; omega, by simp [isContinuation]; omega⟩

theorem length_encode_le (c : Char) : (encode c).length ≤ 4 := by
  unfold encode String.utf8EncodeChar
  simp only
  split
  · exact Nat.le_of_ble_eq_true rfl
  · split
    · exact Nat.le_of_ble_eq_true rfl
    · split <;> exact Nat.le_of_ble_eq_true rfl

/-- A character whose first byte is ASCII is this byte. -/
theorem encode_of_ascii {c : Char} {b : UInt8} {rest : Bytes} (h : encode c = b :: rest)
    (hb : b.toNat < 128) : encode c = [b] ∧ (b = 0 ↔ c = Char.ofNat 0) := by
  unfold encode String.utf8EncodeChar at h ⊢
  have hzero : c = Char.ofNat 0 ↔ c.val.toNat = 0 := by
    rw [Char.ext_iff, ← UInt32.toNat_inj]
    rfl
  rw [hzero]
  have hvalid : c.val.toNat < 0x110000 := by
    have := c.valid
    simp only [UInt32.isValidChar, Nat.isValidChar] at this
    omega
  generalize c.val.toNat = v at h hvalid ⊢
  simp only at h ⊢
  split at h
  · next hv =>
      rw [if_pos hv]
      cases h
      refine ⟨rfl, ?_⟩
      rw [← UInt8.toNat_inj]
      simp only [UInt8.toNat_ofNat', UInt8.toNat_zero]
      omega
  · split at h
    · cases h
      simp only [UInt8.toNat_ofNat'] at hb
      omega
    · split at h
      · cases h
        simp only [UInt8.toNat_ofNat'] at hb
        omega
      · cases h
        simp only [UInt8.toNat_ofNat'] at hb
        omega

/-- A character other than NUL has no zero byte. -/
theorem zero_notMem_encode {c : Char} (h : c ≠ Char.ofNat 0) : (0 : UInt8) ∉ encode c := by
  intro hmem
  obtain ⟨first, tail, hc, -, htail⟩ := encode_shape c
  rw [hc, List.mem_cons] at hmem
  rcases hmem with hfirst | hmem
  · exact h ((encode_of_ascii hc (hfirst ▸ Nat.zero_lt_succ _)).2.mp hfirst.symm)
  · exact absurd (htail 0 hmem) (by decide)

/-- Encoded characters are told apart by their first bytes. -/
theorem encode_append_inj {c d : Char} {x y : Bytes} (h : encode c ++ x = encode d ++ y) :
    c = d := by
  have hdecode : ∀ (c : Char) (x : Bytes),
      ByteArray.utf8DecodeChar? (encode c ++ x).toByteArray 0 = some c := by
    intro c x
    rw [List.toByteArray_append]
    exact ByteArray.utf8DecodeChar?_utf8EncodeChar_append
  have hc := hdecode c x
  rw [h, hdecode d y] at hc
  exact (Option.some.inj hc).symm

@[simp] theorem encodeAll_nil : encodeAll [] = [] := rfl

@[simp] theorem encodeAll_cons (c : Char) (text : List Char) :
    encodeAll (c :: text) = encode c ++ encodeAll text := rfl

@[simp] theorem encodeAll_append (text text' : List Char) :
    encodeAll (text ++ text') = encodeAll text ++ encodeAll text' := List.flatMap_append

/-- A byte of a text that is no continuation begins a character. -/
theorem exists_of_start {b : UInt8} (hb : isContinuation b = false) :
    ∀ {text : List Char} {offset : Nat}, (encodeAll text)[offset]? = some b →
    ∃ before c after, text = before ++ c :: after ∧ offset = (encodeAll before).length
  | [], _, h => by simp at h
  | c :: text, offset, h => by
      obtain ⟨first, tail, hc, _, htail⟩ := encode_shape c
      rw [encodeAll_cons] at h
      rcases Nat.lt_or_ge offset (encode c).length with hlt | hge
      · rw [List.getElem?_append_left hlt, hc] at h
        cases offset with
        | zero => exact ⟨[], c, text, rfl, rfl⟩
        | succ offset =>
            rw [List.getElem?_cons_succ] at h
            rw [htail b (List.mem_of_getElem? h)] at hb
            cases hb
      · rw [List.getElem?_append_right hge] at h
        obtain ⟨before, d, after, rfl, hoffset⟩ := exists_of_start hb h
        exact ⟨c :: before, d, after, rfl, by simp [← hoffset]; omega⟩

/-- An encoded character is found in a text only where it stands. -/
theorem exists_of_drop {text : List Char} {c : Char} {offset : Nat} {rest : Bytes}
    (h : (encodeAll text).drop offset = encode c ++ rest) :
    ∃ before after, text = before ++ c :: after ∧ offset = (encodeAll before).length := by
  obtain ⟨first, tail, hc, hfirst, _⟩ := encode_shape c
  have hget : (encodeAll text)[offset]? = some first := by
    have := congrArg (fun l => l[0]?) h
    simpa [List.getElem?_drop, hc] using this
  obtain ⟨before, d, after, rfl, hoffset⟩ := exists_of_start hfirst hget
  refine ⟨before, after, ?_, hoffset⟩
  rw [encodeAll_append, hoffset, List.drop_left] at h
  rw [encode_append_inj (h.symm.trans rfl)]

/-- The boundaries of a text are where its characters begin and where it ends. -/
theorem isCharBoundary_iff {text : List Char} {offset : Nat} :
    isCharBoundary (encodeAll text) offset = true ↔
      ∃ before after, text = before ++ after ∧ offset = (encodeAll before).length := by
  constructor
  · intro h
    simp only [isCharBoundary, Bool.or_eq_true, beq_iff_eq] at h
    rcases h with (rfl | rfl) | h
    · exact ⟨[], text, rfl, rfl⟩
    · exact ⟨text, [], (List.append_nil _).symm, rfl⟩
    · split at h
      · next b hget =>
          obtain ⟨before, c, after, htext, hoffset⟩ :=
            exists_of_start (by simpa using h) hget
          exact ⟨before, c :: after, htext, hoffset⟩
      · cases h
  · rintro ⟨before, after, rfl, rfl⟩
    cases after with
    | nil => simp [isCharBoundary]
    | cons c after =>
        obtain ⟨first, tail, hc, hfirst, _⟩ := encode_shape c
        simp [isCharBoundary, hc, hfirst]

/-- The bytes of a text are those of its characters. -/
theorem asBytes_eq (text : String) : asBytes text = encodeAll text.toList := by
  rw [asBytes, ← String.utf8Encode_toList, List.utf8Encode, List.data_toByteArray]
  rfl

/-- A text is read back from its bytes. -/
theorem fromUtf8_asBytes (text : String) : fromUtf8 (asBytes text) = some text := by
  have hbytes : (⟨(asBytes text).toArray⟩ : ByteArray) = text.toByteArray := by
    simp [asBytes]
  rw [fromUtf8, hbytes, String.fromUTF8?, dif_pos text.isValidUTF8]
  rfl

/-- Bytes that are read as a text are its bytes. -/
theorem fromUtf8_some {bytes : Bytes} {text : String} (h : fromUtf8 bytes = some text) :
    asBytes text = bytes := by
  unfold fromUtf8 String.fromUTF8? at h
  split at h
  · cases h
    rfl
  · cases h

/-- Characters are read back from their bytes. -/
theorem fromUtf8_encodeAll (text : List Char) :
    fromUtf8 (encodeAll text) = some (String.ofList text) := by
  have := fromUtf8_asBytes (String.ofList text)
  rwa [asBytes_eq, String.toList_ofList] at this

end Utf8
