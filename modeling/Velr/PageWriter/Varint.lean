import Velr.Common.Bytes

/-!
# SQLite varints

`varint` and `read_varint` of `page_writer.rs`. A varint is up to eight bytes of seven bits, most
significant first, each but the last with its high bit set; a ninth byte carries eight bits.
`readVarint_varint` reads back what was written, for every `u64`.
-/

namespace Velr

open ByteString

/-- The number of significant bits, `64 - value.leading_zeros()`. -/
def bitLength (value : Nat) : Nat := if value = 0 then 0 else value.log2 + 1

/-- `varint_len` -/
def varintLen (value : Nat) : Nat :=
  if value ≥ 1 <<< 56 then 9 else (max (bitLength value) 1 + 6) / 7

/-- The bytes `(value as u8 & 0x7f) | 0x80` of the loop `for i in (0..n).rev()`, before `out`. -/
def continuation : Nat → Nat → Bytes → Bytes
  | 0, _, out => out
  | n + 1, value, out => continuation n (value >>> 7) (UInt8.ofNat (value % 128 + 128) :: out)

/-- `varint` -/
def varint (value : Nat) : Bytes :=
  let len := varintLen value
  if len = 9 then continuation 8 (value >>> 8) [UInt8.ofNat value]
  else continuation (len - 1) (value >>> 7) [UInt8.ofNat (value % 128)]

/-- The loop of `read_varint` with `n` of its nine rounds left. -/
def readVarintLoop (bytes : Bytes) : Nat → Nat → Nat → Option (Nat × Nat)
  | 0, _, _ => none
  | n + 1, value, offset =>
      match bytes[offset]? with
      | none => none
      | some byte =>
          if n = 0 then some (value * 256 + byte.toNat, offset + 1)
          else if byte.toNat < 128 then some (value * 128 + byte.toNat % 128, offset + 1)
          else readVarintLoop bytes n (value * 128 + byte.toNat % 128) (offset + 1)

/-- `read_varint`: the number at `offset` and the offset behind it; `none` is its error
"truncated record varint". -/
def readVarint (bytes : Bytes) (offset : Nat) : Option (Nat × Nat) :=
  readVarintLoop bytes 9 0 offset

/-! ## Lengths -/

/-- A number has no more bits than its length. -/
theorem lt_two_pow_bitLength (value : Nat) : value < 2 ^ bitLength value := by
  unfold bitLength
  split
  · omega
  · exact Nat.lt_log2_self

/-- A number has at most `n` bits exactly if it is less than `2 ^ n`. -/
theorem bitLength_le_iff {value n : Nat} : bitLength value ≤ n ↔ value < 2 ^ n := by
  unfold bitLength
  split
  · next h => subst h; simp
  · next h => rw [← Nat.log2_lt h]; omega

theorem varintLen_pos (value : Nat) : 1 ≤ varintLen value := by
  unfold varintLen
  split <;> omega

theorem bitLength_lt_of_short {value : Nat} (h : value < 1 <<< 56) : bitLength value ≤ 56 :=
  bitLength_le_iff.mpr (by simpa [Nat.shiftLeft_eq] using h)

/-- A varint has nine bytes at most. -/
theorem varintLen_le (value : Nat) : varintLen value ≤ 9 := by
  unfold varintLen
  split
  · omega
  · have := bitLength_lt_of_short (show value < 1 <<< 56 by omega)
    omega

/-- A varint of less than nine bytes has seven bits of the number in each. -/
theorem lt_pow_varintLen {value : Nat} (h : varintLen value ≠ 9) :
    value < 128 ^ varintLen value := by
  have hpow : (128 : Nat) ^ varintLen value = 2 ^ (7 * varintLen value) := by
    rw [Nat.pow_mul]
  rw [hpow]
  apply bitLength_le_iff.mp
  unfold varintLen at h ⊢
  split at h
  · omega
  · next hs => rw [if_neg hs]; omega

/-- The converse bound: `7 * n` bits fit into `n` bytes. -/
theorem varintLen_le_of_lt {value n : Nat} (hn : 1 ≤ n) (h8 : n ≤ 8) (h : value < 2 ^ (7 * n)) :
    varintLen value ≤ n := by
  have hb := bitLength_le_iff.mpr h
  unfold varintLen
  split
  · next hbig =>
      have : (2 : Nat) ^ (7 * n) ≤ 2 ^ 56 := Nat.pow_le_pow_right (by omega) (by omega)
      simp only [Nat.shiftLeft_eq] at hbig
      omega
  · omega

/-- A number from `2 ^ (7 * n)` on takes more than `n` bytes. -/
theorem lt_varintLen_of_le {value n : Nat} (hn : n ≤ 8) (h : 2 ^ (7 * n) ≤ value) :
    n < varintLen value := by
  rcases Nat.lt_or_ge n (varintLen value) with hlt | hge
  · exact hlt
  · have hlt := lt_pow_varintLen (show varintLen value ≠ 9 by omega)
    have hpow : (128 : Nat) ^ varintLen value = 2 ^ (7 * varintLen value) := by
      rw [Nat.pow_mul]
    have : (2 : Nat) ^ (7 * varintLen value) ≤ 2 ^ (7 * n) :=
      Nat.pow_le_pow_right (by omega) (by omega)
    omega

/-- A greater number takes no shorter varint. -/
theorem varintLen_mono {value value' : Nat} (h : value ≤ value') :
    varintLen value ≤ varintLen value' := by
  have hbits : bitLength value ≤ bitLength value' :=
    bitLength_le_iff.mpr (Nat.lt_of_le_of_lt h (lt_two_pow_bitLength value'))
  unfold varintLen
  split
  · next hbig =>
      exact Nat.le_of_eq (if_pos (Nat.le_trans hbig h)).symm
  · next hshort =>
      have := bitLength_lt_of_short (Nat.lt_of_not_le hshort)
      split <;> omega

/-! ## Reading back -/

/-- The continuation bytes on their own. -/
def septets : Nat → Nat → Bytes
  | 0, _ => []
  | n + 1, value => septets n (value / 128) ++ [UInt8.ofNat (value % 128 + 128)]

@[simp] theorem length_septets (n value : Nat) : (septets n value).length = n := by
  induction n generalizing value with
  | zero => rfl
  | succ n ih => simp [septets, ih]

/-- The loop of `varint` writes septets in front of the last bytes. -/
theorem continuation_eq (n value : Nat) (out : Bytes) :
    continuation n value out = septets n value ++ out := by
  induction n generalizing value out with
  | zero => rfl
  | succ n ih => simp [continuation, septets, ih, Nat.shiftRight_eq_div_pow]

/-- A varint is septets of seven bits, and a ninth byte of eight. -/
theorem varint_eq (value : Nat) :
    varint value =
      if varintLen value = 9 then septets 8 (value / 256) ++ [UInt8.ofNat value]
      else septets (varintLen value - 1) (value / 128) ++ [UInt8.ofNat (value % 128)] := by
  simp only [varint, continuation_eq, Nat.shiftRight_eq_div_pow]

@[simp] theorem length_varint (value : Nat) : (varint value).length = varintLen value := by
  have := varintLen_pos value
  rw [varint_eq]
  split <;> simp <;> omega

theorem getElem?_of_drop {bytes tail : Bytes} {offset : Nat} {b : UInt8}
    (h : bytes.drop offset = b :: tail) : bytes[offset]? = some b := by
  have := congrArg (fun l => l[0]?) h
  simpa [List.getElem?_drop] using this

theorem drop_succ_of_drop {bytes tail : Bytes} {offset : Nat} {b : UInt8}
    (h : bytes.drop offset = b :: tail) : bytes.drop (offset + 1) = tail := by
  have := congrArg (List.drop 1) h
  simpa [List.drop_drop] using this

/-- Reading over `n` continuation bytes shifts their `7 * n` bits into the value. -/
theorem readVarintLoop_septets {bytes : Bytes} {m : Nat} (hm : 0 < m) :
    ∀ (n v value offset : Nat) (tail : Bytes), bytes.drop offset = septets n v ++ tail →
      readVarintLoop bytes (n + m) value offset =
        readVarintLoop bytes m (value * 128 ^ n + v % 128 ^ n) (offset + n) ∧
      bytes.drop (offset + n) = tail := by
  intro n
  induction n generalizing m with
  | zero => intro v value offset tail h; simpa [septets, Nat.mod_one] using h
  | succ n ih =>
      intro v value offset tail h
      rw [septets, List.append_assoc, List.singleton_append] at h
      obtain ⟨h1, h2⟩ := ih (m := m + 1) (by omega) (v / 128) value offset _ h
      have hbyte : (UInt8.ofNat (v % 128 + 128)).toNat = v % 128 + 128 := by
        simp only [UInt8.toNat_ofNat']; omega
      refine ⟨?_, by simpa [Nat.add_assoc] using drop_succ_of_drop h2⟩
      have hstep : n + 1 + m = n + (m + 1) := by omega
      rw [hstep, h1, readVarintLoop, getElem?_of_drop h2]
      simp only [hbyte, if_neg (by omega : ¬ m = 0),
        if_neg (by omega : ¬ v % 128 + 128 < 128)]
      have hval : (value * 128 ^ n + v / 128 % 128 ^ n) * 128 + (v % 128 + 128) % 128
          = value * 128 ^ (n + 1) + v % 128 ^ (n + 1) := by
        have hpow : 128 ^ (n + 1) = 128 * 128 ^ n := by rw [Nat.pow_succ, Nat.mul_comm]
        rw [hpow, Nat.mod_mul, Nat.add_mul, Nat.mul_assoc, Nat.mul_comm (128 ^ n) 128]
        omega
      rw [hval, Nat.add_assoc]

/-- `read_varint` undoes `varint`, whatever follows in the bytes. -/
theorem readVarint_varint {bytes tail : Bytes} {offset value : Nat} (hv : value < 2 ^ 64)
    (h : bytes.drop offset = varint value ++ tail) :
    readVarint bytes offset = some (value, offset + varintLen value) := by
  rw [varint_eq] at h
  unfold readVarint
  split at h
  · next h9 =>
      rw [List.append_assoc, List.singleton_append] at h
      obtain ⟨h1, h2⟩ := readVarintLoop_septets (m := 1) (by omega) 8 _ 0 offset _ h
      have hmod : value / 256 % 128 ^ 8 = value / 256 := Nat.mod_eq_of_lt (by omega)
      rw [h1, readVarintLoop, getElem?_of_drop h2, h9]
      simp only [Nat.zero_mul, Nat.zero_add, hmod, if_true, UInt8.toNat_ofNat', Option.some.injEq,
        Prod.mk.injEq, and_true]
      omega
  · next h9 =>
      have hpos := varintLen_pos value
      have hle := varintLen_le value
      rw [List.append_assoc, List.singleton_append] at h
      obtain ⟨h1, h2⟩ := readVarintLoop_septets (m := 9 - (varintLen value - 1)) (by omega)
        (varintLen value - 1) _ 0 offset _ h
      have hbyte : (UInt8.ofNat (value % 128)).toNat = value % 128 := by
        simp only [UInt8.toNat_ofNat']; omega
      have hmod : value / 128 % 128 ^ (varintLen value - 1) = value / 128 := by
        apply Nat.mod_eq_of_lt
        have hlt := lt_pow_varintLen h9
        have hpow : 128 ^ varintLen value = 128 * 128 ^ (varintLen value - 1) := by
          rw [← Nat.pow_succ']; congr 1; omega
        omega
      obtain ⟨m, hm⟩ : ∃ m, 9 - (varintLen value - 1) = m + 1 + 1 := ⟨7 - (varintLen value - 1),
        by omega⟩
      have hsum : varintLen value - 1 + (9 - (varintLen value - 1)) = 9 := by omega
      rw [hsum] at h1
      rw [h1, hm, readVarintLoop, getElem?_of_drop h2]
      simp only [hbyte, if_neg (by omega : ¬ m + 1 = 0),
        if_pos (by omega : value % 128 < 128), Nat.zero_mul, Nat.zero_add, hmod,
        Option.some.injEq, Prod.mk.injEq]
      omega

/-- A varint that is read lies within the bytes. -/
theorem readVarintLoop_bounds {bytes : Bytes} :
    ∀ {n value offset result next : Nat},
      readVarintLoop bytes n value offset = some (result, next) →
      offset < next ∧ next ≤ bytes.length
  | 0, _, _, _, _, h => by simp [readVarintLoop] at h
  | n + 1, value, offset, result, next, h => by
      unfold readVarintLoop at h
      split at h
      · cases h
      · next byte hb =>
          have hlt : offset < bytes.length := (List.getElem?_eq_some_iff.mp hb).1
          split at h
          · cases h; omega
          · split at h
            · cases h; omega
            · have := readVarintLoop_bounds h
              omega

/-- A varint is read inside of the bytes, and takes one at least. -/
theorem readVarint_bounds {bytes : Bytes} {offset value next : Nat}
    (h : readVarint bytes offset = some (value, next)) : offset < next ∧ next ≤ bytes.length :=
  readVarintLoop_bounds h

end Velr
