import Velr.Format.Image
import Velr.PageWriter.Append

/-!
# Overflow chains and cells

`cell` computes every page number of an overflow chain before it writes the page.
`overflow_ensures` shows by induction over the chain that each of them is the page on which the
rest of the record is then written, given that the pages are contiguous, and `cell_ensures` that
the bytes `cell` returns read back as the record.
-/

namespace Velr

open ByteString Interleaving Format

theorem PageSize.four_lt (size : PageSize) : 4 < size.bytes := by
  have := size.lower
  omega

namespace Writer

open Method

/-! ## One overflow page -/

/-- The image of an overflow page. -/
def overflowPage (usable next : Nat) (part : Bytes) : Bytes :=
  overwrite (overwrite (List.replicate usable 0) 0 (toBE 4 next)) 4 part

/-- An overflow page: the next page, the part and zeros. -/
theorem overflowPage_eq {usable next : Nat} {part : Bytes} (h : part.length + 4 ≤ usable) :
    overflowPage usable next part
      = toBE 4 next ++ (part ++ List.replicate (usable - 4 - part.length) 0) := by
  have hlen : (List.replicate usable (0 : UInt8)).length = usable := List.length_replicate
  have hw := overwrite_overwrite (s := List.replicate usable 0) (a := toBE 4 next) (b := part)
    (i := 0) (by rw [length_toBE, hlen]; omega)
  rw [length_toBE, Nat.zero_add] at hw
  rw [overflowPage, hw, overwrite_zero, List.append_assoc, List.drop_replicate]
  simp only [List.length_append, length_toBE, Nat.sub_sub]

theorem length_overflowPage {usable next : Nat} {part : Bytes} (h : part.length + 4 ≤ usable) :
    (overflowPage usable next part).length = usable := by
  rw [overflowPage_eq h]
  simp only [List.length_append, length_toBE, List.length_replicate]
  omega

/-- The next page is read back. -/
theorem next_overflowPage {usable next : Nat} {part : Bytes} (h : part.length + 4 ≤ usable)
    (hnext : next < 2 ^ 32) : ofBE ((overflowPage usable next part).take 4) = next := by
  rw [overflowPage_eq h, List.take_append_of_le_length (by simp),
    List.take_of_length_le (by simp)]
  exact ofBE_toBE_of_lt (by simpa using hnext)

/-- So is the part. -/
theorem part_overflowPage {usable next n : Nat} {part : Bytes} (h : part.length + 4 ≤ usable)
    (hn : n = part.length) : slice (overflowPage usable next part) 4 n = part := by
  rw [overflowPage_eq h]
  exact slice_middle (by simp) hn

/-! ## The chain -/

section
variable {faults : Prop}

/-- What a writer has written stays when it advances. -/
theorem view_within {w w' : Writer} {l l' : Ledger} (h : w.Advances l w' l') :
    l.view.Within l'.view := fun _ _ => Ledger.view_mono h.grows

/-- On contiguous pages the chain of `overflow` reads back as the bytes that remained. -/
theorem overflow_ensures : ∀ {fuel : Nat} {remaining : Bytes} {w : Writer} {l : Ledger}
    {pages : Nat}, remaining.length ≤ fuel → w.Ready l → w.Contiguous pages →
    remaining.length ≤ pages * (w.pageSize.bytes - 4) →
    Ensures (protocol faults) (overflow fuel remaining) w l
      (fun _ w' l' => w.Advances l w' l' ∧ (remaining ≠ [] →
        w.nextAvailable w.nextPage < u32Max ∧ ∀ depth, remaining.length ≤ depth →
          readChain w.pageSize.bytes l'.view depth (w.nextAvailable w.nextPage) remaining.length
            = some remaining))
      (fun fault w' _ => Failed faults w' fault)
  | 0, remaining, w, l, _, hfuel, h, _, _ => by
      have hnil : remaining = [] := List.eq_nil_of_length_eq_zero (by omega)
      rw [overflow, if_pos hnil]
      exact ⟨.refl h, fun hne => absurd hnil hne⟩
  | fuel + 1, remaining, w, l, pages, hfuel, h, hc, hpages => by
      rw [overflow]
      by_cases hnil : remaining = []
      · rw [if_pos hnil]
        exact ⟨.refl h, fun hne => absurd hnil hne⟩
      rw [if_neg hnil]
      have hpos : 0 < remaining.length := List.length_pos_iff.mpr hnil
      have hsize := w.pageSize.four_lt
      obtain ⟨pages, rfl⟩ : ∃ n, pages = n + 1 := by
        cases pages with
        | zero => rw [Nat.zero_mul] at hpages; omega
        | succ n => exact ⟨n, rfl⟩
      rw [Nat.succ_mul] at hpages
      have hone : w.Contiguous 1 := fun allocator stop ha hstop =>
        (Nat.le_add_left 1 pages).trans (hc allocator stop ha hstop)
      simp only [ensures_bind, ensures_get]
      generalize htake : min remaining.length (w.pageSize.bytes - 4) = take
      generalize hnext : (if remaining.length > take then
        w.nextAvailable (w.nextAvailable w.nextPage + 1) else 0) = next
      have hpart : (remaining.take take).length = take := by
        rw [List.length_take]; omega
      have hfits : (remaining.take take).length + 4 ≤ w.pageSize.bytes := by omega
      refine (append_ensures h (length_overflowPage hfits)).mono ?_ fun _ _ _ he => he.1
      intro id w₁ l₁ hputs
      obtain ⟨hid, hrange⟩ := hputs.stays hone
      have hsame := hputs.advances.same.pageSize
      have hdrop : (remaining.drop take).length = remaining.length - take := List.length_drop
      refine (overflow_ensures (by omega) hputs.advances.ready (hputs.contiguous h hc)
        (by rw [hsame]; omega)).mono ?_ fun _ _ _ he => he
      rintro ⟨⟩ w₂ l₂ ⟨hadv₂, hrest⟩
      refine ⟨hputs.advances.trans hadv₂, fun _ => ⟨hid ▸ hputs.id_le, ?_⟩⟩
      intro depth hdepth
      obtain ⟨depth, rfl⟩ : ∃ n, depth = n + 1 := ⟨depth - 1, by omega⟩
      have hview := view_within hadv₂ _ _ hputs.view
      rw [← hid]
      unfold readChain
      simp only [hview, Option.bind_eq_bind, Option.bind_some]
      by_cases hlast : remaining.length ≤ w.pageSize.bytes - 4
      · -- the last page: all that remains, and no next page
        have hz : next = 0 := by rw [← hnext, if_neg (by omega)]
        have hwhole : remaining.take take = remaining := List.take_of_length_le (by omega)
        rw [if_pos hlast, next_overflowPage hfits (by omega), hz,
          part_overflowPage hfits (by omega), hwhole]
        rfl
      · -- a full page; the next one is where the writer goes on
        have hne : remaining.drop take ≠ [] := by
          intro hnil; rw [hnil, List.length_nil] at hdrop; omega
        obtain ⟨hlt, hchain⟩ := hrest hne
        have hnext' : next = w₁.nextAvailable w₁.nextPage := by
          rw [← hnext, if_pos (by omega), hputs.next, hid]
          unfold nextAvailable
          rw [hsame]
        rw [← hnext'] at hlt hchain
        have hfour : w.pageSize.bytes - 4 = take := by omega
        rw [if_neg hlast, next_overflowPage hfits (by simp only [u32Max] at hlt; omega), hfour,
          part_overflowPage hfits hpart.symm]
        have hread := hchain depth (by omega)
        rw [hsame, hdrop] at hread
        rw [hread]
        exact congrArg some (List.take_append_drop take remaining)

end

/-! ## Cells -/

/-- The key under which a record is read back: an index cell has no rowid. -/
def rowKey (kind : Kind) (rowid : Int64) : Int64 :=
  match kind with
  | .table => rowid
  | .index => 0

/-- The bytes are those of a leaf cell that reads back as the record. -/
def Stored (size : Nat) (kind : Kind) (view : View) (record : Record) (raw : Bytes) : Prop :=
  ∃ cell : Cell, raw = payloadBytes kind cell ∧ cell.Writable size kind ∧ cell.child = 0 ∧
    entry size view cell = some record

/-- A stored record is read in every view with more pages. -/
theorem Stored.within {size : Nat} {kind : Kind} {view view' : View} {record : Record}
    {raw : Bytes} (h : Stored size kind view record raw) (hview : view.Within view') :
    Stored size kind view' record raw := by
  obtain ⟨cell, hraw, hcell, hchild, hentry⟩ := h
  exact ⟨cell, hraw, hcell, hchild, entry_within hview hentry⟩

/-- The longest record the writer takes, `i32::MAX` bytes. -/
def maxRecord : Nat := 2147483647

/-- A record that `cell` can store: a byte vector and, if no operation may fail, a record of
SQLite. -/
def Storable (faults : Prop) (record : Bytes) : Prop :=
  record.length < 2 ^ 63 ∧ (faults ∨ record.length ≤ maxRecord)

/-- `local_length` computes the inline length of the format. -/
theorem localLength_eq (size : Nat) (kind : Kind) (length : Nat) :
    localLength size kind length = inlineLength size kind length := by
  cases kind <;> rfl

/-- A record that fits is inline. -/
theorem localLength_of_le {size length : Nat} {kind : Kind}
    (h : length ≤ maximumLocal size kind) : localLength size kind length = length := if_pos h

theorem minimumLocal_le (size : PageSize) (kind : Kind) :
    minimumLocal size.bytes ≤ maximumLocal size.bytes kind := by
  have := size.lower
  cases kind <;> simp only [minimumLocal, maximumLocal] <;> omega

/-- The inline part is a part of the record and fits. -/
theorem localLength_le (size : PageSize) (kind : Kind) (length : Nat) :
    localLength size.bytes kind length ≤ length ∧
      localLength size.bytes kind length ≤ maximumLocal size.bytes kind := by
  have hmin := minimumLocal_le size kind
  have hmod := Nat.mod_le (length - minimumLocal size.bytes) (size.bytes - 4)
  unfold localLength
  split
  · exact ⟨Nat.le_refl _, by assumption⟩
  · simp only
    split <;> omega

/-- A cell begins with the length of its record and, in a table, its rowid. -/
theorem cellPrefix_eq (kind : Kind) (rowid : Int64) (length : Nat) :
    cellPrefix kind rowid length = varint length ++ keyBytes kind (rowKey kind rowid) := by
  cases kind <;> rfl

/-- A record that fits on a page is stored as it is. -/
theorem stored_local {size : Nat} {kind : Kind} {rowid : Int64} {record : Bytes} (view : View)
    (hlen : record.length < 2 ^ 63) (hlocal : record.length ≤ maximumLocal size kind) :
    Stored size kind view (rowKey kind rowid, record)
      (cellPrefix kind rowid record.length ++ record) := by
  refine ⟨{ key := rowKey kind rowid, total := record.length, inline := record }, ?_, ?_, rfl, ?_⟩
  · simp [payloadBytes, cellPrefix_eq]
  · refine ⟨?_, ?_, by simp, fun _ => rfl, fun hkind => by rw [hkind]; rfl⟩
    · simp only; omega
    · rw [← localLength_eq, localLength_of_le hlocal]
  · simp [entry]

section
variable {faults : Prop} {w : Writer} {l : Ledger}

/-- `cell` returns bytes that read back as the record, through the chain it has appended. -/
theorem cell_ensures (h : w.Ready l) (kind : Kind) (rowid : Int64) {record : Bytes}
    (hlen : Storable faults record) :
    Ensures (protocol faults) (cell kind rowid record) w l
      (fun raw w' l' => w.Advances l w' l' ∧
        Stored w.pageSize.bytes kind l'.view (rowKey kind rowid, record) raw)
      (fun fault w' _ => Failed faults w' fault) := by
  have hsize := w.pageSize.four_lt
  have hle := (localLength_le w.pageSize kind record.length).1
  simp only [cell, ensures_bind, ensures_get]
  generalize hstored : localLength w.pageSize.bytes kind record.length = stored at hle
  by_cases hspill : stored < record.length
  · rw [if_pos hspill]
    generalize hk : w.pageSize.bytes - 4 = k
    generalize hpages : (record.length - stored + k - 1) / k = pages
    have hcover : record.length - stored ≤ pages * k := by
      have hdiv := Nat.div_add_mod (record.length - stored + k - 1) k
      have hmod := Nat.mod_lt (record.length - stored + k - 1) (show 0 < k by omega)
      rw [hpages, Nat.mul_comm] at hdiv
      omega
    have hfew : pages ≤ record.length := by
      rw [← hpages]
      refine Nat.div_le_of_le_mul ?_
      obtain ⟨k, rfl⟩ : ∃ n, k = n + 1 := ⟨k - 1, by omega⟩
      have := Nat.le_mul_of_pos_right k (show 0 < record.length by omega)
      rw [Nat.succ_mul]
      omega
    have hmany : 0 < pages := by
      rcases Nat.eq_zero_or_pos pages with hz | hz
      · rw [hz] at hcover; omega
      · exact hz
    by_cases hmuch : pages > u32Max
    · have hf : faults := hlen.2.resolve_right fun hle' => by
        simp only [maxRecord, u32Max] at hle' hmuch; omega
      rw [if_pos hmuch]
      exact ⟨rfl, .inl hf⟩
    rw [if_neg hmuch]
    simp only [ensures_bind, ensures_get]
    refine (ensureContiguous_ensures h hmany).mono ?_ fun _ _ _ he => he.1
    rintro ⟨⟩ w₁ l₁ ⟨hadv₁, _, hcont, _⟩
    have hsame := hadv₁.same.pageSize
    have hdrop : (record.drop stored).length = record.length - stored := List.length_drop
    refine (overflow_ensures (by omega) hadv₁.ready hcont (by rw [hsame, hk]; omega)).mono ?_
      fun _ _ _ he => he
    rintro ⟨⟩ w₂ l₂ ⟨hadv₂, hchain⟩
    have hne : record.drop stored ≠ [] := by
      intro hnil; rw [hnil, List.length_nil] at hdrop; omega
    obtain ⟨hlt, hread⟩ := hchain hne
    have htake : (record.take stored).length = stored := by rw [List.length_take]; omega
    refine (ensures_pure _).mpr ⟨hadv₁.trans hadv₂,
      { key := rowKey kind rowid, total := record.length, inline := record.take stored,
        overflow := w₁.nextAvailable w₁.nextPage }, ?_, ?_, rfl, ?_⟩
    · simp only [payloadBytes, cellPrefix_eq, htake]
      rw [if_neg (by omega)]
      simp only [List.append_assoc]
    · refine ⟨?_, ?_, ?_, ?_, fun hkind => by rw [hkind]; rfl⟩
      · have := hlen.1
        simp only
        omega
      · rw [← localLength_eq, hstored, htake]
      · simp only [u32Max] at hlt ⊢; omega
      · simp only [htake]; omega
    · have := hread record.length (by omega)
      rw [hsame, hdrop] at this
      simp only [entry, htake, this, Option.bind_eq_bind, Option.bind_some,
        List.take_append_drop]
      rw [if_neg (by omega)]
  · -- the record fits after all
    have hwhole : stored = record.length := by omega
    rw [if_neg hspill, hwhole, List.take_length]
    have hlocal : record.length ≤ maximumLocal w.pageSize.bytes kind := by
      have := (localLength_le w.pageSize kind record.length).2
      omega
    exact ⟨.refl h, stored_local _ hlen.1 hlocal⟩

end

end Writer

end Velr
