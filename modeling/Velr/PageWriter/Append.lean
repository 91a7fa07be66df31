import Velr.PageWriter.Ledger

/-!
# Appending pages

The specifications of the methods that move a writer through its pages: `ensure_contiguous`,
`append` and `root`. They hold under `protocol`, that is under any interleaving with other
writers. `append_ensures` says where the page went; `Contiguous` is what `ensure_contiguous`
guarantees and what lets the page numbers of the next appends be foreseen.
-/

namespace Velr

open ByteString Interleaving Format

namespace Writer

open Method

section
variable {faults : Prop} {w : Writer} {l : Ledger}

/-! ## Single accesses -/

theorem ensures_flush {ok : Unit → Writer → Ledger → Prop} {err : Fault → Writer → Ledger → Prop}
    (hok : ok () w l) (herr : ∀ fault, faults → fault.isPanic = false → err fault w l) :
    Ensures (protocol faults) flush w l ok err := by
  refine ensures_bind.mpr ((ensures_call _).mpr ⟨trivial, ?_⟩)
  rintro (fault | ⟨⟩) l' ha
  · obtain ⟨hf, hp, rfl⟩ := ha
    exact herr fault hf hp
  · obtain rfl : l' = l := ha
    exact hok

theorem ensures_scratch {ok : Unit → Writer → Ledger → Prop}
    {err : Fault → Writer → Ledger → Prop}
    (hok : ok () w l) (herr : ∀ fault, faults → fault.isPanic = false → err fault w l) :
    Ensures (protocol faults) scratch w l ok err := by
  refine ensures_bind.mpr ((ensures_call _).mpr ⟨trivial, ?_⟩)
  rintro (fault | ⟨⟩) l' ha
  · obtain ⟨hf, hp, rfl⟩ := ha
    exact herr fault hf hp
  · obtain rfl : l' = l := ha
    exact hok

/-- A page that may be written is written behind the position. -/
theorem ensures_writeAll {page : Bytes} {ok : Unit → Writer → Ledger → Prop}
    {err : Fault → Writer → Ledger → Prop} (hallowed : l.Writable (w.position + 1) page)
    (hok : ok () { w with position := w.position + 1 } (l.write (w.position + 1) page))
    (herr : ∀ fault, faults → fault.isPanic = false → err fault w l) :
    Ensures (protocol faults) (writeAll page) w l ok err := by
  simp only [writeAll, ensures_bind, ensures_get, ensures_call]
  refine ⟨hallowed, ?_⟩
  rintro (fault | ⟨⟩) l' ha
  · obtain ⟨hf, hp, rfl⟩ := ha
    exact herr fault hf hp
  · obtain rfl : l' = _ := ha
    exact hok

/-- A grant begins behind every page there has been, or the space is exhausted. -/
theorem ensures_grant {allocator : Allocator} {needed : Nat}
    {ok : Nat × Nat → Writer → Ledger → Prop} {err : Fault → Writer → Ledger → Prop}
    (hneeded : 0 < needed) (hunread : l.next = none)
    (hok : ∀ start stop, allocator.grantEnd (max allocator.blockPages needed) start = .ok stop →
      1 ≤ start → (∀ page, l.Has page → page < start) →
      ok (start, stop) w (l.grant allocator.pending start stop))
    (herr : err exhaustedSpace w l) :
    Ensures (protocol faults) (grant allocator needed) w l ok err := by
  unfold grant
  simp only
  rw [if_neg (by omega)]
  refine ensures_bind.mpr ((ensures_call _).mpr ⟨hunread, ?_⟩)
  rintro (fault | ⟨start, stop⟩) l' ha
  · obtain ⟨rfl, rfl⟩ := ha
    exact herr
  · obtain ⟨hgrant, hstart, hfresh, rfl⟩ := ha
    exact hok start stop hgrant hstart hfresh

end

/-! ## Ranges of pages -/

/-- A page of the ranges lies in one of them. -/
theorem mem_rangePages {ranges : List (Nat × Nat)} {page : Nat} :
    page ∈ rangePages ranges ↔ ∃ range ∈ ranges, range.1 ≤ page ∧ page < range.2 := by
  simp only [rangePages, List.mem_flatMap, List.mem_range'_1]
  refine exists_congr fun range => and_congr_right fun _ => ?_
  omega

/-- Empty ranges have no pages. -/
theorem rangePages_filter (ranges : List (Nat × Nat)) :
    rangePages (ranges.filter fun range => range.1 < range.2) = rangePages ranges := by
  induction ranges with
  | nil => rfl
  | cons range ranges ih =>
      by_cases h : range.1 < range.2
      · simp only [rangePages, List.filter_cons, h, decide_true, if_true, List.flatMap_cons] at ih ⊢
        rw [ih]
      · have hempty : range.2 - range.1 = 0 := by omega
        simp only [rangePages, List.filter_cons, h, decide_false, Bool.false_eq_true, if_false,
          List.flatMap_cons, hempty, List.range'_zero, List.nil_append] at ih ⊢
        exact ih

/-- The tail of a block without the pending-byte page. -/
theorem mem_tailRanges {allocator : Allocator} {start stop page : Nat} :
    page ∈ rangePages (allocator.tailRanges start stop) ↔
      start ≤ page ∧ page < stop ∧ page ≠ allocator.pending := by
  rw [Allocator.tailRanges, rangePages_filter, mem_rangePages]
  split
  · constructor
    · rintro ⟨range, hmem, hle, hlt⟩
      simp only [List.mem_cons, List.not_mem_nil, or_false] at hmem
      rcases hmem with rfl | rfl <;> simp only at hle hlt <;> omega
    · rintro ⟨hle, hlt, hne⟩
      rcases Nat.lt_or_gt_of_ne hne with h | h
      · exact ⟨(start, allocator.pending), by simp, hle, h⟩
      · exact ⟨(allocator.pending + 1, stop), by simp, h, hlt⟩
  · constructor
    · rintro ⟨range, hmem, hle, hlt⟩
      simp only [List.mem_cons, List.not_mem_nil, or_false] at hmem
      rcases hmem with rfl | rfl <;> simp only at hle hlt <;> omega
    · rintro ⟨hle, hlt, _⟩
      exact ⟨(start, stop), by simp, hle, hlt⟩

/-- The ranges of a tail leave out the pending-byte page. -/
theorem tailRanges_returnable (allocator : Allocator) (start stop : Nat) :
    Returnable (allocator.tailRanges start stop) where
  nonempty range hrange := by
    rw [Allocator.tailRanges, List.mem_filter, decide_eq_true_eq] at hrange
    exact hrange.2
  nodup := by
    rw [Allocator.tailRanges, rangePages_filter]
    split
    · simp only [rangePages, List.flatMap_cons, List.flatMap_nil, List.append_nil]
      refine List.nodup_append.mpr ⟨List.nodup_range', List.nodup_range', ?_⟩
      intro a ha b hb
      rw [List.mem_range'_1] at ha hb
      omega
    · simp [rangePages, List.nodup_range']

section
variable {faults : Prop} {w : Writer} {l : Ledger}

/-- A tail that is owned goes to the spool of free pages. -/
theorem ensures_returnTail {allocator : Allocator} {start stop : Nat}
    {ok : Unit → Writer → Ledger → Prop} {err : Fault → Writer → Ledger → Prop}
    (hallowed : ∀ page, start ≤ page → page < stop → page ≠ allocator.pending → l.owned page)
    (hok : ok () w (l.release (allocator.tailRanges start stop)))
    (herr : ∀ fault l', faults → fault.isPanic = false → err fault w l') :
    Ensures (protocol faults) (returnTail allocator start stop) w l ok err := by
  unfold returnTail
  split
  · have hnone : allocator.tailRanges start stop = [] := by
      refine List.filter_eq_nil_iff.mpr fun range hrange => ?_
      split at hrange
      · omega
      · simp only [List.mem_cons, List.not_mem_nil, or_false] at hrange
        rcases hrange with rfl | rfl
        · simp only [decide_eq_true_eq, Nat.not_lt]; omega
        · simp
    rw [hnone] at hok
    have hsame : l.release [] = l := by simp [Ledger.release, rangePages]
    rw [hsame] at hok
    exact hok
  · refine ensures_bind.mpr ((ensures_call _).mpr
      ⟨⟨tailRanges_returnable allocator start stop, fun page hp => ?_⟩, ?_⟩)
    · obtain ⟨hle, hlt, hne⟩ := mem_tailRanges.mp hp
      exact hallowed page hle hlt hne
    · rintro (fault | ⟨⟩) l' ha
      · obtain ⟨hf, hp, _⟩ := ha
        exact herr fault l' hf hp
      · obtain rfl : l' = _ := ha
        exact hok

end

/-! ## The arithmetic of blocks -/

/-- A granted block has all the pages that were asked for, the pending-byte page not counted. -/
theorem available_grantEnd {allocator : Allocator} {pages start stop : Nat} (hpages : 0 < pages)
    (h : allocator.grantEnd pages start = .ok stop) :
    available allocator start stop = pages ∧ start + pages ≤ stop ∧ stop ≤ u32Max := by
  simp only [Allocator.grantEnd] at h
  split at h
  · cases h
  · split at h
    · split at h
      · cases h
      · cases h
        unfold available
        rw [if_pos (by omega)]
        omega
    · cases h
      unfold available
      rw [if_neg (by omega)]
      omega

/-! ## `ensure_contiguous` -/

section
variable {faults : Prop} {w : Writer} {l : Ledger}

/-- The block was returned and no other is granted yet. -/
theorem Ready.retire (h : w.Ready l) {allocator : Allocator} {stop : Nat}
    (ha : w.allocator = some allocator) (hstop : w.rangeEnd = some stop) :
    { w with rangeEnd := some w.nextPage }.Ready
      (l.release (allocator.tailRanges w.nextPage stop)) where
  wf := h.wf.release _
  pending allocator' ha' := ⟨(h.pending allocator' ha').1, w.nextPage, rfl⟩
  range := by rintro _ ⟨⟩; exact Nat.le_refl _
  block page hle hlt := absurd (hlt _ rfl) (Nat.not_lt.mpr hle)
  exact page _ hp := by
    obtain ⟨hne, hle, stop', hstop', hlt⟩ := h.exact page (by simp [ha]) hp.1
    rw [hstop] at hstop'
    cases hstop'
    rw [← (h.pending allocator ha).1] at hne
    exact absurd (mem_tailRanges.mpr ⟨hle, hlt, hne⟩) hp.2
  position he := by simp [exhausted] at he
  unread := h.unread

/-- A fresh block is the writer's next block. -/
theorem Ready.renew (h : w.Ready l) {allocator : Allocator} {start stop : Nat}
    (ha : w.allocator = some allocator) (hretired : w.rangeEnd = some w.nextPage)
    (hstart : 1 ≤ start) (hle : start ≤ stop) (hfresh : ∀ page, l.Has page → page < start) :
    { w with nextPage := start, rangeEnd := some stop, position := start - 1 }.Ready
      (l.grant allocator.pending start stop) where
  wf := h.wf.grant hfresh
  pending allocator' ha' := ⟨(h.pending allocator' ha').1, stop, rfl⟩
  range := by rintro _ ⟨⟩; exact hle
  block page hge hlt := by
    rw [← (h.pending allocator ha).1]
    exact ⟨fun hne => .inr ⟨hge, hlt stop rfl, hne⟩, fun heq => .inr ⟨hge, hlt stop rfl, heq⟩⟩
  exact := by
    rintro page _ (hp | ⟨hge, hlt, hne⟩)
    · obtain ⟨_, hge, stop', hstop', hlt⟩ := h.exact page (by simp [ha]) hp
      rw [hretired] at hstop'
      cases hstop'
      omega
    · rw [(h.pending allocator ha).1] at hne
      exact ⟨hne, hge, stop, rfl, hlt⟩
  position _ := by simp only; omega
  unread := h.unread

/-- `ensure_contiguous` leaves room for the pages in one range, and writes nothing. -/
theorem ensureContiguous_ensures (h : w.Ready l) {pages : Nat} (hpages : 0 < pages) :
    Ensures (protocol faults) (ensureContiguous pages) w l
      (fun _ w' l' => w.Advances l w' l' ∧ l'.written = l.written ∧ w'.Contiguous pages ∧
        (w.Contiguous pages → w' = w ∧ l' = l))
      (fun fault w' _ => Failed faults w' fault ∧ ¬ w.Contiguous pages) := by
  simp only [ensureContiguous, ensures_bind, ensures_get]
  cases ha : w.allocator with
  | none =>
      refine ⟨.refl h, rfl, ?_, fun _ => ⟨rfl, rfl⟩⟩
      intro allocator stop ha'
      rw [ha] at ha'
      cases ha'
  | some allocator =>
      obtain ⟨hpending, stop, hstop⟩ := h.pending allocator ha
      rw [hstop]
      by_cases havail : available allocator w.nextPage stop ≥ pages
      · simp only [if_pos havail]
        refine (ensures_pure _).mpr ⟨.refl h, rfl, ?_, fun _ => ⟨rfl, rfl⟩⟩
        intro allocator' stop' ha' hstop'
        rw [ha] at ha'
        rw [hstop] at hstop'
        cases ha'
        cases hstop'
        exact havail
      · have hcontiguous : ¬ w.Contiguous pages := fun hc => havail (hc _ _ ha hstop)
        simp only [if_neg havail, ensures_bind]
        have herr : ∀ fault, faults → fault.isPanic = false →
            Failed faults w fault ∧ ¬ w.Contiguous pages :=
          fun fault hf hp => ⟨⟨hp, .inl hf⟩, hcontiguous⟩
        refine ensures_flush (ensures_returnTail ?_ ?_ fun fault _ => herr fault) herr
        · intro page hle hlt hne
          rw [hpending] at hne
          refine (h.block page hle fun stop' hstop' => ?_).1 hne
          rw [hstop] at hstop'
          cases hstop'
          exact hlt
        have hready := h.retire ha hstop
        simp only [ensures_modify]
        refine ensures_grant hpages h.unread.1 ?_
          ⟨⟨rfl, .inr (.inr ⟨by simp [ha], rfl⟩)⟩, hcontiguous⟩
        intro start stop' hgrant hstart hfresh
        obtain ⟨havail', hle, _⟩ := available_grantEnd (by omega) hgrant
        refine ⟨⟨hready.renew ha rfl hstart (by omega) hfresh, ⟨rfl, rfl, rfl, rfl, rfl, rfl⟩,
          List.prefix_rfl, rfl, fun hn => by simp [ha] at hn⟩, rfl, ?_,
          fun hc => absurd hc hcontiguous⟩
        rintro allocator' _ ha' ⟨⟩
        obtain rfl : allocator = allocator' := by
          rw [ha] at ha'; exact Option.some.inj ha'
        simp only
        omega

/-! ## `append` -/

/-- A writer is not exhausted while its range has a page. -/
theorem exhausted_eq_false : w.exhausted = false ↔ ∀ stop, w.rangeEnd = some stop →
    w.nextPage < stop := by
  cases hstop : w.rangeEnd <;> simp [exhausted, hstop]

/-- The writer with its next page written. -/
def advanced (w : Writer) : Writer :=
  { w with nextPage := w.nextPage + 1, position := w.position + 1 }

/-- What a writer may write on its next page: zeros, if it is the pending-byte page. -/
theorem Ready.writable (h : w.Ready l) (he : w.exhausted = false) {page : Bytes}
    (hpage : w.nextPage = pendingPage w.pageSize.bytes → page = List.replicate page.length 0) :
    l.Writable w.nextPage page := by
  obtain ⟨howned, hhole⟩ := h.block w.nextPage (Nat.le_refl _) (exhausted_eq_false.mp he)
  by_cases hp : w.nextPage = pendingPage w.pageSize.bytes
  · exact .inr (.inr ⟨hhole hp, hpage hp⟩)
  · exact .inl (howned hp)

/-- The next page is not a root. -/
theorem Ready.nextPage_not_root (h : w.Ready l) (he : w.exhausted = false) :
    ¬ l.roots w.nextPage := by
  obtain ⟨howned, hhole⟩ := h.block w.nextPage (Nat.le_refl _) (exhausted_eq_false.mp he)
  by_cases hp : w.nextPage = pendingPage w.pageSize.bytes
  · exact (h.wf.holes_apart _ (hhole hp)).2
  · exact h.wf.apart _ (howned hp)

/-- Writing the next page keeps the writer ready. -/
theorem Ready.advance (h : w.Ready l) (he : w.exhausted = false) {page : Bytes}
    (hpage : l.Writable w.nextPage page) : w.advanced.Ready (l.write w.nextPage page) where
  wf := h.wf.write hpage
  pending := h.pending
  range := exhausted_eq_false.mp he
  block p hle hlt := by
    simp only [advanced] at hle hlt ⊢
    obtain ⟨howned, hhole⟩ := h.block p (by omega) hlt
    exact ⟨fun hp => ⟨howned hp, by omega⟩, fun hp => ⟨hhole hp, by omega⟩⟩
  exact p ha hp := by
    obtain ⟨hne, hle, hlt⟩ := h.exact p ha hp.1
    have := hp.2
    exact ⟨hne, by simp only [advanced]; omega, hlt⟩
  position _ := by
    have := h.position he
    simp only [advanced]
    omega
  unread := h.unread

/-- A writer that is ready may write its next page. -/
theorem Ready.advances_one (h : w.Ready l) (he : w.exhausted = false) {page : Bytes}
    (hpage : l.Writable w.nextPage page) :
    w.Advances l w.advanced (l.write w.nextPage page) where
  ready := h.advance he hpage
  same := ⟨rfl, rfl, rfl, rfl, rfl, rfl⟩
  grows := List.prefix_append _ _
  roots := by
    funext root
    refine propext ⟨And.left, fun hr => ⟨hr, ?_⟩⟩
    rintro rfl
    exact h.nextPage_not_root he hr
  next _ := Nat.le_succ _

/-- Where `append` puts a page: behind the pages written so far, possibly with the pending-byte
page skipped, and as long as the block lasts at the next available page. -/
structure Puts (w : Writer) (l : Ledger) (page : Bytes) (id : Nat) (w' : Writer) (l' : Ledger) :
    Prop where
  advances : w.Advances l w' l'
  view : l'.view id = some page
  id_le : id < u32Max
  id_ne : id ≠ pendingPage w.pageSize.bytes
  next : w'.nextPage = id + 1
  stays : w.Contiguous 1 → id = w.nextAvailable w.nextPage ∧ w'.rangeEnd = w.rangeEnd

theorem full_of_exhausted (he : w.exhausted = true) : w.Full := by
  refine .inl ?_
  cases hstop : w.rangeEnd with
  | none => simp [exhausted, hstop] at he
  | some stop =>
      simp only [exhausted, hstop, Option.any_some, ge_iff_le, decide_eq_true_eq] at he
      exact ⟨stop, rfl, he.trans (le_nextAvailable w _)⟩

theorem nextAvailable_eq (hne : w.nextPage ≠ pendingPage w.pageSize.bytes) :
    w.nextAvailable w.nextPage = w.nextPage := if_neg hne

/-- `appendNext` writes the next page, unless the block or the page numbers are used up. -/
theorem appendNext_ensures (h : w.Ready l) (hne : w.nextPage ≠ pendingPage w.pageSize.bytes)
    {page : Bytes} :
    Ensures (protocol faults) (appendNext page) w l
      (fun id w' l' => id = w.nextPage ∧ id < u32Max ∧ w.exhausted = false ∧
        l.Writable w.nextPage page ∧ w' = w.advanced ∧ l' = l.write w.nextPage page)
      (fun fault w' _ => Failed faults w' fault ∧ (faults ∨ w.Full)) := by
  simp only [appendNext, ensures_bind, ensures_get]
  cases he : w.exhausted with
  | true => exact ⟨⟨rfl, .inr (.inl (full_of_exhausted he))⟩, .inr (full_of_exhausted he)⟩
  | false =>
      by_cases hmax : w.nextPage + 1 > u32Max
      · simp only [Bool.false_eq_true, if_false, if_pos hmax]
        have hfull : w.Full := .inr (by rw [nextAvailable_eq hne]; exact hmax)
        exact ⟨⟨rfl, .inr (.inl hfull)⟩, .inr hfull⟩
      · simp only [Bool.false_eq_true, if_false, if_neg hmax, ensures_bind, ensures_modify]
        have hposition := h.position he
        have hpage : l.Writable w.nextPage page := h.writable he fun hp => absurd hp hne
        refine ensures_writeAll ?_ ?_ fun fault hf hp => ⟨⟨hp, .inl hf⟩, .inl hf⟩
        · simp only [hposition]
          exact hpage
        · refine (ensures_pure _).mpr ⟨rfl, by omega, trivial, hpage, rfl, ?_⟩
          simp only [hposition]

/-- `skipPending` leaves the writer at the next available page. -/
theorem skipPending_ensures (h : w.Ready l) (he : w.exhausted = false) :
    Ensures (protocol faults) skipPending w l
      (fun _ w' l' => w.Advances l w' l' ∧ w'.nextPage = w.nextAvailable w.nextPage ∧
        w'.rangeEnd = w.rangeEnd)
      (fun fault w' _ => Failed faults w' fault ∧ faults) := by
  simp only [skipPending, ensures_bind, ensures_get]
  by_cases hp : w.nextPage = pendingPage w.pageSize.bytes
  · have hnext : w.nextAvailable w.nextPage = w.nextPage + 1 := if_pos hp
    have hposition := h.position he
    rw [if_pos (by omega)]
    have hpage : l.Writable w.nextPage (List.replicate w.pageSize.bytes 0) :=
      h.writable he fun _ => by simp
    refine ensures_bind.mpr (ensures_writeAll ?_ ?_ fun fault hf hp => ⟨⟨hp, .inl hf⟩, hf⟩)
    · rw [hposition]
      exact hpage
    · simp only [ensures_modify, hposition]
      have hadv := h.advances_one he hpage
      simp only [advanced, hposition] at hadv
      exact ⟨hadv, hnext.symm, trivial⟩
  · have hnext := nextAvailable_eq hp
    rw [if_neg (by simp [hnext])]
    exact ⟨.refl h, hnext.symm, rfl⟩

/-- `append` puts the page behind the others; without a failure of the file it fails only where the
space ends. -/
theorem append_ensures (h : w.Ready l) {page : Bytes} (hlen : page.length = w.pageSize.bytes) :
    Ensures (protocol faults) (append page) w l (w.Puts l page)
      (fun fault w' _ => Failed faults w' fault ∧ (w.Contiguous 1 → faults ∨ w.Full)) := by
  simp only [append, ensures_bind, ensures_get, hlen, ne_eq, not_true_eq_false, if_false]
  refine (ensureContiguous_ensures h (by omega)).mono ?_ ?_
  · rintro ⟨⟩ w₁ l₁ ⟨hadv₁, hwritten, hcont, hstay⟩
    cases he : w₁.exhausted with
    | true =>
        rw [if_pos rfl]
        refine ⟨⟨rfl, .inr (.inl (full_of_exhausted he))⟩, fun hc => .inr ?_⟩
        obtain ⟨rfl, rfl⟩ := hstay hc
        exact full_of_exhausted he
    | false =>
        rw [if_neg Bool.false_ne_true]
        refine (skipPending_ensures hadv₁.ready he).bind ?_ ?_
        · rintro ⟨⟩ w₂ l₂ ⟨hadv₂, hnext, hrange⟩
          have hne : w₂.nextPage ≠ pendingPage w₂.pageSize.bytes := by
            rw [hnext, hadv₂.same.pageSize]; exact nextAvailable_ne _ _
          refine (appendNext_ensures hadv₂.ready hne).mono ?_ ?_
          · rintro id w₃ l₃ ⟨rfl, hmax, he₂, hpage, rfl, rfl⟩
            have hadv₃ := hadv₂.ready.advances_one he₂ hpage
            have hadv := (hadv₁.trans hadv₂).trans hadv₃
            refine ⟨hadv, ?_, hmax, ?_, rfl, fun hc => ?_⟩
            · exact Ledger.view_concat rfl (hpage.fresh hadv₂.ready.wf)
            · rw [← hadv₁.same.pageSize, ← hadv₂.same.pageSize]; exact hne
            · obtain ⟨rfl, rfl⟩ := hstay hc
              exact ⟨hnext, hrange⟩
          · rintro fault w₃ l₃ ⟨hfailed, hfull⟩
            refine ⟨hfailed, fun hc => hfull.imp id fun hfull => ?_⟩
            obtain ⟨rfl, rfl⟩ := hstay hc
            rwa [Full, nextAvailable_eq hne, hnext, hrange] at hfull
        · rintro fault w₂ l₂ ⟨hfailed, hf⟩
          exact ⟨hfailed, fun _ => .inl hf⟩
  · rintro fault w₁ l₁ ⟨hfailed, hcont⟩
    exact ⟨hfailed, fun hc => absurd hc hcont⟩

/-- A page written takes one page of those that `ensure_contiguous` found. -/
theorem Puts.contiguous {page : Bytes} {id pages : Nat} {w' : Writer} {l' : Ledger}
    (h : w.Puts l page id w' l') (hready : w.Ready l) (hc : w.Contiguous (pages + 1)) :
    w'.Contiguous pages := by
  intro allocator stop ha hstop
  have hone : w.Contiguous 1 := fun allocator stop ha hstop =>
    (Nat.le_add_left 1 pages).trans (hc allocator stop ha hstop)
  obtain ⟨hid, hrange⟩ := h.stays hone
  rw [h.advances.same.allocator] at ha
  rw [hrange] at hstop
  obtain ⟨hpending, _⟩ := hready.pending allocator ha
  have havail := hc allocator stop ha hstop
  have hnext := h.next
  rw [hid, nextAvailable, ← hpending] at hnext
  unfold available at havail ⊢
  split at hnext <;> split at havail <;> split <;> omega

/-! ## `root` -/

/-- `PageWriter::root` takes the page as the root of a tree. -/
def Accepts (w : Writer) (root : Nat) : Prop :=
  (∀ assigned, w.assignedRoot = some assigned → assigned = root) ∧ 1 < root ∧
    root < (w.allocator.map (·.bootstrapEnd)).getD w.nextPage

/-- A root that a writer accepts is accepted behind its appends. -/
theorem Accepts.advances {root : Nat} {w' : Writer} {l' : Ledger} (h : w.Accepts root)
    (hadv : w.Advances l w' l') : w'.Accepts root := by
  refine ⟨fun assigned ha => h.1 assigned (hadv.same.assignedRoot ▸ ha), h.2.1, ?_⟩
  have hlimit := h.2.2
  rw [hadv.same.allocator]
  cases ha : w.allocator with
  | none =>
      have := hadv.next ha
      simp only [ha, Option.map_none, Option.getD_none] at hlimit ⊢
      omega
  | some allocator => simpa [ha] using hlimit

/-- `root` replaces a root page that the ledger holds and leaves the writer where it was. -/
theorem root_ensures {root : Nat} {bytes : Bytes} (hroot : l.roots root) :
    Ensures (protocol faults) (Writer.root root bytes) w l
      (fun _ w' l' => w' = w ∧ l' = l.write root bytes ∧ w.Accepts root)
      (fun fault _ _ => fault.isPanic = false ∧ (faults ∨ ¬ w.Accepts root)) := by
  simp only [Writer.root, ensures_bind, ensures_get]
  by_cases hassigned : w.assignedRoot.any (· ≠ root) = true
  · rw [if_pos hassigned]
    refine ⟨rfl, .inr fun hacc => ?_⟩
    cases ha : w.assignedRoot with
    | none => simp [ha] at hassigned
    | some assigned => simp [ha, hacc.1 assigned ha] at hassigned
  · rw [if_neg hassigned]
    by_cases hbad : root ≤ 1 ∨ root ≥ (w.allocator.map (·.bootstrapEnd)).getD w.nextPage
    · rw [if_pos hbad]
      exact ⟨rfl, .inr fun hacc => by have := hacc.2; omega⟩
    · rw [if_neg hbad]
      have hassigned' : ∀ assigned, w.assignedRoot = some assigned → assigned = root := by
        intro assigned ha
        simpa [ha] using hassigned
      have hposition : root - 1 + 1 = root := by omega
      have herr : ∀ fault : Fault, faults → fault.isPanic = false →
          fault.isPanic = false ∧ (faults ∨ ¬ w.Accepts root) := fun _ hf hp => ⟨hp, .inl hf⟩
      refine ensures_bind.mpr (ensures_flush ?_ herr)
      simp only [ensures_bind, ensures_modify]
      refine ensures_writeAll ?_ ?_ herr
      · simp only [hposition]
        exact .inr (.inl hroot)
      · simp only [hposition]
        exact ensures_flush ⟨rfl, rfl, hassigned', by omega, by omega⟩ herr

end

/-- Replacing a root leaves the pages of the writer alone. -/
theorem Ready.write_root {w : Writer} {l : Ledger} (h : w.Ready l) {root : Nat} {bytes : Bytes}
    (hroot : l.roots root) : w.Ready (l.write root bytes) where
  wf := h.wf.write (.inr (.inl hroot))
  pending := h.pending
  range := h.range
  block page hle hlt := by
    obtain ⟨howned, hhole⟩ := h.block page hle hlt
    refine ⟨fun hp => ⟨howned hp, ?_⟩, fun hp => ⟨hhole hp, ?_⟩⟩
    · rintro rfl
      exact h.wf.apart _ (howned hp) hroot
    · rintro rfl
      exact (h.wf.holes_apart _ (hhole hp)).2 hroot
  exact page ha hp := h.exact page ha hp.1
  position := h.position
  unread := h.unread

end Writer

end Velr
