import Velr.Format.Freelist
import Velr.PageWriter.Append
import Velr.PageWriter.Dynamic

/-!
# Completing and finishing

The specifications of `complete` and `finish` over the ledger. A writer that completes owns no
page afterwards: what it had left is in the spool. `finish` takes the spool over and writes its
pages as freelist trunks; the freelist reads back as exactly these pages in the order of the
spool, in front of the old one (`Listed`).
-/

namespace Velr

open ByteString Interleaving Format

/-- `header'` is `header` with the pages `free` in front of its freelist. -/
structure Listed (size : Nat) (view : View) (header header' : Bytes) (free : List Nat) : Prop where
  length : header'.length = 100
  list : ∃ trunks, readFreelist size view trunks (ofBE (slice header' 32 4))
    = some (free, ofBE (slice header 32 4))
  count : ofBE (slice header' 36 4) = ofBE (slice header 36 4) + free.length

/-- Without free pages the header keeps its freelist. -/
theorem Listed.nil {size : Nat} {view : View} {header : Bytes} (h : header.length = 100) :
    Listed size view header header [] := ⟨h, ⟨0, rfl⟩, rfl⟩

/-- A freelist is read in every view with more pages. -/
theorem Listed.within {size : Nat} {view view' : View} {header header' : Bytes} {free : List Nat}
    (h : Listed size view header header' free) (hview : view.Within view') :
    Listed size view' header header' free :=
  ⟨h.length, h.list.imp fun _ hr => readFreelist_within hview hr, h.count⟩

/-- Four bytes are less than `2 ^ 32`. -/
theorem slice_lt {bs : Bytes} {i : Nat} (h : i + 4 ≤ bs.length) : ofBE (slice bs i 4) < 2 ^ 32 := by
  have hlen := length_slice h
  generalize slice bs i 4 = four at hlen
  match four, hlen with
  | [a, b, c, d], _ =>
      have ha := a.toNat_lt
      have hb := b.toNat_lt
      have hc := c.toNat_lt
      have hd := d.toNat_lt
      simp only [ofBE, List.foldl_cons, List.foldl_nil]
      omega

/-- The counters of `stamped` lie beside the freelist fields. -/
theorem Listed.stamped {size pages : Nat} {view : View} {header header' : Bytes} {free : List Nat}
    (h : Listed size view header header' free) (hpages : pages < 2 ^ 32) :
    Listed size view header (Writer.stamped header' pages) free ∧
      ofBE (slice (Writer.stamped header' pages) 28 4) = pages := by
  have hlen := h.length
  simp only [Writer.stamped]
  generalize hchange : toBE 4 ((ofBE (slice header' 24 4) + 1) % 4294967296) = change
  have hfour : change.length = 4 := by rw [← hchange, length_toBE]
  have h₁ : 24 + change.length ≤ header'.length := by omega
  have hlen₁ := length_overwrite h₁
  have h₂ : 28 + (toBE 4 pages).length ≤ (overwrite header' 24 change).length := by
    rw [length_toBE]
    omega
  have hlen₂ := length_overwrite h₂
  have h₃ : 92 + change.length
      ≤ (overwrite (overwrite header' 24 change) 28 (toBE 4 pages)).length := by omega
  have hkeeps : ∀ i, 32 ≤ i → i ≤ 36 →
      slice (overwrite (overwrite (overwrite header' 24 change) 28 (toBE 4 pages)) 92 change) i 4
        = slice header' i 4 := by
    intro i hi hi'
    rw [slice_overwrite_of_disjoint h₃ (by omega),
      slice_overwrite_of_disjoint h₂ (by rw [length_toBE]; omega),
      slice_overwrite_of_disjoint h₁ (by omega)]
  refine ⟨⟨?_, ?_, ?_⟩, ?_⟩
  · rw [length_overwrite h₃, hlen₂, hlen₁, hlen]
  · rw [hkeeps 32 (by omega) (by omega)]
    exact h.list
  · rw [hkeeps 36 (by omega) (by omega)]
    exact h.count
  · rw [slice_overwrite_of_disjoint h₃ (by omega), slice_overwrite_self h₂ (by simp),
      ofBE_toBE_of_lt (by simpa using hpages)]

namespace Writer

open Method

section
variable {faults : Prop} {w : Writer} {l : Ledger}

/-! ## The free pages -/

/-- The pages that `next_free` has still to return. -/
def FreeReader.pages (free : FreeReader) : List Nat :=
  List.range' free.range.1 (free.range.2 - free.range.1) ++ rangePages free.input

structure FreeReader.Ok (free : FreeReader) : Prop where
  le : free.range.1 ≤ free.range.2
  nonempty : ∀ range ∈ free.input, range.1 < range.2

/-- `FreeReader::next` returns the pages of the spool one after another. -/
theorem nextFree_ensures {free : FreeReader} (h : free.Ok) :
    Ensures (protocol faults) (nextFree free) w l
      (fun r w' l' => w' = w ∧ l' = l ∧ r.2.Ok ∧ r.1 = free.pages.head? ∧
        r.2.pages = free.pages.tail)
      (fun fault _ _ => fault.isPanic = false) := by
  obtain ⟨⟨start, stop⟩, input⟩ := free
  have hle := h.le
  simp only at hle
  simp only [nextFree]
  by_cases hend : start = stop
  · subst hend
    simp only [if_true]
    refine ensures_bind.mpr (ensures_scratch ?_ fun _ _ hp => hp)
    cases input with
    | nil => exact ⟨rfl, rfl, h, by simp [FreeReader.pages, rangePages],
        by simp [FreeReader.pages, rangePages]⟩
    | cons range input =>
        have hrange := h.nonempty range List.mem_cons_self
        have hpages : FreeReader.pages ⟨(start, start), range :: input⟩
            = range.1 :: FreeReader.pages ⟨(range.1 + 1, range.2), input⟩ := by
          obtain ⟨n, hn⟩ : ∃ n, range.2 - range.1 = n + 1 := ⟨range.2 - range.1 - 1, by omega⟩
          have hn' : range.2 - (range.1 + 1) = n := by omega
          simp only [FreeReader.pages, rangePages, List.flatMap_cons, Nat.sub_self,
            List.range'_zero, List.nil_append, hn, hn', List.range'_succ, List.cons_append]
        simp only [if_neg (Nat.not_le.mpr hrange)]
        refine (ensures_pure _).mpr ⟨rfl, rfl, ⟨hrange, fun r hr =>
          h.nonempty r (List.mem_cons_of_mem _ hr)⟩, ?_, ?_⟩
        · rw [hpages]; rfl
        · rw [hpages]; rfl
  · have hlt : start < stop := by omega
    have hpages : FreeReader.pages ⟨(start, stop), input⟩
        = start :: FreeReader.pages ⟨(start + 1, stop), input⟩ := by
      obtain ⟨n, hn⟩ : ∃ n, stop - start = n + 1 := ⟨stop - start - 1, by omega⟩
      have hn' : stop - (start + 1) = n := by omega
      simp only [FreeReader.pages, hn, hn', List.range'_succ, List.cons_append]
    rw [if_neg hend]
    refine (ensures_pure _).mpr ⟨rfl, rfl, ⟨hlt, h.nonempty⟩, ?_, ?_⟩
    · rw [hpages]; rfl
    · rw [hpages]; rfl

/-- The inner loop takes leaves as long as there are slots. -/
theorem trunkLeaves_ensures {size : Nat} : ∀ {capacity : Nat} {leaves : List Nat} {page : Bytes}
    {free : FreeReader} {w : Writer} {l : Ledger}, Trunk size page leaves → free.Ok →
    8 + (leaves.length + capacity) * 4 ≤ size →
    Ensures (protocol faults) (trunkLeaves capacity leaves.length page free) w l
      (fun r w' l' => w' = w ∧ l' = l ∧ r.2.2.Ok ∧
        Trunk size r.1 (leaves ++ free.pages.take capacity) ∧
        r.2.1 = (leaves ++ free.pages.take capacity).length ∧
        r.2.2.pages = free.pages.drop capacity)
      (fun fault _ _ => fault.isPanic = false)
  | 0, leaves, page, free, _, _, htrunk, hfree, _ => by
      refine (ensures_pure _).mpr ⟨rfl, rfl, hfree, ?_, ?_, ?_⟩
      · simpa using htrunk
      · simp
      · simp
  | capacity + 1, leaves, page, free, _, _, htrunk, hfree, hroom => by
      unfold trunkLeaves
      refine (nextFree_ensures hfree).bind ?_ fun _ _ _ hp => hp
      rintro ⟨leaf, free'⟩ w' l' ⟨rfl, rfl, hfree', hhead, htail⟩
      simp only at hfree' hhead htail
      cases hpages : free.pages with
      | nil =>
          rw [hpages] at hhead htail
          subst hhead
          refine (ensures_pure _).mpr ⟨rfl, rfl, hfree', ?_, ?_, ?_⟩
          · simpa using htrunk
          · simp
          · simpa using htail
      | cons first rest =>
          rw [hpages] at hhead htail
          subst hhead
          have hpush : Trunk size _ (leaves ++ [first]) := htrunk.push (by omega)
          have hlen : leaves.length + 1 = (leaves ++ [first]).length := by simp
          simp only [hlen]
          refine (trunkLeaves_ensures hpush hfree' (by rw [← hlen]; omega)).mono ?_
            fun _ _ _ hp => hp
          rintro ⟨page', count, free''⟩ w₁ l₁ ⟨rfl, rfl, hfree₁, htrunk₁, hcount₁, hpages₁⟩
          have htake : leaves ++ [first] ++ free'.pages.take capacity
              = leaves ++ (first :: rest).take (capacity + 1) := by
            rw [htail]
            simp
          rw [htake] at htrunk₁ hcount₁
          exact ⟨rfl, rfl, hfree₁, htrunk₁, hcount₁, by rw [hpages₁, htail]; simp⟩

end

/-! ## The trunks -/

/-- Writing trunks on the pages `pages` changes nothing else in the ledger. -/
structure Filled (l l' : Ledger) (pages : List Nat) : Prop where
  wf : l'.Wf
  written : ∃ new, l'.written = l.written ++ new ∧ ∀ page ∈ new.map Prod.fst, page ∈ pages
  owned : ∀ page, l'.owned page → l.owned page
  closed : l'.closed = l.closed
  next : l'.next = l.next
  freeCount : l'.freeCount = l.freeCount
  header : l'.header = l.header

/-- Filling pages in two steps fills them. -/
theorem Filled.trans {a b c : Ledger} {pages : List Nat} (h₁ : Filled a b pages)
    (h₂ : Filled b c pages) : Filled a c pages where
  wf := h₂.wf
  written := by
    obtain ⟨x, hx, hmem⟩ := h₁.written
    obtain ⟨y, hy, hmem'⟩ := h₂.written
    refine ⟨x ++ y, by rw [hy, hx, List.append_assoc], fun page hp => ?_⟩
    rw [List.map_append, List.mem_append] at hp
    exact hp.elim (hmem page) (hmem' page)
  owned page hp := h₁.owned page (h₂.owned page hp)
  closed := h₂.closed.trans h₁.closed
  next := h₂.next.trans h₁.next
  freeCount := h₂.freeCount.trans h₁.freeCount
  header := h₂.header.trans h₁.header

theorem Filled.mono {l l' : Ledger} {pages pages' : List Nat} (h : Filled l l' pages)
    (hsub : ∀ page ∈ pages, page ∈ pages') : Filled l l' pages' :=
  { h with written := h.written.imp fun _ hw => ⟨hw.1, fun page hp => hsub page (hw.2 page hp)⟩ }

/-- Filling pages keeps the pages there are. -/
theorem Filled.within {l l' : Ledger} {pages : List Nat} (h : Filled l l' pages) :
    l.view.Within l'.view := by
  obtain ⟨new, hnew, _⟩ := h.written
  exact fun _ _ hv => Ledger.view_mono ⟨new, hnew.symm⟩ hv

/-- One trunk page. -/
theorem Filled.write {l : Ledger} {page : Nat} (bytes : Bytes) (h : l.Wf) (hpage : l.owned page) :
    Filled l (l.write page bytes) [page] ∧ (l.write page bytes).view page = some bytes := by
  have hallowed : l.Writable page bytes := .inl hpage
  refine ⟨⟨h.write hallowed, ⟨[(page, bytes)], rfl, by simp⟩, fun _ hp => hp.1, rfl, rfl, rfl,
    rfl⟩, ?_⟩
  exact Ledger.view_concat rfl (hallowed.fresh h)

/-- The pages are the writer's, and `u32` numbers them. -/
def Usable (l : Ledger) (pages : List Nat) : Prop :=
  pages.Nodup ∧ ∀ page ∈ pages, l.owned page ∧ 1 ≤ page ∧ page < 2 ^ 32

section
variable {faults : Prop}

/-- The outer loop turns the pages into a freelist; every round takes at least one of them. -/
theorem trunks_ensures {oldTrunk : Nat} (hold : oldTrunk < 2 ^ 32) : ∀ {rounds trunk counted : Nat}
    {free : FreeReader} {w : Writer} {l : Ledger}, free.Ok →
    (trunk :: free.pages).length ≤ rounds → l.Wf → Usable l (trunk :: free.pages) →
    Ensures (protocol faults) (trunks oldTrunk rounds trunk counted free) w l
      (fun total w' l' => total = counted + (trunk :: free.pages).length ∧
        w'.header = w.header ∧ w'.nextPage = w.nextPage ∧ Filled l l' (trunk :: free.pages) ∧
        ∃ trunks, readFreelist w.pageSize.bytes l'.view trunks trunk
          = some (trunk :: free.pages, oldTrunk))
      (fun fault _ _ => fault.isPanic = false)
  | 0, _, _, _, _, _, _, hrounds, _, _ => by simp at hrounds
  | rounds + 1, trunk, counted, free, w, l, hfree, hrounds, hwf, husable => by
      have hlower := w.pageSize.lower
      have hupper := w.pageSize.upper
      simp only [trunks, ensures_bind, ensures_get]
      have hempty := Trunk.empty w.pageSize.bytes
      refine Ensures.mono (trunkLeaves_ensures hempty hfree (by simp only [List.length_nil]; omega))
        ?_ fun _ _ _ hp => hp
      rintro ⟨page, count, free₁⟩ w₁ l₁ ⟨rfl, rfl, hfree₁, htrunk, rfl, hpages₁⟩
      simp only [List.nil_append] at htrunk ⊢
      refine (nextFree_ensures hfree₁).mono ?_ fun _ _ _ hp => hp
      rintro ⟨next, free₂⟩ w₂ l₂ ⟨rfl, rfl, hfree₂, hhead, htail⟩
      simp only at hfree₁ hpages₁ hfree₂ hhead htail ⊢
      generalize hcapacity : w₂.pageSize.bytes / 4 - 8 = capacity at htrunk hpages₁ ⊢
      generalize hleaves : free.pages.take capacity = leaves at htrunk ⊢
      have hsplit : free.pages = leaves ++ free₁.pages := by
        rw [← hleaves, hpages₁, List.take_append_drop]
      have hfew : leaves.length ≤ w₂.pageSize.bytes / 4 - 8 := by
        rw [← hleaves, List.length_take]
        omega
      obtain ⟨hnodup, hpages⟩ := husable
      obtain ⟨hnot, hnodup'⟩ := List.nodup_cons.mp hnodup
      have hnextlt : next.getD oldTrunk < 2 ^ 32 := by
        cases hn : free₁.pages with
        | nil =>
            rw [hn] at hhead
            subst hhead
            exact hold
        | cons first rest =>
            rw [hn] at hhead
            subst hhead
            refine (hpages first ?_).2.2
            rw [hsplit, hn]
            simp
      have hread := htrunk.read hfew hlower hupper hnextlt fun leaf hleaf =>
        (hpages leaf
          (List.mem_cons_of_mem _ (by rw [hsplit]; exact List.mem_append_left _ hleaf))).2.2
      by_cases hmuch : counted + (leaves.length + 1) > u32Max
      · rw [if_pos hmuch]
        rfl
      · rw [if_neg hmuch]
        simp only [ensures_bind, ensures_modify]
        have htrunkpage := hpages trunk List.mem_cons_self
        have hposition : trunk - 1 + 1 = trunk := by omega
        refine ensures_writeAll ?_ ?_ fun _ _ hp => hp
        · simp only [hposition]
          exact .inl htrunkpage.1
        · simp only [hposition]
          obtain ⟨hfilled, hview⟩ := Filled.write (overwrite (overwrite page 0
            (toBE 4 (next.getD oldTrunk))) 4 (toBE 4 leaves.length)) hwf htrunkpage.1
          cases hn : free₁.pages with
          | nil =>
              rw [hn] at hhead hsplit
              subst hhead
              simp only [List.append_nil] at hsplit
              refine (ensures_pure _).mpr ⟨by rw [hsplit]; simp, rfl, rfl,
                hfilled.mono (by simp), 1, ?_⟩
              simp only [readFreelist, hview, hsplit, Option.bind_eq_bind, Option.bind_some]
              rw [hread]
              simp
          | cons first rest =>
              rw [hn] at hhead htail hsplit
              subst hhead
              have hrest : free.pages = leaves ++ (first :: free₂.pages) := by
                rw [hsplit, htail]; rfl
              have husable₂ : Usable (l₂.write trunk (overwrite (overwrite page 0
                  (toBE 4 first)) 4 (toBE 4 leaves.length))) (first :: free₂.pages) := by
                refine ⟨?_, fun p hp => ?_⟩
                · rw [hrest] at hnodup'
                  exact (List.nodup_append.mp hnodup').2.1
                · have hmem : p ∈ free.pages := by
                    rw [hrest]
                    exact List.mem_append_right _ hp
                  obtain ⟨howned, hbounds⟩ := hpages p (List.mem_cons_of_mem _ hmem)
                  refine ⟨⟨howned, ?_⟩, hbounds⟩
                  rintro rfl
                  exact hnot hmem
              have hlength : (first :: free₂.pages).length ≤ rounds := by
                rw [hrest] at hrounds
                simp only [List.length_cons, List.length_append] at hrounds ⊢
                omega
              refine (trunks_ensures hold hfree₂ hlength hfilled.wf husable₂).mono ?_
                fun _ _ _ hp => hp
              rintro total w₃ l₃ ⟨rfl, hheader, hnext, hfilled₃, trunks, hlist⟩
              have hsub : ∀ p ∈ first :: free₂.pages, p ∈ trunk :: free.pages := by
                intro p hp
                rw [hrest]
                exact List.mem_cons_of_mem _ (List.mem_append_right _ hp)
              refine ⟨?_, hheader, hnext, (hfilled.mono (by simp)).trans (hfilled₃.mono hsub),
                trunks + 1, ?_⟩
              · rw [hrest]
                simp only [List.length_cons, List.length_append]
                omega
              · simp only [readFreelist, hfilled₃.within trunk _ hview, Option.bind_eq_bind,
                  Option.bind_some]
                rw [hread]
                simp [hlist, hrest]

variable {w : Writer} {l : Ledger}

/-- The two fields of the freelist are read back from the header. -/
theorem slice_header {header : Bytes} (h : header.length = 100) {first count : Nat}
    (hfirst : first < 2 ^ 32) (hcount : count < 2 ^ 32) :
    (overwrite (overwrite header 32 (toBE 4 first)) 36 (toBE 4 count)).length = 100 ∧
      ofBE (slice (overwrite (overwrite header 32 (toBE 4 first)) 36 (toBE 4 count)) 32 4) = first ∧
      ofBE (slice (overwrite (overwrite header 32 (toBE 4 first)) 36 (toBE 4 count)) 36 4)
        = count := by
  have h₁ : 32 + (toBE 4 first).length ≤ header.length := by rw [length_toBE]; omega
  have hlen := length_overwrite h₁
  have h₂ : 36 + (toBE 4 count).length ≤ (overwrite header 32 (toBE 4 first)).length := by
    rw [length_toBE]
    omega
  refine ⟨by rw [length_overwrite h₂, hlen, h], ?_, ?_⟩
  · rw [slice_overwrite_of_disjoint h₂ (by omega), slice_overwrite_self h₁ (by simp),
      ofBE_toBE_of_lt (by simpa using hfirst)]
  · rw [slice_overwrite_self h₂ (by simp), ofBE_toBE_of_lt (by simpa using hcount)]

/-- `write_freelist` lists every page of the spool once, in front of the old freelist, and writes no
other page. -/
theorem writeFreelist_ensures {freeCount : Nat} {ranges : List (Nat × Nat)}
    (hranges : Returnable ranges) (hwf : l.Wf) (husable : Usable l (rangePages ranges))
    (hheader : w.header.length = 100) :
    Ensures (protocol faults) (writeFreelist freeCount ranges) w l
      (fun _ w' l' => freeCount = (rangePages ranges).length ∧
        Listed w.pageSize.bytes l'.view w.header w'.header (rangePages ranges) ∧
        Filled l l' (rangePages ranges) ∧ w'.nextPage = w.nextPage)
      (fun fault _ _ => fault.isPanic = false) := by
  simp only [writeFreelist, ensures_bind, ensures_get]
  refine ensures_scratch ?_ fun _ _ hp => hp
  have hok : FreeReader.Ok ⟨(0, 0), ranges⟩ := ⟨Nat.le_refl _, hranges.nonempty⟩
  have hstart : FreeReader.pages ⟨(0, 0), ranges⟩ = rangePages ranges := by
    simp [FreeReader.pages]
  refine (nextFree_ensures hok).mono ?_ fun _ _ _ hp => hp
  rintro ⟨first, free⟩ w₁ l₁ ⟨rfl, rfl, hfree, hhead, htail⟩
  rw [hstart] at hhead htail
  simp only at hfree hhead htail ⊢
  cases hpages : rangePages ranges with
  | nil =>
      rw [hpages] at hhead
      subst hhead
      rfl
  | cons trunk rest =>
      rw [hpages] at hhead htail husable
      subst hhead
      simp only [List.tail_cons] at htail ⊢
      rw [← htail] at husable ⊢
      have hold : ofBE (slice w₁.header 32 4) < 2 ^ 32 := slice_lt (by omega)
      refine ensures_bind.mpr ((trunks_ensures hold hfree (Nat.le_refl _) hwf husable).mono ?_
        fun _ _ _ hp => hp)
      rintro total w₂ l₂ ⟨rfl, hheader₂, hnext₂, hfilled, hlist⟩
      split
      · rfl
      · rename_i hcount
        simp only [Nat.zero_add, ne_eq, not_not] at hcount
        simp only [ensures_bind, ensures_modify]
        split
        · rfl
        · rename_i hmuch
          obtain ⟨hlength, hfirst, htotal⟩ := slice_header hheader
            (husable.2 trunk List.mem_cons_self).2.2
            (show ofBE (slice w₁.header 36 4) + freeCount < 2 ^ 32 by
              simp only [u32Max] at hmuch; omega)
          refine (ensures_modify _).mpr ⟨hcount.symm, ⟨?_, ?_, ?_⟩, hfilled, hnext₂⟩
          · rw [hheader₂]
            exact hlength
          · rw [hheader₂, hfirst]
            exact hlist
          · rw [hheader₂, htotal, ← hcount]

/-! ## `finish` -/

/-- What `finish` leaves behind: `ranges` is the spool it took over, `next` and `count` what it
read of the allocator, `header` what it wrote. -/
structure Finished (w : Writer) (l l' : Ledger) (ranges : List (Nat × Nat)) (next count : Nat)
    (header : Bytes) : Prop where
  listed : count = (rangePages ranges).length → next - 1 < 2 ^ 32 →
    Listed w.pageSize.bytes l'.view w.header header (rangePages ranges) ∧
      ofBE (slice header 28 4) = next - 1
  written : ∃ new, l'.written = l.written ++ new ∧
    ∀ page ∈ new.map Prod.fst, page ∈ rangePages ranges
  owned : ∀ page, l'.owned page → page ∈ rangePages ranges
  closed : l'.closed = some ranges
  next : l'.next = some next
  freeCount : l'.freeCount = some count
  header : l'.header = some header

/-- The state of `finish` before it writes the header. -/
structure Unpublished (w : Writer) (l : Ledger) (w' : Writer) (l' : Ledger)
    (ranges : List (Nat × Nat)) (next count : Nat) : Prop where
  listed : count = (rangePages ranges).length →
    Listed w.pageSize.bytes l'.view w.header w'.header (rangePages ranges)
  written : ∃ new, l'.written = l.written ++ new ∧
    ∀ page ∈ new.map Prod.fst, page ∈ rangePages ranges
  owned : ∀ page, l'.owned page → page ∈ rangePages ranges
  closed : l'.closed = some ranges
  next : l'.next = some next ∧ w'.nextPage = next
  freeCount : l'.freeCount = some count
  header : l'.header = none

/-- The last block is in the spool. -/
theorem Ready.empty (h : w.Ready l) {allocator : Allocator} {stop : Nat}
    (ha : w.allocator = some allocator) (hstop : w.rangeEnd = some stop) (page : Nat) :
    ¬ (l.release (allocator.tailRanges w.nextPage stop)).owned page := by
  intro howned
  obtain ⟨_, hle, stop', hstop', hlt⟩ := (h.retire ha hstop).exact page (by simp [ha]) howned
  cases hstop'
  simp only at hle
  omega

/-- The tail of the coordinator may go to the spool. -/
theorem Ready.returnTail (h : w.Ready l) {allocator : Allocator} {stop : Nat}
    (ha : w.allocator = some allocator) (hstop : w.rangeEnd = some stop)
    {ok : Unit → Writer → Ledger → Prop} {err : Fault → Writer → Ledger → Prop}
    (hok : ok () w (l.release (allocator.tailRanges w.nextPage stop)))
    (herr : ∀ fault w' l', fault.isPanic = false → err fault w' l') :
    Ensures (protocol faults) (returnTail allocator w.nextPage stop) w l ok err := by
  refine ensures_returnTail (fun page hle hlt hne => ?_) hok fun fault l' _ => herr fault w l'
  rw [(h.pending allocator ha).1] at hne
  refine (h.block page hle fun stop' hstop' => ?_).1 hne
  rw [hstop] at hstop'
  cases hstop'
  exact hlt

/-- Behind the last return the pages of the spool are listed, and the header is still to be written.
-/
theorem settle_ensures {allocator : Allocator} (h : w.Ready l) (ha : w.allocator = some allocator)
    (hheader : w.header.length = 100) :
    Ensures (protocol faults) (settle allocator) w l
      (fun _ w' l' => ∃ ranges next count, Unpublished w l w' l' ranges next count)
      (fun fault _ _ => fault.isPanic = false) := by
  obtain ⟨_, stop, hstop⟩ := h.pending allocator ha
  simp only [settle, ensures_bind, ensures_call]
  refine ⟨trivial, ?_⟩
  rintro active l₁ rfl
  split
  · rfl
  simp only [ensures_bind, ensures_call]
  refine ⟨trivial, ?_⟩
  rintro failed l₂ rfl
  split
  · rfl
  simp only [ensures_bind, ensures_get, hstop]
  refine h.returnTail ha hstop ?_ fun _ _ _ hp => hp
  have hempty := h.empty ha hstop
  have hwf := h.wf.release (allocator.tailRanges w.nextPage stop)
  refine (ensures_call _).mpr ⟨h.unread.2.1, ?_⟩
  rintro (fault | ranges) l₃ hanswer
  · exact hanswer.2.1
  obtain ⟨hranges, hpages, rfl⟩ := hanswer
  have hwf₃ := hwf.take fun page hp => (hpages page hp).1
  simp only [Method.ofExcept, ensures_pure, ensures_call, ensures_modify]
  refine ⟨trivial, ?_⟩
  rintro next l₄ rfl
  refine ⟨trivial, ?_⟩
  rintro (fault | ⟨⟩) l₅ hanswer
  · exact hanswer.2.1
  obtain rfl : l₅ = _ := hanswer
  simp only [ensures_pure]
  refine ⟨trivial, ?_⟩
  rintro count l₆ rfl
  have howned : ∀ page, (l₂.release (allocator.tailRanges w.nextPage stop)).owned page ∨
      page ∈ rangePages ranges → page ∈ rangePages ranges :=
    fun page hp => hp.resolve_left (hempty page)
  split
  · have husable : Usable { (l₂.release (allocator.tailRanges w.nextPage stop)).take ranges with
        next := some next, freeCount := some count } (rangePages ranges) :=
      ⟨hranges.nodup, fun page hp => ⟨.inr hp, (hpages page hp).2.1, by
        have := (hpages page hp).2.2
        simp only [u32Max] at this
        omega⟩⟩
    have hwf₆ : Ledger.Wf { (l₂.release (allocator.tailRanges w.nextPage stop)).take ranges with
        next := some next, freeCount := some count } :=
      ⟨hwf₃.1, hwf₃.2, hwf₃.3, hwf₃.4, hwf₃.5, hwf₃.6⟩
    refine Ensures.mono (writeFreelist_ensures hranges hwf₆ husable (by exact hheader)) ?_
      fun _ _ _ hp => hp
    rintro ⟨⟩ w₁ l₇ ⟨_, hlisted, hfilled, hnext⟩
    exact ⟨ranges, next, count, fun _ => hlisted, hfilled.written,
      fun page hp => howned page (hfilled.owned page hp), hfilled.closed,
      ⟨hfilled.next, hnext⟩, hfilled.freeCount, hfilled.header.trans h.unread.2.2⟩
  · rename_i hzero
    refine (ensures_pure _).mpr ⟨ranges, next, count, fun hcount => ?_, ⟨[], by simp [Ledger.take,
      Ledger.release], by simp⟩, howned, rfl, ⟨rfl, rfl⟩, rfl, h.unread.2.2⟩
    have hnil : rangePages ranges = [] :=
      List.length_eq_zero_iff.mp (hcount.symm.trans (Nat.eq_zero_of_not_pos hzero))
    rw [hnil]
    exact .nil hheader

/-- `finish` writes the header last. -/
theorem publish_ensures {w' : Writer} {l' : Ledger} {ranges : List (Nat × Nat)} {next count : Nat}
    (h : Unpublished w l w' l' ranges next count) :
    Ensures (protocol faults) publish w' l'
      (fun _ _ l'' => ∃ header, Finished w l l'' ranges next count header)
      (fun fault _ _ => fault.isPanic = false) := by
  simp only [publish, ensures_bind, ensures_modify, ensures_get, ensures_call]
  refine ⟨h.header, ?_⟩
  rintro (fault | ⟨⟩) l₁ hanswer
  · exact hanswer.2.1
  obtain rfl : l₁ = _ := hanswer
  simp only [Method.ofExcept, ensures_pure]
  refine ensures_flush ⟨_, fun hcount hnext => ?_, h.written, h.owned, h.closed, h.next.1,
    h.freeCount, rfl⟩ fun _ _ hp => hp
  rw [h.next.2]
  exact (h.listed hcount).stamped hnext

/-- `finish` of a coordinator. -/
theorem finish_ensures (h : w.Ready l) (ha : w.allocator.isSome) (hheader : w.header.length = 100) :
    Ensures (protocol faults) finish w l
      (fun _ _ l' => ∃ ranges next count header, Finished w l l' ranges next count header)
      (fun fault _ _ => fault.isPanic = false) := by
  obtain ⟨allocator, ha⟩ := Option.isSome_iff_exists.mp ha
  simp only [finish, ensures_bind, ensures_get]
  split
  · rfl
  · simp only [ensures_bind, ha]
    refine ensures_flush ?_ fun _ _ hp => hp
    refine (settle_ensures h ha hheader).mono ?_ fun _ _ _ hp => hp
    rintro ⟨⟩ w₁ l₁ ⟨ranges, next, count, hsettled⟩
    refine (publish_ensures hsettled).mono (fun _ _ _ hpublished => ?_) fun _ _ _ hp => hp
    obtain ⟨header, hf⟩ := hpublished
    exact ⟨_, _, _, _, hf⟩

/-! ## `complete` -/

/-- A writer that completes has nothing left. -/
theorem complete_ensures (h : w.Ready l) (ha : w.allocator.isSome) :
    Ensures (protocol faults) complete w l (fun _ _ l' => ∀ page, ¬ l'.owned page)
      (fun fault _ _ => fault.isPanic = false) := by
  obtain ⟨allocator, ha⟩ := Option.isSome_iff_exists.mp ha
  obtain ⟨_, stop, hstop⟩ := h.pending allocator ha
  simp only [complete, ensures_bind, ensures_get, ha]
  split
  · rfl
  · simp only [ensures_bind, ensures_call]
    refine ⟨trivial, ?_⟩
    rintro failed l₁ rfl
    split
    · rfl
    · simp only [ensures_bind, hstop]
      refine ensures_flush (h.returnTail ha hstop ?_ fun _ _ _ hp => hp) fun _ _ hp => hp
      simp only [ensures_modify, ensures_call]
      refine ⟨trivial, ?_⟩
      rintro ⟨⟩ l₂ rfl
      exact h.empty ha hstop

/-- Dropping a writer does nothing to its pages. -/
theorem drop_ensures {Q : Ledger → Prop} (h : Q l) :
    Ensures (protocol faults) drop w l (fun _ _ l' => Q l') (fun _ _ _ => False) := by
  simp only [drop, ensures_bind, ensures_get]
  split
  · simp only [ensures_bind, ensures_call]
    refine ⟨trivial, ?_⟩
    rintro ⟨⟩ l₁ rfl
    refine ⟨trivial, ?_⟩
    rintro ⟨⟩ l₂ rfl
    exact h
  · exact h

theorem consuming_ensures {m : WriterM Unit} {Q : Ledger → Prop}
    (h : Ensures (protocol faults) m w l (fun _ _ l' => Q l') (fun _ _ _ => True)) :
    Ensures (protocol faults) (consuming m) w l (fun _ _ l' => Q l') (fun _ _ _ => True) := by
  simp only [consuming, ensures_bind, ensures_attempt]
  refine h.mono ?_ ?_
  · rintro ⟨⟩ w₁ l₁ hQ
    exact (drop_ensures hQ).mono (fun _ _ _ hQ => hQ) fun _ _ _ hf => hf.elim
  · rintro fault w₁ l₁ _
    exact (drop_ensures (Q := fun _ => True) trivial).mono (fun _ _ _ _ => trivial)
      fun _ _ _ hf => hf.elim

end

end Writer

end Velr
