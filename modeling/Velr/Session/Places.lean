import Velr.PageWriter.Append
import Velr.Session.Poison

/-!
# Where every page is

The pages behind the bootstrap file, shared out among the agents of a session. A `Place` says for
each of them who has it: no block yet, the ledger of one agent, the file, or the spool of free
pages. Since it is a function of the page, no page is in two places, and no page is in none.
`Places` ties it to the shared memory and to the ledgers; every access whose ledger follows
`protocol` keeps it, whoever performs it (`Places.performs`).

`Closing` is what the coordinator knows once `finish` has taken the spool over.
-/

namespace Velr.Session

open ByteString Interleaving

/-- Where a page behind the bootstrap file is. -/
inductive Place where
  /-- In no block yet. -/
  | bare
  /-- In a block of `agent`, neither written nor returned. -/
  | held (agent : Nat)
  /-- The pending-byte page of a block of `agent`. -/
  | hole (agent : Nat)
  | written (agent : Nat)
  /-- In the spool of free pages. -/
  | free
  /-- In a spool that could not be closed. -/
  | lost
  deriving DecidableEq

/-- The spool holds the free pages and nothing else. -/
structure Spooled (count : Nat) (place : Nat → Place) (ranges : List (Nat × Nat)) : Prop where
  returnable : Returnable ranges
  mem : ∀ page, page ∈ rangePages ranges ↔ place page = .free
  count : count = (rangePages ranges).length

/-- The places of the pages, the ledgers of the agents, the allocator and the file agree. -/
structure Places (A : Allocator) (s : Shared) (ls : Nat → Ledger) (place : Nat → Place) : Prop where
  start : 1 ≤ A.bootstrapEnd
  next : A.bootstrapEnd ≤ s.next ∧ s.next ≤ u32Max
  bare : ∀ page, place page = .bare ↔ page < A.bootstrapEnd ∨ s.next ≤ page
  wf : ∀ a, (ls a).Wf
  owned : ∀ a page, (ls a).owned page ↔ place page = .held a
  holes : ∀ a page, (ls a).holes page ↔ place page = .hole a
  roots : ∀ a page, (ls a).roots page → (a, page) ∈ s.claims
  written : ∀ a write, write ∈ (ls a).written →
    (place write.1 = .written a ∨ (a, write.1) ∈ s.claims) ∧
      ∃ t ∈ s.file, t.page = write.1 ∧ t.bytes = write.2
  claims : ∀ claim ∈ s.claims, 1 < claim.2 ∧ claim.2 < A.bootstrapEnd
  planted : ∀ t ∈ s.file, t.page < A.bootstrapEnd → (t.agent, t.page) ∈ s.claims
  hole : ∀ a page, place page = .hole a → page = A.pending
  usable : ∀ page, place page = .free ∨ (∃ a, place page = .held a) → page ≠ A.pending
  file : ∀ page, A.bootstrapEnd ≤ page →
    (page ∈ s.file.map Write.page ↔ ∃ a, place page = .written a)
  nodup : ((s.file.map Write.page).filter (A.bootstrapEnd ≤ ·)).Nodup
  zeros : ∀ t ∈ s.file, A.bootstrapEnd ≤ t.page → t.page = A.pending →
    t.bytes = List.replicate t.bytes.length 0
  spool : ∀ ranges, s.freeOutput = some ranges → Spooled s.freeCount place ranges
  closed : s.freeOutput = none → ∀ page, place page ≠ .free
  lost : ∀ page, place page = .lost → s.freeOutput = none

theorem rangePages_append (a b : List (Nat × Nat)) :
    rangePages (a ++ b) = rangePages a ++ rangePages b := List.flatMap_append

namespace Places

variable {A : Allocator} {s s' : Shared} {ls : Nat → Ledger} {place : Nat → Place} {agent : Nat}
  {l' : Ledger}

/-- What an agent's new ledger has in common with the old one, all ledgers have. -/
theorem updated (ls : Nat → Ledger) (agent : Nat) {β : Type} (g : Ledger → β) (l' : Ledger)
    (h : g l' = g (ls agent)) (a : Nat) : g (Function.update ls agent l' a) = g (ls a) := by
  by_cases ha : a = agent
  · subst ha
    rw [Function.update_self]
    exact h
  · rw [Function.update_of_ne ha]

/-! ## Bounds -/

/-- A page that some block has is behind the bootstrap file and in front of the next block. -/
theorem bounds (h : Places A s ls place) {page : Nat} (hpage : place page ≠ .bare) :
    A.bootstrapEnd ≤ page ∧ page < s.next := by
  have := (h.bare page).not.mp hpage
  omega

/-- A claimed page is one of the bootstrap file, and in no other place. -/
theorem claimed (h : Places A s ls place) {a page : Nat} (hpage : (a, page) ∈ s.claims) :
    page < A.bootstrapEnd ∧ place page = .bare := by
  have := (h.claims _ hpage).2
  exact ⟨this, (h.bare page).mpr (.inl this)⟩

/-- A page that is in a place lies behind the bootstrap file, below the page that comes next. -/
theorem bounds_at (h : Places A s ls place) {page : Nat} {there : Place}
    (hplace : place page = there) (hbare : there ≠ .bare) :
    A.bootstrapEnd ≤ page ∧ page < s.next :=
  h.bounds (hplace ▸ hbare)

/-- A ledger has to do with the agent's roots and with the pages it holds or has written. -/
theorem has_cases (h : Places A s ls place) {a page : Nat} (hpage : (ls a).Has page) :
    (a, page) ∈ s.claims ∨ place page = .held a ∨ place page = .hole a ∨
      place page = .written a := by
  rcases hpage with hp | hp | hp | hp
  · exact .inr (.inl ((h.owned a page).mp hp))
  · exact .inr (.inr (.inl ((h.holes a page).mp hp)))
  · exact .inl (h.roots a page hp)
  · obtain ⟨write, hmem, rfl⟩ := List.mem_map.mp hp
    exact (h.written a write hmem).1.symm.imp_right fun hw => .inr (.inr hw)

/-- A ledger has to do with pages in front of the next block only. -/
theorem has_lt (h : Places A s ls place) {a page : Nat} (hpage : (ls a).Has page) :
    page < s.next := by
  rcases h.has_cases hpage with hp | hp | hp | hp
  · exact (h.claimed hp).1.trans_le h.next.1
  all_goals exact (h.bounds_at hp (by simp)).2

/-- A root that no agent has claimed is in no ledger. -/
theorem root_fresh (h : Places A s ls place) {a root : Nat} (hroot : root < A.bootstrapEnd)
    (hnew : root ∉ s.claims.map Prod.snd) : ¬ (ls a).Has root := by
  have hbare : place root = .bare := (h.bare root).mpr (.inl hroot)
  intro hroot
  rcases h.has_cases hroot with hp | hp | hp | hp
  · exact hnew (List.mem_map_of_mem hp)
  all_goals
    rw [hbare] at hp
    cases hp

/-- Pages of the spool are in no ledger. -/
theorem free_fresh (h : Places A s ls place) {a page : Nat} (hfree : place page = .free) :
    ¬ (ls a).Has page := by
  intro hpage
  rcases h.has_cases hpage with hp | hp | hp | hp
  · have := (h.claimed hp).2
    rw [hfree] at this
    cases this
  all_goals
    rw [hfree] at hp
    cases hp

/-! ## Accesses -/

/-- Only the ledger of one agent changes, and only in what `finish` reads and writes. -/
theorem same (h : Places A s ls place) (hwf : l'.Wf) (howned : l'.owned = (ls agent).owned)
    (hholes : l'.holes = (ls agent).holes)
    (hroots : ∀ page, l'.roots page → (agent, page) ∈ s.claims)
    (hwritten : ∀ write ∈ l'.written, write ∈ (ls agent).written) :
    Places A s (Function.update ls agent l') place :=
  { h with
    wf := (Function.forall_update_iff ls fun _ l => l.Wf).mpr ⟨hwf, fun a _ => h.wf a⟩
    owned := fun a page => by
      rw [updated ls agent Ledger.owned l' howned a]
      exact h.owned a page
    holes := fun a page => by
      rw [updated ls agent Ledger.holes l' hholes a]
      exact h.holes a page
    roots := (Function.forall_update_iff ls fun a l =>
      ∀ page, l.roots page → (a, page) ∈ s.claims).mpr ⟨hroots, fun a _ => h.roots a⟩
    written := (Function.forall_update_iff ls fun a l => ∀ write, write ∈ l.written →
      (place write.1 = .written a ∨ (a, write.1) ∈ s.claims) ∧
        ∃ t ∈ s.file, t.page = write.1 ∧ t.bytes = write.2).mpr
      ⟨fun write hw => h.written agent write (hwritten write hw), fun a _ => h.written a⟩ }

/-- Fields of the shared memory that no page depends on. -/
theorem congr (h : Places A s ls place) (hnext : s'.next = s.next) (hclaims : s'.claims = s.claims)
    (hfile : s'.file = s.file) (hfree : s'.freeOutput = s.freeOutput)
    (hcount : s'.freeCount = s.freeCount) : Places A s' ls place where
  start := h.start
  next := hnext ▸ h.next
  bare := hnext ▸ h.bare
  wf := h.wf
  owned := h.owned
  holes := h.holes
  roots := hclaims ▸ h.roots
  written := hclaims ▸ hfile ▸ h.written
  claims := hclaims ▸ h.claims
  planted := hclaims ▸ hfile ▸ h.planted
  hole := h.hole
  usable := h.usable
  file := hfile ▸ h.file
  nodup := hfile ▸ h.nodup
  zeros := hfile ▸ h.zeros
  spool ranges hr := hcount ▸ h.spool ranges (hfree ▸ hr)
  closed hr := h.closed (hfree ▸ hr)
  lost page hp := hfree ▸ h.lost page hp

/-- Claiming a new root keeps every page in its place. -/
theorem claim (h : Places A s ls place) {root : Nat} (hroot : 1 < root ∧ root < A.bootstrapEnd)
    (hnew : root ∉ s.claims.map Prod.snd) :
    Places A { s with claims := (agent, root) :: s.claims }
      (Function.update ls agent ((ls agent).claim root)) place := by
  have hclaimed : Places A { s with claims := (agent, root) :: s.claims } ls place :=
    { h with
      roots := fun a page hp => List.mem_cons_of_mem _ (h.roots a page hp)
      written := fun a write hw =>
        ⟨(h.written a write hw).1.imp_right (List.mem_cons_of_mem _), (h.written a write hw).2⟩
      claims := fun claim hc => by
        rcases List.mem_cons.mp hc with rfl | hc
        · exact hroot
        · exact h.claims claim hc
      planted := fun t ht hlt => List.mem_cons_of_mem _ (h.planted t ht hlt) }
  refine hclaimed.same ((h.wf agent).claim (h.root_fresh hroot.2 hnew)) rfl rfl ?_ fun _ hw => hw
  rintro page (hp | rfl)
  · exact hclaimed.roots agent page hp
  · exact List.mem_cons_self

/-- The places behind a grant of a block from `start` to `stop`. -/
def granted (place : Nat → Place) (agent pending start stop : Nat) (page : Nat) : Place :=
  if start ≤ page ∧ page < stop then if page = pending then .hole agent else .held agent
  else place page

/-- A page of the new block was in no block before. -/
theorem granted_cases (h : Places A s ls place) (agent stop page : Nat) :
    (s.next ≤ page ∧ page < stop) ∧ place page = .bare ∧
        granted place agent A.pending s.next stop page =
          (if page = A.pending then .hole agent else .held agent) ∨
      ¬ (s.next ≤ page ∧ page < stop) ∧
        granted place agent A.pending s.next stop page = place page := by
  by_cases hp : s.next ≤ page ∧ page < stop
  · exact .inl ⟨hp, (h.bare page).mpr (.inr hp.1), if_pos hp⟩
  · exact .inr ⟨hp, if_neg hp⟩

/-- Only pages held, holes and bare pages are different behind a grant. -/
theorem of_granted (h : Places A s ls place) {stop page : Nat} {there : Place}
    (hheld : there ≠ .held agent) (hhole : there ≠ .hole agent) (hbare : there ≠ .bare) :
    granted place agent A.pending s.next stop page = there ↔ place page = there := by
  rcases h.granted_cases agent stop page with ⟨_, hp, hg⟩ | ⟨_, hg⟩
  · rw [hg, hp]
    split
    · exact ⟨fun he => absurd he.symm hhole, fun he => absurd he.symm hbare⟩
    · exact ⟨fun he => absurd he.symm hheld, fun he => absurd he.symm hbare⟩
  · rw [hg]

/-- So does a grant, in front of the pages it hands out. -/
theorem grant (h : Places A s ls place) {stop : Nat} (hle : s.next ≤ stop) (hmax : stop ≤ u32Max) :
    Places A { s with next := stop }
      (Function.update ls agent ((ls agent).grant A.pending s.next stop))
      (granted place agent A.pending s.next stop) where
  start := h.start
  next := ⟨h.next.1.trans hle, hmax⟩
  bare page := by
    have hbare := h.bare page
    rcases h.granted_cases agent stop page with ⟨hp, _, hg⟩ | ⟨hp, hg⟩
    · rw [hg]
      have := h.next.1
      constructor
      · split <;> simp
      · intro hout
        simp only at hout
        omega
    · rw [hg, hbare]
      simp only
      omega
  wf := (Function.forall_update_iff ls fun _ l => l.Wf).mpr
    ⟨(h.wf agent).grant fun page hp => h.has_lt hp, fun a _ => h.wf a⟩
  owned := by
    refine (Function.forall_update_iff ls fun a l => ∀ page, l.owned page ↔
      granted place agent A.pending s.next stop page = .held a).mpr
      ⟨fun page => ?_, fun a ha page => ?_⟩
    · simp only [Ledger.grant, h.owned]
      rcases h.granted_cases agent stop page with ⟨hp, hbare, hg⟩ | ⟨hp, hg⟩
      · rw [hg, hbare]
        split <;> simp_all
      · rw [hg]
        exact or_iff_left fun hin => hp ⟨hin.1, hin.2.1⟩
    · rw [h.of_granted (by simpa using ha) (by simp) (by simp)]
      exact h.owned a page
  holes := by
    refine (Function.forall_update_iff ls fun a l => ∀ page, l.holes page ↔
      granted place agent A.pending s.next stop page = .hole a).mpr
      ⟨fun page => ?_, fun a ha page => ?_⟩
    · simp only [Ledger.grant, h.holes]
      rcases h.granted_cases agent stop page with ⟨hp, hbare, hg⟩ | ⟨hp, hg⟩
      · rw [hg, hbare]
        split <;> simp_all
      · rw [hg]
        exact or_iff_left fun hin => hp ⟨hin.1, hin.2.1⟩
    · rw [h.of_granted (by simp) (by simpa using ha) (by simp)]
      exact h.holes a page
  roots a := by
    rw [updated ls agent Ledger.roots ((ls agent).grant A.pending s.next stop) rfl a]
    exact h.roots a
  written a write hw := by
    rw [updated ls agent Ledger.written ((ls agent).grant A.pending s.next stop) rfl a] at hw
    rw [h.of_granted (by simp) (by simp) (by simp)]
    exact h.written a write hw
  claims := h.claims
  planted := h.planted
  hole a page hp := by
    rcases h.granted_cases agent stop page with ⟨_, _, hg⟩ | ⟨_, hg⟩
    · rw [hg] at hp
      split at hp
      · assumption
      · cases hp
    · exact h.hole a page (hg ▸ hp)
  usable page hp := by
    rcases h.granted_cases agent stop page with ⟨_, _, hg⟩ | ⟨_, hg⟩
    · rw [hg] at hp
      split at hp
      · simp at hp
      · assumption
    · exact h.usable page (hg ▸ hp)
  file page hpage := by
    rw [h.file page hpage]
    exact exists_congr fun a => (h.of_granted (by simp) (by simp) (by simp)).symm
  nodup := h.nodup
  zeros := h.zeros
  spool ranges hr := by
    obtain ⟨hreturnable, hmem, hcount⟩ := h.spool ranges hr
    exact ⟨hreturnable, fun page => by
      rw [hmem, h.of_granted (by simp) (by simp) (by simp)], hcount⟩
  closed hr page hp :=
    h.closed hr page ((h.of_granted (by simp) (by simp) (by simp)).mp hp)
  lost page hp := h.lost page ((h.of_granted (by simp) (by simp) (by simp)).mp hp)

/-- The places once the pages `pages` are somewhere else. -/
def moved (place : Nat → Place) (pages : List Nat) (there : Place) (page : Nat) : Place :=
  if page ∈ pages then there else place page

theorem moved_of_mem {pages : List Nat} {there : Place} {page : Nat} (h : page ∈ pages) :
    moved place pages there page = there := if_pos h

theorem moved_of_notMem {pages : List Nat} {there : Place} {page : Nat} (h : page ∉ pages) :
    moved place pages there page = place page := if_neg h

/-- Moving pages does not touch a place that they neither leave nor enter. -/
theorem moved_iff {pages : List Nat} {there other : Place} {page : Nat}
    (hpages : page ∈ pages → place page ≠ other) (hthere : there ≠ other) :
    moved place pages there page = other ↔ place page = other := by
  by_cases hp : page ∈ pages
  · rw [moved_of_mem hp]
    exact ⟨fun he => absurd he hthere, fun he => absurd he (hpages hp)⟩
  · rw [moved_of_notMem hp]

/-- Pages that move from one place to another are in no third one. -/
theorem of_moved {pages : List Nat} {here there other : Place} {page : Nat}
    (hpages : ∀ page ∈ pages, place page = here) (hhere : other ≠ here) (hthere : other ≠ there) :
    moved place pages there page = other ↔ place page = other :=
  moved_iff (fun hp => by rw [hpages page hp]; exact hhere.symm) hthere.symm

/-- The spool has room for all page numbers. -/
theorem length_le {ranges : List (Nat × Nat)} (h : Places A s ls place)
    (hreturnable : Returnable ranges) (hplaces : ∀ page ∈ rangePages ranges, place page ≠ .bare) :
    (rangePages ranges).length ≤ u32Max := by
  have hsub : rangePages ranges ⊆ List.range s.next := fun page hp =>
    List.mem_range.mpr (h.bounds (hplaces page hp)).2
  have hle := (List.subperm_of_subset hreturnable.nodup hsub).length_le
  rw [List.length_range] at hle
  exact hle.trans h.next.2

/-- Ranges that the agent holds go to the spool. -/
theorem free (h : Places A s ls place) {spool done : List (Nat × Nat)}
    (hfree : s.freeOutput = some spool) (hdone : Returnable done)
    (hheld : ∀ page ∈ rangePages done, (ls agent).owned page) :
    Places A (s.spool spool done) (Function.update ls agent ((ls agent).release done))
      (moved place (rangePages done) .free) := by
  have hplace : ∀ page ∈ rangePages done, place page = .held agent :=
    fun page hp => (h.owned agent page).mp (hheld page hp)
  obtain ⟨hreturnable, hmem, hcount⟩ := h.spool spool hfree
  have hapart : Returnable (spool ++ done) := by
    refine ⟨fun range hr => ?_, ?_⟩
    · exact (List.mem_append.mp hr).elim (hreturnable.nonempty range) (hdone.nonempty range)
    · rw [rangePages_append, List.nodup_append]
      refine ⟨hreturnable.nodup, hdone.nodup, fun a ha b hb hab => ?_⟩
      have := hplace b hb
      rw [← hab, (hmem a).mp ha] at this
      cases this
  have hlength : (rangePages (spool ++ done)).length ≤ u32Max := by
    refine h.length_le hapart fun page hp => ?_
    rw [rangePages_append] at hp
    rcases List.mem_append.mp hp with hp | hp
    · rw [(hmem page).mp hp]; simp
    · rw [hplace page hp]; simp
  exact
    { start := h.start
      next := h.next
      bare := fun page => by
        rw [of_moved hplace (by simp) (by simp)]
        exact h.bare page
      wf := (Function.forall_update_iff ls fun _ l => l.Wf).mpr
        ⟨(h.wf agent).release done, fun a _ => h.wf a⟩
      owned := by
        refine (Function.forall_update_iff ls fun a l => ∀ page, l.owned page ↔
          moved place (rangePages done) .free page = .held a).mpr
          ⟨fun page => ?_, fun a ha page => ?_⟩
        · simp only [Ledger.release, h.owned]
          by_cases hp : page ∈ rangePages done
          · simp [moved_of_mem hp, hp]
          · simp [moved_of_notMem hp, hp]
        · rw [of_moved hplace (by simpa using ha) (by simp)]
          exact h.owned a page
      holes := fun a page => by
        rw [updated ls agent Ledger.holes ((ls agent).release done) rfl a,
          of_moved hplace (by simp) (by simp)]
        exact h.holes a page
      roots := fun a => by
        rw [updated ls agent Ledger.roots ((ls agent).release done) rfl a]
        exact h.roots a
      written := fun a write hw => by
        rw [updated ls agent Ledger.written ((ls agent).release done) rfl a] at hw
        rw [of_moved hplace (by simp) (by simp)]
        exact h.written a write hw
      claims := h.claims
      planted := h.planted
      hole := fun a page hp => h.hole a page ((of_moved hplace (by simp) (by simp)).mp hp)
      usable := fun page hp => by
        by_cases hin : page ∈ rangePages done
        · exact h.usable page (.inr ⟨agent, hplace page hin⟩)
        · rw [moved_of_notMem hin] at hp
          exact h.usable page hp
      file := fun page hpage => by
        rw [show (s.spool spool done).file = s.file from rfl, h.file page hpage]
        exact exists_congr fun a => (of_moved hplace (by simp) (by simp)).symm
      nodup := h.nodup
      zeros := h.zeros
      spool := fun ranges hr => by
        obtain rfl : spool ++ done = ranges := Option.some.inj hr
        refine ⟨hapart, fun page => ?_, ?_⟩
        · rw [rangePages_append, List.mem_append, hmem]
          by_cases hp : page ∈ rangePages done
          · simp [moved_of_mem hp, hp]
          · simp [moved_of_notMem hp, hp]
        · simp only [u32Max] at hlength
          simp only [Shared.spool, hcount, rangePages_append, List.length_append] at hlength ⊢
          exact Nat.mod_eq_of_lt (by omega)
      closed := fun hr => by cases hr
      lost := fun page hp => by
        have := h.lost page ((of_moved hplace (by simp) (by simp)).mp hp)
        rw [hfree] at this
        cases this }

/-- Where a page is that may be written. -/
theorem writable (h : Places A s ls place) {page : Nat} {bytes : Bytes}
    (hpage : (ls agent).Writable page bytes) :
    (A.bootstrapEnd ≤ page → place page = .held agent ∨
      place page = .hole agent ∧ bytes = List.replicate bytes.length 0) ∧
      (page < A.bootstrapEnd → (agent, page) ∈ s.claims ∧ place page = .bare) := by
  rcases hpage with hp | hp | ⟨hp, hzero⟩
  · have hplace := (h.owned agent page).mp hp
    have := h.bounds_at hplace (by simp)
    exact ⟨fun _ => .inl hplace, fun hlt => by omega⟩
  · have hclaims := h.roots agent page hp
    have hbare := h.claimed hclaims
    exact ⟨fun hle => by omega, fun _ => ⟨hclaims, hbare.2⟩⟩
  · have hplace := (h.holes agent page).mp hp
    have := h.bounds_at hplace (by simp)
    exact ⟨fun _ => .inr ⟨hplace, hzero⟩, fun hlt => by omega⟩

/-- A page that the agent may write goes to the file. -/
theorem write (h : Places A s ls place) {page : Nat} {bytes : Bytes} {finishing : Bool}
    (hpage : (ls agent).Writable page bytes) :
    Places A { s with file := s.file ++ [⟨agent, finishing, page, bytes⟩] }
      (Function.update ls agent ((ls agent).write page bytes))
      (moved place ([page].filter (A.bootstrapEnd ≤ ·)) (.written agent)) := by
  obtain ⟨hbehind, hroot⟩ := h.writable hpage
  have hmem : ∀ p, p ∈ [page].filter (A.bootstrapEnd ≤ ·) ↔ p = page ∧ A.bootstrapEnd ≤ p := by
    intro p
    simp
  have hother : ∀ {there : Place} {p : Nat}, there ≠ .held agent → there ≠ .hole agent →
      there ≠ .written agent →
      (moved place ([page].filter (A.bootstrapEnd ≤ ·)) (.written agent) p = there ↔
        place p = there) := by
    intro there p hheld hhole hwritten
    refine moved_iff (fun hp => ?_) hwritten.symm
    obtain ⟨rfl, hle⟩ := (hmem p).mp hp
    rcases hbehind hle with hplace | ⟨hplace, _⟩
    · rw [hplace]; exact hheld.symm
    · rw [hplace]; exact hhole.symm
  -- Behind the write the agent has every page it had but this one.
  have hown : ∀ {there : Place} {p : Nat}, there ≠ .bare → there ≠ .written agent →
      (place p = there ∧ p ≠ page ↔
        moved place ([page].filter (A.bootstrapEnd ≤ ·)) (.written agent) p = there) := by
    intro there p hbare hwritten
    by_cases hp : p ∈ [page].filter (A.bootstrapEnd ≤ ·)
    · rw [moved_of_mem hp]
      exact ⟨fun he => absurd ((hmem p).mp hp).1 he.2, fun he => absurd he.symm hwritten⟩
    · rw [moved_of_notMem hp]
      refine and_iff_left_of_imp fun hplace => ?_
      rintro rfl
      have hlt : p < A.bootstrapEnd := by
        by_contra hle
        exact hp ((hmem p).mpr ⟨rfl, by omega⟩)
      rw [(hroot hlt).2] at hplace
      exact hbare hplace.symm
  have hstays : ∀ {p a}, place p = .written a →
      moved place ([page].filter (A.bootstrapEnd ≤ ·)) (.written agent) p = .written a := by
    intro p a hplace
    refine (moved_of_notMem fun hp => ?_).trans hplace
    obtain ⟨rfl, hle⟩ := (hmem p).mp hp
    rcases hbehind hle with hp | ⟨hp, _⟩ <;> rw [hp] at hplace <;> cases hplace
  exact
    { start := h.start
      next := h.next
      bare := fun p => by
        rw [hother (by simp) (by simp) (by simp)]
        exact h.bare p
      wf := (Function.forall_update_iff ls fun _ l => l.Wf).mpr
        ⟨(h.wf agent).write hpage, fun a _ => h.wf a⟩
      owned := by
        refine (Function.forall_update_iff ls fun a l => ∀ p, l.owned p ↔
          moved place ([page].filter (A.bootstrapEnd ≤ ·)) (.written agent) p = .held a).mpr
          ⟨fun p => ?_, fun a ha p => ?_⟩
        · rw [← hown (by simp) (by simp)]
          exact and_congr_left fun _ => h.owned agent p
        · rw [hother (by simpa using ha) (by simp) (by simp)]
          exact h.owned a p
      holes := by
        refine (Function.forall_update_iff ls fun a l => ∀ p, l.holes p ↔
          moved place ([page].filter (A.bootstrapEnd ≤ ·)) (.written agent) p = .hole a).mpr
          ⟨fun p => ?_, fun a ha p => ?_⟩
        · rw [← hown (by simp) (by simp)]
          exact and_congr_left fun _ => h.holes agent p
        · rw [hother (by simp) (by simpa using ha) (by simp)]
          exact h.holes a p
      roots := (Function.forall_update_iff ls fun a l =>
        ∀ p, l.roots p → (a, p) ∈ s.claims).mpr
        ⟨fun p hp => h.roots agent p hp.1, fun a _ => h.roots a⟩
      written := by
        refine (Function.forall_update_iff ls fun a l => ∀ write, write ∈ l.written →
          (moved place ([page].filter (A.bootstrapEnd ≤ ·)) (.written agent) write.1 = .written a ∨
            (a, write.1) ∈ s.claims) ∧
            ∃ t ∈ s.file ++ [⟨agent, finishing, page, bytes⟩], t.page = write.1 ∧
              t.bytes = write.2).mpr ⟨fun write hw => ?_, fun a _ write hw => ?_⟩
        · rcases List.mem_append.mp hw with hw | hw
          · obtain ⟨hplace, t, ht, hfile⟩ := h.written agent write hw
            exact ⟨hplace.imp_left hstays, t, List.mem_append_left _ ht, hfile⟩
          · obtain rfl := List.mem_singleton.mp hw
            refine ⟨?_, _, List.mem_append_right _ List.mem_cons_self, rfl, rfl⟩
            by_cases hle : A.bootstrapEnd ≤ page
            · exact .inl (moved_of_mem ((hmem page).mpr ⟨rfl, hle⟩))
            · exact .inr (hroot (by omega)).1
        · obtain ⟨hplace, t, ht, hfile⟩ := h.written a write hw
          exact ⟨hplace.imp_left hstays, t, List.mem_append_left _ ht, hfile⟩
      claims := h.claims
      planted := fun t ht hlt => by
        rcases List.mem_append.mp ht with ht | ht
        · exact h.planted t ht hlt
        · obtain rfl := List.mem_singleton.mp ht
          exact (hroot hlt).1
      hole := fun a p hp => h.hole a p ((hown (by simp) (by simp)).mpr hp).1
      usable := fun p hp => by
        rcases hp with hp | ⟨a, hp⟩
        · exact h.usable p (.inl ((hother (by simp) (by simp) (by simp)).mp hp))
        · exact h.usable p (.inr ⟨a, ((hown (by simp) (by simp)).mpr hp).1⟩)
      file := fun p hle => by
        rw [List.map_append, List.mem_append, h.file p hle]
        constructor
        · rintro (⟨a, hplace⟩ | hp)
          · exact ⟨a, hstays hplace⟩
          · obtain rfl := List.mem_singleton.mp hp
            exact ⟨agent, moved_of_mem ((hmem p).mpr ⟨rfl, hle⟩)⟩
        · rintro ⟨a, hplace⟩
          by_cases hp : p ∈ [page].filter (A.bootstrapEnd ≤ ·)
          · exact .inr (List.mem_singleton.mpr ((hmem p).mp hp).1)
          · rw [moved_of_notMem hp] at hplace
            exact .inl ⟨a, hplace⟩
      nodup := by
        rw [List.map_append, List.filter_append, List.nodup_append]
        refine ⟨h.nodup, List.Nodup.filter _ (List.nodup_singleton _), ?_⟩
        rintro a ha b hb rfl
        obtain ⟨rfl, hle⟩ := (hmem a).mp hb
        obtain ⟨a', hplace⟩ := (h.file a hle).mp (List.mem_filter.mp ha).1
        rcases hbehind hle with hp | ⟨hp, _⟩ <;> rw [hp] at hplace <;> cases hplace
      zeros := fun t ht hle hpending => by
        rcases List.mem_append.mp ht with ht | ht
        · exact h.zeros t ht hle hpending
        · obtain rfl := List.mem_singleton.mp ht
          rcases hbehind hle with hp | ⟨_, hzero⟩
          · exact absurd hpending (h.usable _ (.inr ⟨agent, hp⟩))
          · exact hzero
      spool := fun ranges hr => by
        obtain ⟨hreturnable, hfree, hcount⟩ := h.spool ranges hr
        exact ⟨hreturnable, fun p => by rw [hfree, hother (by simp) (by simp) (by simp)], hcount⟩
      closed := fun hr p hp =>
        h.closed hr p ((hother (by simp) (by simp) (by simp)).mp hp)
      lost := fun p hp => h.lost p ((hother (by simp) (by simp) (by simp)).mp hp) }

/-! ## Closing the spool -/

/-- The places once the free pages are somewhere else. -/
def cleared (place : Nat → Place) (there : Place) (page : Nat) : Place :=
  if place page = .free then there else place page

/-- Clearing a place does not touch the others. -/
theorem cleared_iff {there other : Place} {page : Nat} (hthere : there ≠ other)
    (hfree : other ≠ .free) : cleared place there page = other ↔ place page = other := by
  unfold cleared
  split
  · rename_i hp
    rw [hp]
    exact ⟨fun he => absurd he hthere, fun he => absurd he.symm hfree⟩
  · rfl

/-- A place that is cleared is empty. -/
theorem cleared_ne {there : Place} {page : Nat} (hthere : there ≠ .free) :
    cleared place there page ≠ .free := by
  unfold cleared
  split
  · exact hthere
  · assumption

/-- The coordinator takes the spool over. -/
theorem take (h : Places A s ls place) {ranges : List (Nat × Nat)}
    (hfree : s.freeOutput = some ranges) :
    Places A { s with freeOutput := none } (Function.update ls agent ((ls agent).take ranges))
      (cleared place (.held agent)) := by
  obtain ⟨hreturnable, hmem, hcount⟩ := h.spool ranges hfree
  exact
    { start := h.start
      next := h.next
      bare := fun page => by
        rw [cleared_iff (by simp) (by simp)]
        exact h.bare page
      wf := (Function.forall_update_iff ls fun _ l => l.Wf).mpr
        ⟨(h.wf agent).take fun page hp => h.free_fresh ((hmem page).mp hp), fun a _ => h.wf a⟩
      owned := by
        refine (Function.forall_update_iff ls fun a l => ∀ page, l.owned page ↔
          cleared place (.held agent) page = .held a).mpr ⟨fun page => ?_, fun a ha page => ?_⟩
        · simp only [Ledger.take, h.owned, hmem]
          unfold cleared
          split <;> simp_all
        · rw [cleared_iff (by simpa using ha.symm) (by simp)]
          exact h.owned a page
      holes := fun a page => by
        rw [updated ls agent Ledger.holes ((ls agent).take ranges) rfl a,
          cleared_iff (by simp) (by simp)]
        exact h.holes a page
      roots := fun a => by
        rw [updated ls agent Ledger.roots ((ls agent).take ranges) rfl a]
        exact h.roots a
      written := fun a write hw => by
        rw [updated ls agent Ledger.written ((ls agent).take ranges) rfl a] at hw
        rw [cleared_iff (by simp) (by simp)]
        exact h.written a write hw
      claims := h.claims
      planted := h.planted
      hole := fun a page hp => h.hole a page ((cleared_iff (by simp) (by simp)).mp hp)
      usable := fun page hp => by
        by_cases hin : place page = .free
        · exact h.usable page (.inl hin)
        · rw [show cleared place (.held agent) page = place page from if_neg hin] at hp
          exact h.usable page hp
      file := fun page hpage => by
        rw [h.file page hpage]
        exact exists_congr fun a => (cleared_iff (by simp) (by simp)).symm
      nodup := h.nodup
      zeros := h.zeros
      spool := fun ranges hr => by cases hr
      closed := fun _ page => cleared_ne (by simp)
      lost := fun page hp => rfl }

/-- The spool cannot be closed. -/
theorem lose (h : Places A s ls place) :
    Places A { s with freeOutput := none } ls (cleared place .lost) :=
  { h with
    bare := fun page => by
      rw [cleared_iff (by simp) (by simp)]
      exact h.bare page
    owned := fun a page => by
      rw [cleared_iff (by simp) (by simp)]
      exact h.owned a page
    holes := fun a page => by
      rw [cleared_iff (by simp) (by simp)]
      exact h.holes a page
    written := fun a write hw => by
      rw [cleared_iff (by simp) (by simp)]
      exact h.written a write hw
    hole := fun a page hp => h.hole a page ((cleared_iff (by simp) (by simp)).mp hp)
    usable := fun page hp => by
      refine h.usable page (hp.imp (fun hp => absurd hp (cleared_ne (by simp))) ?_)
      exact Exists.imp fun a hp => (cleared_iff (by simp) (by simp)).mp hp
    file := fun page hpage => by
      rw [h.file page hpage]
      exact exists_congr fun a => (cleared_iff (by simp) (by simp)).symm
    spool := fun ranges hr => by cases hr
    closed := fun _ page => cleared_ne (by simp)
    lost := fun page hp => rfl }

end Places

/-! ## Behind the spool -/

/-- The coordinator has taken the ranges of the spool over. -/
structure Closed (A : Allocator) (s : Shared) (l : Ledger) (place : Nat → Place)
    (ranges : List (Nat × Nat)) : Prop where
  output : s.freeOutput = none
  count : s.freeCount = (rangePages ranges).length
  loaded : ∀ count, l.freeCount = some count → count = s.freeCount
  kept : ∀ page, place page ≠ .lost
  nodup : (rangePages ranges).Nodup
  pages : ∀ page ∈ rangePages ranges,
    page ≠ A.pending ∧ (place page = .held 0 ∨ place page = .written 0)
  file : ∃ trees trunks, s.file = trees ++ trunks ∧
    (∀ t ∈ trunks, (t.page, t.bytes) ∈ l.written) ∧ ∀ t ∈ trees, t.page ∉ rangePages ranges

/-- What `finish` has read, taken over and written is what the shared memory holds. -/
structure Closing (A : Allocator) (s : Shared) (l : Ledger) (place : Nat → Place) : Prop where
  next : ∀ next, l.next = some next → next = s.next
  header : ∀ header, l.header = some header → s.header = some header
  closed : ∀ ranges, l.closed = some ranges → Closed A s l place ranges

section
open Places
variable {A : Allocator} {s s' : Shared} {ls : Nat → Ledger} {place : Nat → Place} {l l' : Ledger}

/-- Before `finish` has read anything there is nothing to agree. -/
theorem Closing.early (hnext : l.next = none) (hheader : l.header = none)
    (hclosed : l.closed = none) : Closing A s l place where
  next _ hn := by rw [hnext] at hn; cases hn
  header _ hh := by rw [hheader] at hh; cases hh
  closed _ hc := by rw [hclosed] at hc; cases hc

/-- The spool depends on these fields only. -/
theorem Closed.congr {ranges : List (Nat × Nat)} (h : Closed A s l place ranges)
    (houtput : s'.freeOutput = s.freeOutput) (hcount : s'.freeCount = s.freeCount)
    (hfile : s'.file = s.file) (hloaded : l'.freeCount = l.freeCount)
    (hwritten : l'.written = l.written) : Closed A s' l' place ranges where
  output := houtput.trans h.output
  count := hcount.trans h.count
  loaded count hl := (h.loaded count (hloaded ▸ hl)).trans hcount.symm
  kept := h.kept
  nodup := h.nodup
  pages := h.pages
  file := hfile ▸ hwritten ▸ h.file

/-- So does what `finish` has done. -/
theorem Closing.congr (h : Closing A s l place) (hsame : s'.next = s.next ∧ s'.header = s.header ∧
      s'.freeOutput = s.freeOutput ∧ s'.freeCount = s.freeCount ∧ s'.file = s.file)
    (hledger : l'.next = l.next ∧ l'.header = l.header ∧ l'.closed = l.closed ∧
      l'.freeCount = l.freeCount ∧ l'.written = l.written) : Closing A s' l' place := by
  obtain ⟨hnext, hheader, houtput, hcount, hfile⟩ := hsame
  obtain ⟨hnext', hheader', hclosed, hloaded, hwritten⟩ := hledger
  exact
    { next := fun n hn => (h.next n (hnext' ▸ hn)).trans hnext.symm
      header := fun header hh => hheader.trans (h.header header (hheader' ▸ hh))
      closed := fun ranges hr =>
        (h.closed ranges (hclosed ▸ hr)).congr houtput hcount hfile hloaded hwritten }

/-- A page of a tree, or a trunk page. -/
theorem Closing.write (h : Closing A s l place) {page : Nat} {bytes : Bytes} {finishing : Bool} :
    Closing A { s with file := s.file ++ [⟨0, finishing, page, bytes⟩] } (l.write page bytes)
      (moved place ([page].filter (A.bootstrapEnd ≤ ·)) (.written 0)) where
  next := h.next
  header := h.header
  closed ranges hr := by
    obtain ⟨houtput, hcount, hloaded, hkept, hnodup, hpages, trees, trunks, hfile, htrunks,
      htrees⟩ := h.closed ranges hr
    refine ⟨houtput, hcount, hloaded, fun p => ?_, hnodup, fun p hp => ?_, trees,
      trunks ++ [⟨0, finishing, page, bytes⟩], ?_, fun t ht => ?_, htrees⟩
    · unfold moved
      split
      · simp
      · exact hkept p
    · refine ⟨(hpages p hp).1, ?_⟩
      unfold moved
      split
      · exact .inr rfl
      · exact (hpages p hp).2
    · simp only [hfile, List.append_assoc]
    · rcases List.mem_append.mp ht with ht | ht
      · exact List.mem_append_left _ (htrunks t ht)
      · obtain rfl := List.mem_singleton.mp ht
        exact List.mem_append_right _ List.mem_cons_self

/-- Taking the spool puts its pages in the hands of `finish`. -/
theorem Closing.take (h : Closing A s (ls 0) place) (hplaces : Places A s ls place)
    {ranges : List (Nat × Nat)} (hfree : s.freeOutput = some ranges)
    (hunread : (ls 0).freeCount = none) :
    Closing A { s with freeOutput := none } ((ls 0).take ranges) (cleared place (.held 0)) where
  next := h.next
  header := h.header
  closed ranges' hr := by
    obtain rfl : ranges = ranges' := Option.some.inj hr
    obtain ⟨hreturnable, hmem, hcount⟩ := hplaces.spool ranges hfree
    refine ⟨rfl, hcount, fun count hc => ?_, fun page => ?_, hreturnable.nodup, fun page hp => ?_,
      s.file, [], by simp, by simp, fun t ht hp => ?_⟩
    · rw [show ((ls 0).take ranges).freeCount = none from hunread] at hc
      cases hc
    · rw [ne_eq, cleared_iff (by simp) (by simp)]
      intro hlost
      have := hplaces.lost page hlost
      rw [hfree] at this
      cases this
    · have hplace := (hmem page).mp hp
      exact ⟨hplaces.usable page (.inl hplace), .inl (if_pos hplace)⟩
    · have hplace := (hmem t.page).mp hp
      have hle := (hplaces.bounds_at hplace (by simp)).1
      obtain ⟨a, hwritten⟩ := (hplaces.file t.page hle).mp (List.mem_map_of_mem ht)
      rw [hplace] at hwritten
      cases hwritten

/-- Closing the spool fails after it was taken over, or before. -/
theorem Closing.lose (h : Closing A s l place) (hplaces : Places A s ls place) :
    Closing A { s with freeOutput := none } l (cleared place .lost) where
  next := h.next
  header := h.header
  closed ranges hr := by
    have hclosed := h.closed ranges hr
    have hsame : cleared place .lost = place := funext fun page =>
      if_neg (hplaces.closed hclosed.output page)
    rw [hsame]
    exact hclosed.congr hclosed.output.symm rfl rfl rfl rfl

end

/-! ## Every access -/

section
variable {A : Allocator} {s s' : Shared} {ls : Nat → Ledger} {place : Nat → Place} {f : Nat → Flags}
  {C : Finset Nat} {agent : Nat}

/-- What one access of an agent does to its ledger and to the places. -/
structure Answered (A : Allocator) (s s' : Shared) (ls : Nat → Ledger) (place : Nat → Place)
    (agent : Nat) (clean : Prop) (i : Access) (answer : i.Answer) (l' : Ledger)
    (place' : Nat → Place) : Prop where
  answers : (protocol True).answers (ls agent) i answer l'
  places : Places A s' (Function.update ls agent l') place'
  closing : agent = 0 → Closing A s (ls 0) place → Closing A s' l' place'
  quiet : ¬ clean → l'.next = (ls agent).next ∧ l'.header = (ls agent).header ∧
    l'.closed = (ls agent).closed

/-- An access that no page depends on. -/
theorem Answered.aside (h : Places A s ls place) {clean : Prop} {i : Access} {answer : i.Answer}
    (hanswers : (protocol True).answers (ls agent) i answer (ls agent)) :
    Answered A s s ls place agent clean i answer (ls agent) place where
  answers := hanswers
  places := by rw [Function.update_eq_self]; exact h
  closing := by rintro rfl hc; exact hc
  quiet _ := ⟨rfl, rfl, rfl⟩

/-- An access that only changes what `finish` has read or written. -/
theorem Answered.read (h : Places A s ls place) {clean : Prop} {i : Access} {answer : i.Answer}
    {l' : Ledger} (hanswers : (protocol True).answers (ls agent) i answer l')
    (hsame : l'.owned = (ls agent).owned ∧ l'.holes = (ls agent).holes ∧
      l'.roots = (ls agent).roots ∧ l'.written = (ls agent).written)
    (hshared : s'.next = s.next ∧ s'.claims = s.claims ∧ s'.file = s.file ∧
      s'.freeOutput = s.freeOutput ∧ s'.freeCount = s.freeCount)
    (hclosing : agent = 0 → Closing A s (ls 0) place → Closing A s' l' place)
    (hquiet : ¬ clean → l'.next = (ls agent).next ∧ l'.header = (ls agent).header ∧
      l'.closed = (ls agent).closed) :
    Answered A s s' ls place agent clean i answer l' place where
  answers := hanswers
  places := by
    obtain ⟨howned, hholes, hroots, hwritten⟩ := hsame
    obtain ⟨hnext, hclaims, hfile, hfree, hcount⟩ := hshared
    have hwf := h.wf agent
    refine (h.same ?_ howned hholes ?_ ?_).congr hnext hclaims hfile hfree hcount
    · exact ⟨howned ▸ hwritten ▸ hwf.owned, hholes ▸ hwritten ▸ hwf.holes,
        hroots ▸ hwritten ▸ hwf.roots, howned ▸ hroots ▸ hwf.apart,
        hholes ▸ howned ▸ hroots ▸ hwf.holes_apart, hwritten ▸ hwf.nodup⟩
    · rw [hroots]
      exact h.roots agent
    · rw [hwritten]
      exact fun _ hw => hw
  closing := hclosing
  quiet := hquiet

/-- An access that changes neither a ledger nor anything that pages depend on. -/
theorem Answered.beside (h : Places A s ls place) {clean : Prop} {i : Access} {answer : i.Answer}
    (hanswers : (protocol True).answers (ls agent) i answer (ls agent))
    (hshared : s'.next = s.next ∧ s'.claims = s.claims ∧ s'.file = s.file ∧
      s'.freeOutput = s.freeOutput ∧ s'.freeCount = s.freeCount) (hheader : s'.header = s.header) :
    Answered A s s' ls place agent clean i answer (ls agent) place :=
  .read h hanswers ⟨rfl, rfl, rfl, rfl⟩ hshared
    (by
      rintro rfl hc
      exact hc.congr ⟨hshared.1, hheader, hshared.2.2.2.1, hshared.2.2.2.2, hshared.2.2.1⟩
        ⟨rfl, rfl, rfl, rfl, rfl⟩)
    fun _ => ⟨rfl, rfl, rfl⟩

theorem Closing.claim {l : Ledger} (h : Closing A s l place) {claims : List (Nat × Nat)}
    {root : Nat} : Closing A { s with claims } (l.claim root) place :=
  h.congr ⟨rfl, rfl, rfl, rfl, rfl⟩ ⟨rfl, rfl, rfl, rfl, rfl⟩

/-- The agent returns ranges, all of them or, at an error, those in front of it. -/
theorem Answered.free (h : Places A s ls place) {clean : Prop} {i : Access} {answer : i.Answer}
    {spool done : List (Nat × Nat)}
    (hanswers : (protocol True).answers (ls agent) i answer ((ls agent).release done))
    (hfree : s.freeOutput = some spool) (hdone : Returnable done)
    (hheld : ∀ page ∈ rangePages done, (ls agent).owned page) :
    Answered A s (s.spool spool done) ls place agent clean i answer ((ls agent).release done)
      (Places.moved place (rangePages done) .free) where
  answers := hanswers
  places := h.free hfree hdone hheld
  closing := by
    rintro rfl hc
    refine ⟨hc.next, hc.header, fun ranges hr => ?_⟩
    have := (hc.closed ranges hr).output
    rw [hfree] at this
    cases this
  quiet _ := ⟨rfl, rfl, rfl⟩

/-- A front of ranges that may be returned may be. -/
theorem returnable_prefix {ranges done : List (Nat × Nat)} (h : Returnable ranges)
    (hdone : done <+: ranges) : Returnable done ∧
      ∀ page ∈ rangePages done, page ∈ rangePages ranges := by
  obtain ⟨rest, rfl⟩ := hdone
  have hnodup := h.nodup
  rw [rangePages_append] at hnodup ⊢
  exact ⟨⟨fun range hr => h.nonempty range (List.mem_append_left _ hr),
    (List.nodup_append.mp hnodup).1⟩, fun page hp => List.mem_append_left _ hp⟩

/-- Every access follows the protocol of the ledger, and the places follow the access. -/
theorem Places.performs (h : Places A s ls place) (hshares : Shares A s f C) {finishing : Bool}
    {i : Access} {answer : i.Answer} (hflags : (flags A).allowed (f agent) i)
    (hallowed : (protocol True).allowed (ls agent) i)
    (hperforms : s.Performs agent finishing i answer s') :
    ∃ l' place',
      Answered A s s' ls place agent ((f agent).standing = .clean) i answer l' place' := by
  cases i with
  | claimRoot root =>
      cases answer with
      | error fault =>
          obtain ⟨hpanic, rfl⟩ := hperforms
          exact ⟨_, _, .aside h ⟨.inl ⟨trivial, hpanic⟩, rfl⟩⟩
      | ok u =>
          obtain ⟨hnew, rfl⟩ := hperforms
          exact ⟨_, place, ⟨h.root_fresh hflags.2.2 hnew, rfl⟩, h.claim hflags.2 hnew,
            fun _ hc => by subst_vars; exact hc.claim, fun _ => ⟨rfl, rfl, rfl⟩⟩
  | grant allocator pages => exact hperforms.elim
  | free ranges =>
      obtain ⟨hreturnable, hheld⟩ := hallowed
      cases answer with
      | ok u =>
          obtain ⟨spool, hfree, rfl⟩ := hperforms
          exact ⟨_, _, .free h rfl hfree hreturnable hheld⟩
      | error fault =>
          obtain ⟨hpanic, rfl | ⟨spool, done, hfree, hdone, rfl⟩⟩ := hperforms
          · refine ⟨_, _, .aside h ⟨trivial, hpanic, [], List.nil_prefix, ?_⟩⟩
            simp [Ledger.release, rangePages]
          · obtain ⟨hdone', hsub⟩ := returnable_prefix hreturnable hdone
            exact ⟨_, _, .free h ⟨trivial, hpanic, done, hdone, rfl⟩ hfree hdone' fun page hp =>
              hheld page (hsub page hp)⟩
  | write page bytes =>
      cases answer with
      | error fault =>
          obtain ⟨hpanic, rfl⟩ := hperforms
          exact ⟨_, _, .aside h ⟨trivial, hpanic, rfl⟩⟩
      | ok u =>
          obtain rfl := hperforms
          exact ⟨_, _, rfl, h.write hallowed, fun hzero hc => by subst hzero; exact hc.write,
            fun _ => ⟨rfl, rfl, rfl⟩⟩
  | flush | scratch | setLen =>
      cases answer with
      | error fault =>
          obtain ⟨hpanic, rfl⟩ := hperforms
          exact ⟨_, _, .aside h ⟨trivial, hpanic, rfl⟩⟩
      | ok u =>
          obtain rfl := hperforms
          exact ⟨_, _, .aside h rfl⟩
  | loadFailed | loadActive =>
      obtain ⟨_, rfl⟩ := hperforms
      exact ⟨_, _, .aside h rfl⟩
  | storeFailed | enter | leave =>
      obtain rfl := hperforms
      exact ⟨_, _, .beside h rfl ⟨rfl, rfl, rfl, rfl, rfl⟩ rfl⟩
  | loadNext =>
      obtain ⟨rfl, rfl⟩ := hperforms
      refine ⟨_, _, .read h rfl ⟨rfl, rfl, rfl, rfl⟩ ⟨rfl, rfl, rfl, rfl, rfl⟩ ?_
        fun hclean => absurd hflags.2 hclean⟩
      rintro rfl hc
      exact ⟨fun n hn => (Option.some.inj hn).symm, hc.header, fun ranges hr =>
        (hc.closed ranges hr).congr rfl rfl rfl rfl rfl⟩
  | loadFreeCount =>
      obtain ⟨rfl, rfl⟩ := hperforms
      refine ⟨_, _, .read h rfl ⟨rfl, rfl, rfl, rfl⟩ ⟨rfl, rfl, rfl, rfl, rfl⟩ ?_
        fun _ => ⟨rfl, rfl, rfl⟩⟩
      rintro rfl hc
      exact ⟨hc.next, hc.header, fun ranges hr =>
        { hc.closed ranges hr with loaded := fun n hn => (Option.some.inj hn).symm }⟩
  | closeFree =>
      obtain rfl := hshares.agent_eq (.inr (.inr hflags.2))
      cases answer with
      | ok ranges =>
          obtain ⟨hfree, rfl⟩ := hperforms
          obtain ⟨hreturnable, hmem, _⟩ := h.spool ranges hfree
          refine ⟨_, _, ⟨hreturnable, fun page hp => ?_, rfl⟩, h.take hfree, fun _ hc =>
            hc.take h hfree hallowed, fun hclean => absurd hflags.2 hclean⟩
          have hplace := (hmem page).mp hp
          obtain ⟨hle, hlt⟩ := h.bounds_at hplace (by simp)
          have hstart := h.start
          have hnext := h.next
          exact ⟨h.free_fresh hplace, by omega, by omega⟩
      | error fault =>
          obtain ⟨hpanic, rfl⟩ := hperforms
          exact ⟨_, _, ⟨trivial, hpanic, rfl⟩, by rw [Function.update_eq_self]; exact h.lose,
            fun _ hc => hc.lose h, fun hclean => absurd hflags.2 hclean⟩
  | writeHeader bytes =>
      cases answer with
      | ok u =>
          obtain rfl := hperforms
          refine ⟨_, _, .read h rfl ⟨rfl, rfl, rfl, rfl⟩ ⟨rfl, rfl, rfl, rfl, rfl⟩ ?_
            fun hclean => absurd hflags.2 hclean⟩
          rintro rfl hc
          exact ⟨hc.next, fun _ hh => hh, fun ranges hr =>
            (hc.closed ranges hr).congr rfl rfl rfl rfl rfl⟩
      | error fault =>
          obtain ⟨hpanic, header, rfl⟩ := hperforms
          refine ⟨_, _, .read h ⟨trivial, hpanic, rfl⟩ ⟨rfl, rfl, rfl, rfl⟩
            ⟨rfl, rfl, rfl, rfl, rfl⟩ ?_ fun _ => ⟨rfl, rfl, rfl⟩⟩
          rintro rfl hc
          refine ⟨hc.next, fun header hh => ?_, fun ranges hr =>
            (hc.closed ranges hr).congr rfl rfl rfl rfl rfl⟩
          rw [show (ls 0).header = none from hallowed] at hh
          cases hh

/-- A grant ends behind its start, where pages have 32 bits. -/
theorem le_grantEnd {allocator : Allocator} {pages start stop : Nat}
    (h : allocator.grantEnd pages start = .ok stop) : start ≤ stop ∧ stop ≤ u32Max := by
  simp only [Allocator.grantEnd] at h
  split at h
  · cases h
  · split at h
    · split at h
      · cases h
      · cases h
        omega
    · cases h
      omega

/-- The exchange of a grant follows the protocol, too. -/
theorem Places.exchange (h : Places A s ls place) (agent : Nat) {pages stop : Nat}
    (hgrant : A.grantEnd pages s.next = .ok stop) :
    (protocol True).answers (ls agent) (.grant A pages) (.ok (s.next, stop))
        ((ls agent).grant A.pending s.next stop) ∧
      Places A { s with next := stop }
        (Function.update ls agent ((ls agent).grant A.pending s.next stop))
        (granted place agent A.pending s.next stop) := by
  have hstart := h.start
  have hnext := h.next.1
  obtain ⟨hle, hmax⟩ := le_grantEnd hgrant
  exact ⟨⟨hgrant, by omega, fun page hp => h.has_lt hp, rfl⟩, h.grant hle hmax⟩

end

end Velr.Session
