import Mathlib.Data.List.Infix
import Velr.Format.BTree
import Velr.PageWriter.Writer

/-!
# What a writer owns and what it has written

The ledger of one writer: the pages of the blocks it was granted and has neither written nor
returned, the tree roots it may replace, and every page it has written. `protocol` lets a writer
write and return only pages it owns, the pending-byte page of a block aside, which it may fill
with zeros; and it promises that a grant is fresh: whatever other writers do in between, no page
of a new block is one this ledger has seen. A write gives the page up, so no page is written twice
(`Ledger.Wf`).

`Writer.Ready` ties the fields of a writer to its ledger. The specifications of
`ensure_contiguous`, `append` and `root` are stated over it and hold under any interleaving.
-/

namespace Velr

open ByteString Interleaving Format

structure Ledger where
  /-- Pages of the writer's blocks that it may write or return. -/
  owned : Nat → Prop
  /-- The pending-byte page of a block, which may only be filled with zeros. -/
  holes : Nat → Prop
  /-- Root pages the writer may replace. -/
  roots : Nat → Prop
  written : List (Nat × Bytes)
  /-- The free ranges taken over by `finish`, and what it has read and written then. -/
  closed : Option (List (Nat × Nat)) := none
  next : Option Nat := none
  freeCount : Option Nat := none
  header : Option Bytes := none

namespace Ledger

/-- The pages written so far. -/
def view (l : Ledger) : View := fun page => l.written.lookup page

/-- The ledger has to do with this page. -/
def Has (l : Ledger) (page : Nat) : Prop :=
  l.owned page ∨ l.holes page ∨ l.roots page ∨ page ∈ l.written.map Prod.fst

def write (l : Ledger) (page : Nat) (bytes : Bytes) : Ledger :=
  { l with
    owned := fun p => l.owned p ∧ p ≠ page
    holes := fun p => l.holes p ∧ p ≠ page
    roots := fun p => l.roots p ∧ p ≠ page
    written := l.written ++ [(page, bytes)] }

def claim (l : Ledger) (root : Nat) : Ledger :=
  { l with roots := fun p => l.roots p ∨ p = root }

/-- A block from `start` to `stop`. -/
def grant (l : Ledger) (pending start stop : Nat) : Ledger :=
  { l with
    owned := fun p => l.owned p ∨ start ≤ p ∧ p < stop ∧ p ≠ pending
    holes := fun p => l.holes p ∨ start ≤ p ∧ p < stop ∧ p = pending }

def release (l : Ledger) (ranges : List (Nat × Nat)) : Ledger :=
  { l with owned := fun p => l.owned p ∧ p ∉ rangePages ranges }

/-- The ranges of all writers, taken over when no other writer is left. -/
def take (l : Ledger) (ranges : List (Nat × Nat)) : Ledger :=
  { l with owned := fun p => l.owned p ∨ p ∈ rangePages ranges, closed := some ranges }

/-- No page is both free to write and already written, and none was written twice. -/
structure Wf (l : Ledger) : Prop where
  owned : ∀ page, l.owned page → page ∉ l.written.map Prod.fst
  holes : ∀ page, l.holes page → page ∉ l.written.map Prod.fst
  roots : ∀ page, l.roots page → page ∉ l.written.map Prod.fst
  apart : ∀ page, l.owned page → ¬ l.roots page
  holes_apart : ∀ page, l.holes page → ¬ l.owned page ∧ ¬ l.roots page
  nodup : (l.written.map Prod.fst).Nodup

/-- The page may be written, with these bytes. -/
def Writable (l : Ledger) (page : Nat) (bytes : Bytes) : Prop :=
  l.owned page ∨ l.roots page ∨ l.holes page ∧ bytes = List.replicate bytes.length 0

end Ledger

/-- `finish` has not begun. -/
def Ledger.Unread (l : Ledger) : Prop := l.next = none ∧ l.freeCount = none ∧ l.header = none

/-- Ranges that can be added to the free-page spool: not empty, and no page twice. -/
structure Returnable (ranges : List (Nat × Nat)) : Prop where
  nonempty : ∀ range ∈ ranges, range.1 < range.2
  nodup : (rangePages ranges).Nodup

/-- The accesses of a writer, seen from its ledger. With `faults`, file operations may fail. -/
def protocol (faults : Prop) : Protocol Access Access.Answer Ledger where
  allowed l i :=
    match i with
    | .write page bytes => l.Writable page bytes
    | .free ranges => Returnable ranges ∧ ∀ page ∈ rangePages ranges, l.owned page
    | .grant _ _ => l.next = none
    | .closeFree => l.freeCount = none
    | .writeHeader _ => l.header = none
    | _ => True
  answers l i answer l' :=
    match i, answer with
    | .write page bytes, .ok () => l' = l.write page bytes
    | .free ranges, .ok () => l' = l.release ranges
    | .free ranges, .error fault =>
        faults ∧ fault.isPanic = false ∧ ∃ done, done <+: ranges ∧ l' = l.release done
    | .claimRoot root, .ok () => ¬ l.Has root ∧ l' = l.claim root
    | .claimRoot _, .error fault =>
        (faults ∧ fault.isPanic = false ∨ fault = claimedRoot) ∧ l' = l
    | .grant allocator pages, .ok (start, stop) =>
        allocator.grantEnd pages start = .ok stop ∧ 1 ≤ start ∧
          (∀ page, l.Has page → page < start) ∧ l' = l.grant allocator.pending start stop
    | .grant _ _, .error fault => fault = exhaustedSpace ∧ l' = l
    | .closeFree, .ok ranges =>
        Returnable ranges ∧ (∀ page ∈ rangePages ranges, ¬ l.Has page ∧ 1 ≤ page ∧ page ≤ u32Max) ∧
          l' = l.take ranges
    | .loadNext, next => l' = { l with next := some next }
    | .loadFreeCount, count => l' = { l with freeCount := some count }
    | .writeHeader bytes, .ok () => l' = { l with header := some bytes }
    | .flush, .ok () | .scratch, .ok () | .setLen _, .ok () => l' = l
    | .loadFailed, _ | .storeFailed, _ | .loadActive, _ | .enter, _ | .leave, _ => l' = l
    | .write _ _, .error fault | .flush, .error fault | .scratch, .error fault
    | .setLen _, .error fault | .writeHeader _, .error fault | .closeFree, .error fault =>
        faults ∧ fault.isPanic = false ∧ l' = l

namespace Ledger

/-- A page that is not written has no bytes. -/
theorem lookup_eq_none {written : List (Nat × Bytes)} {page : Nat}
    (h : page ∉ written.map Prod.fst) : written.lookup page = none := by
  induction written with
  | nil => rfl
  | cons w written ih =>
      obtain ⟨p, bytes⟩ := w
      simp only [List.map_cons, List.mem_cons, not_or] at h
      rw [List.lookup_cons, beq_false_of_ne h.1, ih h.2]

theorem lookup_append (a b : List (Nat × Bytes)) (page : Nat) :
    (a ++ b).lookup page = (a.lookup page).or (b.lookup page) := by
  induction a with
  | nil => rfl
  | cons w a ih =>
      obtain ⟨p, bytes⟩ := w
      simp only [List.cons_append, List.lookup_cons]
      split <;> simp_all

/-- What was written stays readable. -/
theorem view_mono {l l' : Ledger} (h : l.written <+: l'.written) {page : Nat} {bytes : Bytes}
    (hv : l.view page = some bytes) : l'.view page = some bytes := by
  obtain ⟨new, hnew⟩ := h
  rw [view, ← hnew, lookup_append, show l.written.lookup page = some bytes from hv,
    Option.some_or]

/-- The page written last reads back. -/
theorem view_concat {l : Ledger} {written : List (Nat × Bytes)} {page : Nat} {bytes : Bytes}
    (hl : l.written = written ++ [(page, bytes)]) (hn : page ∉ written.map Prod.fst) :
    l.view page = some bytes := by
  rw [view, hl, lookup_append, lookup_eq_none hn]
  simp

/-- A page that may be written has not been. -/
theorem Writable.fresh {l : Ledger} (h : l.Wf) {page : Nat} {bytes : Bytes}
    (hp : l.Writable page bytes) : page ∉ l.written.map Prod.fst := by
  rcases hp with hp | hp | hp
  · exact h.owned page hp
  · exact h.roots page hp
  · exact h.holes page hp.1

/-- A page that may be written was not written before. -/
theorem Wf.write {l : Ledger} (h : l.Wf) {page : Nat} {bytes : Bytes}
    (hp : l.Writable page bytes) : (l.write page bytes).Wf where
  owned p hp := by
    simp only [Ledger.write, List.map_append, List.mem_append, not_or] at hp ⊢
    exact ⟨h.owned p hp.1, by simpa using hp.2⟩
  holes p hp := by
    simp only [Ledger.write, List.map_append, List.mem_append, not_or] at hp ⊢
    exact ⟨h.holes p hp.1, by simpa using hp.2⟩
  roots p hp := by
    simp only [Ledger.write, List.map_append, List.mem_append, not_or] at hp ⊢
    exact ⟨h.roots p hp.1, by simpa using hp.2⟩
  apart p hp hr := h.apart p hp.1 hr.1
  holes_apart p hp := ⟨fun ho => (h.holes_apart p hp.1).1 ho.1,
    fun hr => (h.holes_apart p hp.1).2 hr.1⟩
  nodup := by
    have hn := hp.fresh h
    simp only [Ledger.write, List.map_append, List.nodup_append]
    refine ⟨h.nodup, by simp, ?_⟩
    intro a ha b hb hab
    simp only [List.map_cons, List.map_nil, List.mem_singleton] at hb
    exact hn (hb ▸ hab ▸ ha)

/-- Claiming a new root keeps the ledger well formed. -/
theorem Wf.claim {l : Ledger} (h : l.Wf) {root : Nat} (hr : ¬ l.Has root) :
    (l.claim root).Wf where
  owned := h.owned
  holes := h.holes
  roots p hp := by
    rcases hp with hp | rfl
    · exact h.roots p hp
    · exact fun hm => hr (.inr (.inr (.inr hm)))
  apart p hp hroot := by
    rcases hroot with hroot | rfl
    · exact h.apart p hp hroot
    · exact hr (.inl hp)
  holes_apart p hp := by
    refine ⟨(h.holes_apart p hp).1, fun hroot => ?_⟩
    rcases hroot with hroot | rfl
    · exact (h.holes_apart p hp).2 hroot
    · exact hr (.inr (.inl hp))
  nodup := h.nodup

/-- So does a grant behind every page there is. -/
theorem Wf.grant {l : Ledger} (h : l.Wf) {pending start stop : Nat}
    (hfresh : ∀ page, l.Has page → page < start) : (l.grant pending start stop).Wf where
  owned p hp := by
    rcases hp with hp | ⟨hle, _, _⟩
    · exact h.owned p hp
    · exact fun hm => absurd (hfresh p (.inr (.inr (.inr hm)))) (by omega)
  holes p hp := by
    rcases hp with hp | ⟨hle, _, _⟩
    · exact h.holes p hp
    · exact fun hm => absurd (hfresh p (.inr (.inr (.inr hm)))) (by omega)
  roots := h.roots
  apart p hp hroot := by
    rcases hp with hp | ⟨hle, _, _⟩
    · exact h.apart p hp hroot
    · exact absurd (hfresh p (.inr (.inr (.inl hroot)))) (by omega)
  holes_apart p hp := by
    rcases hp with hp | ⟨hle, _, heq⟩
    · refine ⟨fun ho => ?_, (h.holes_apart p hp).2⟩
      rcases ho with ho | ⟨hle, _, _⟩
      · exact (h.holes_apart p hp).1 ho
      · exact absurd (hfresh p (.inr (.inl hp))) (by omega)
    · refine ⟨fun ho => ?_, fun hr => absurd (hfresh p (.inr (.inr (.inl hr)))) (by omega)⟩
      rcases ho with ho | ⟨_, _, hne⟩
      · exact absurd (hfresh p (.inl ho)) (by omega)
      · exact hne heq
  nodup := h.nodup

/-- So does the return of ranges. -/
theorem Wf.release {l : Ledger} (h : l.Wf) (ranges : List (Nat × Nat)) :
    (l.release ranges).Wf where
  owned p hp := h.owned p hp.1
  holes := h.holes
  roots := h.roots
  apart p hp := h.apart p hp.1
  holes_apart p hp := ⟨fun ho => (h.holes_apart p hp).1 ho.1, (h.holes_apart p hp).2⟩
  nodup := h.nodup

/-- So does taking the spool of free pages. -/
theorem Wf.take {l : Ledger} (h : l.Wf) {ranges : List (Nat × Nat)}
    (hf : ∀ page ∈ rangePages ranges, ¬ l.Has page) : (l.take ranges).Wf where
  owned p hp := by
    rcases hp with hp | hp
    · exact h.owned p hp
    · exact fun hm => hf p hp (.inr (.inr (.inr hm)))
  holes := h.holes
  roots := h.roots
  apart p hp hroot := by
    rcases hp with hp | hp
    · exact h.apart p hp hroot
    · exact hf p hp (.inr (.inr (.inl hroot)))
  holes_apart p hp := by
    refine ⟨fun ho => ?_, (h.holes_apart p hp).2⟩
    rcases ho with ho | ho
    · exact (h.holes_apart p hp).1 ho
    · exact hf p ho (.inr (.inl hp))
  nodup := h.nodup

end Ledger

/-! ## Writers and their ledgers -/

/-- A writer that was just opened owns every page behind the file and may replace every page but
the first in it. -/
def Ledger.opened (w : Writer) : Ledger where
  owned page := w.nextPage ≤ page ∧ page ≠ pendingPage w.pageSize.bytes
  holes page := w.nextPage ≤ page ∧ page = pendingPage w.pageSize.bytes
  roots page := 1 < page ∧ page < w.nextPage
  written := []

namespace Writer

/-- The pages of the current block belong to the writer, and the stream stands at the next one. -/
structure Ready (w : Writer) (l : Ledger) : Prop where
  wf : l.Wf
  pending : ∀ allocator, w.allocator = some allocator →
    allocator.pending = pendingPage w.pageSize.bytes ∧ ∃ stop, w.rangeEnd = some stop
  range : ∀ stop, w.rangeEnd = some stop → w.nextPage ≤ stop
  block : ∀ page, w.nextPage ≤ page → (∀ stop, w.rangeEnd = some stop → page < stop) →
    (page ≠ pendingPage w.pageSize.bytes → l.owned page) ∧
      (page = pendingPage w.pageSize.bytes → l.holes page)
  exact : ∀ page, w.allocator.isSome → l.owned page → page ≠ pendingPage w.pageSize.bytes ∧
    w.nextPage ≤ page ∧ ∃ stop, w.rangeEnd = some stop ∧ page < stop
  position : w.exhausted = false → w.position + 1 = w.nextPage
  unread : l.Unread

/-- A writer is ready when it is opened. -/
theorem opened_ready {w : Writer} (ha : w.allocator = none) (hend : w.rangeEnd = none)
    (hposition : w.position + 1 = w.nextPage) : w.Ready (.opened w) where
  wf :=
    { owned := by simp [Ledger.opened]
      holes := by simp [Ledger.opened]
      roots := by simp [Ledger.opened]
      apart := fun page hp hr => by simp only [Ledger.opened] at hp hr; omega
      holes_apart := fun page hp => by simp only [Ledger.opened] at hp ⊢; omega
      nodup := by simp [Ledger.opened] }
  pending := by simp [ha]
  range := by simp [hend]
  block page hle _ := ⟨fun hp => ⟨hle, hp⟩, fun hp => ⟨hle, hp⟩⟩
  exact := by simp [ha]
  position _ := hposition
  unread := ⟨rfl, rfl, rfl⟩

/-- What no method changes. -/
structure Same (w w' : Writer) : Prop where
  pageSize : w'.pageSize = w.pageSize
  allocator : w'.allocator = w.allocator
  assignedRoot : w'.assignedRoot = w.assignedRoot
  dynamicWorker : w'.dynamicWorker = w.dynamicWorker
  dynamicCompleted : w'.dynamicCompleted = w.dynamicCompleted
  header : w'.header = w.header

theorem Same.refl (w : Writer) : w.Same w := ⟨rfl, rfl, rfl, rfl, rfl, rfl⟩

theorem Same.trans {a b c : Writer} (h₁ : a.Same b) (h₂ : b.Same c) : a.Same c :=
  ⟨h₂.1.trans h₁.1, h₂.2.trans h₁.2, h₂.3.trans h₁.3, h₂.4.trans h₁.4, h₂.5.trans h₁.5,
    h₂.6.trans h₁.6⟩

/-- One method after another: the pages written stay written, and the roots stay. -/
structure Advances (w : Writer) (l : Ledger) (w' : Writer) (l' : Ledger) : Prop where
  ready : w'.Ready l'
  same : w.Same w'
  grows : l.written <+: l'.written
  roots : l'.roots = l.roots
  next : w.allocator = none → w.nextPage ≤ w'.nextPage

theorem Advances.refl {w : Writer} {l : Ledger} (h : w.Ready l) : w.Advances l w l where
  ready := h
  same := .refl w
  grows := List.prefix_rfl
  roots := rfl
  next _ := Nat.le_refl _

/-- A writer that advances twice advances. -/
theorem Advances.trans {a b c : Writer} {la lb lc : Ledger} (h₁ : a.Advances la b lb)
    (h₂ : b.Advances lb c lc) : a.Advances la c lc where
  ready := h₂.ready
  same := h₁.same.trans h₂.same
  grows := h₁.grows.trans h₂.grows
  roots := h₂.roots.trans h₁.roots
  next ha := (h₁.next ha).trans (h₂.next (h₁.same.allocator.trans ha))

/-- No page of the block is left but possibly the pending-byte page, or none that `u32` numbers. -/
def Full (w : Writer) : Prop :=
  (∃ stop, w.rangeEnd = some stop ∧ stop ≤ w.nextAvailable w.nextPage) ∨
    u32Max < w.nextAvailable w.nextPage + 1

/-- Why a method without faults in its file operations may still fail: the pages have run out. -/
def Failed (faults : Prop) (w : Writer) (fault : Fault) : Prop :=
  fault.isPanic = false ∧ (faults ∨ w.Full ∨ w.allocator.isSome ∧ fault = exhaustedSpace)

/-- The next `pages` appends need no new block. -/
def Contiguous (w : Writer) (pages : Nat) : Prop :=
  ∀ allocator stop, w.allocator = some allocator → w.rangeEnd = some stop →
    pages ≤ available allocator w.nextPage stop

theorem le_nextAvailable (w : Writer) (page : Nat) : page ≤ w.nextAvailable page := by
  unfold nextAvailable; split <;> omega

/-- The next page is never the pending-byte page. -/
theorem nextAvailable_ne (w : Writer) (page : Nat) :
    w.nextAvailable page ≠ pendingPage w.pageSize.bytes := by
  unfold nextAvailable; split <;> omega

end Writer

end Velr
