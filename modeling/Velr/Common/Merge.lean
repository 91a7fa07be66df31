import Mathlib.Algebra.BigOperators.Group.Finset.Piecewise
import Mathlib.Data.Fintype.Basic
import Mathlib.Data.List.Sort
import Velr.Common.Radix

/-!
# Merging sorted runs

A merge keeps the head of each run in a priority queue and takes the least of them, until no run has
one left (`drain`). The queue is the list of its entries in their order. What comes out is in order,
and holds each run in the order of the run (`Standing.drain`).
-/

namespace Merge

variable {α : Type} {n : Nat}

/-- The rest of each run behind its head, and the heads in their order. -/
structure Cursors (α : Type) (n : Nat) where
  readers : Fin n → List α
  heap : List (α × Fin n)

/-- The elements that are left. -/
def Cursors.size (c : Cursors α n) : Nat := c.heap.length + ∑ run, (c.readers run).length

section
variable (r : α × Fin n → α × Fin n → Prop) [DecidableRel r]

/-- The head of each run that has one. -/
def heads (runs : Fin n → List α) : List (Fin n) → List (α × Fin n)
  | [] => []
  | run :: rest =>
      match (runs run).head? with
      | some key => (heads runs rest).orderedInsert r (key, run)
      | none => heads runs rest

/-- The start of a merge. -/
def Cursors.start (runs : Fin n → List α) : Cursors α n where
  readers run := (runs run).tail
  heap := heads r runs (List.finRange n)

/-- The first entry of the queue is taken: the next element of its run comes in its place. -/
def Cursors.advance (c : Cursors α n) (run : Fin n) : Cursors α n :=
  match c.readers run with
  | key :: keys =>
      { readers := Function.update c.readers run keys
        heap := c.heap.tail.orderedInsert r (key, run) }
  | [] => { c with heap := c.heap.tail }

/-- Taking the head of a run makes the cursors smaller by one key. -/
theorem Cursors.size_advance {c : Cursors α n} {entry : α × Fin n} {rest : List (α × Fin n)}
    (h : c.heap = entry :: rest) : (c.advance r entry.2).size + 1 = c.size := by
  unfold advance size
  cases hreader : c.readers entry.2 with
  | nil =>
      simp only [h, List.tail_cons, List.length_cons]
      omega
  | cons key keys =>
      have hsum : ∑ run, (c.readers run).length
          = ∑ run, (Function.update c.readers entry.2 keys run).length + 1 := by
        have hupdate := Finset.sum_update_of_mem (Finset.mem_univ entry.2)
          (fun run => (c.readers run).length) keys.length
        have hmap : (fun run => (Function.update c.readers entry.2 keys run).length)
            = Function.update (fun run => (c.readers run).length) entry.2 keys.length := by
          funext run
          by_cases hrun : run = entry.2
          · subst hrun
            simp
          · simp [Function.update_of_ne hrun]
        rw [hmap, hupdate,
          ← Finset.add_sum_erase _ (fun run => (c.readers run).length) (Finset.mem_univ entry.2),
          hreader, List.length_cons, Finset.sdiff_singleton_eq_erase]
        omega
      simp only [h, List.tail_cons, List.orderedInsert_length, List.length_cons]
      omega

/-- The elements in the order in which a merge takes them, each with its run. -/
def Cursors.drain (c : Cursors α n) : List (α × Fin n) :=
  match _h : c.heap with
  | [] => []
  | entry :: _ => entry :: (c.advance r entry.2).drain
termination_by c.size
decreasing_by
  have hsize := Cursors.size_advance r ‹_›
  omega

/-- Cursors with an empty heap are drained. -/
theorem Cursors.drain_nil {c : Cursors α n} (h : c.heap = []) : c.drain r = [] := by
  rw [drain]
  split
  · rfl
  · next heq => rw [h] at heq; cases heq

/-- Draining takes the least entry, and goes on with the next key of its run. -/
theorem Cursors.drain_cons {c : Cursors α n} {entry : α × Fin n} {rest : List (α × Fin n)}
    (h : c.heap = entry :: rest) : c.drain r = entry :: (c.advance r entry.2).drain r := by
  rw [drain]
  split
  · next heq => rw [h] at heq; cases heq
  · next heq => rw [h] at heq; cases heq; rfl

end

/-! ## What comes out -/

/-- The elements a merge gave of one run. -/
def ofRun (run : Fin n) (merged : List (α × Fin n)) : List α :=
  (merged.filter (·.2 = run)).map Prod.fst

theorem ofRun_cons (run : Fin n) (entry : α × Fin n) (merged : List (α × Fin n)) :
    ofRun run (entry :: merged)
      = if entry.2 = run then entry.1 :: ofRun run merged else ofRun run merged := by
  by_cases h : entry.2 = run <;> simp [ofRun, h]

/-- The keys that a run has given are those merged with its number. -/
theorem mem_ofRun {run : Fin n} {key : α} {merged : List (α × Fin n)} :
    key ∈ ofRun run merged ↔ (key, run) ∈ merged := by
  simp [ofRun]

/-- What a merge gave, run by run. -/
theorem ofRun_flatMap_perm (merged : List (α × Fin n)) :
    ((List.finRange n).flatMap fun run => ofRun run merged).Perm (merged.map Prod.fst) := by
  have hperm : ((Radix.distribute n (fun entry => entry.2.val) merged).map Prod.fst).Perm _ :=
    (Radix.distribute_perm fun entry _ => entry.2.isLt).map Prod.fst
  refine List.Perm.trans (.of_eq ?_) hperm
  rw [Radix.distribute, Radix.join, ← List.map_coe_finRange_eq_range, List.flatMap_map,
    List.map_flatMap]
  refine List.flatMap_congr fun run _ => ?_
  rw [ofRun, Radix.bucket]
  simp only [Fin.val_inj]

variable {r : α × Fin n → α × Fin n → Prop}

/-- The cursors of runs of which some elements are left: the queue holds the head of each. -/
structure Standing (r : α × Fin n → α × Fin n → Prop) (c : Cursors α n)
    (pending : Fin n → List α) : Prop where
  heads : ∀ run, (ofRun run c.heap).Perm ((pending run).take 1)
  tails : ∀ run, c.readers run = (pending run).drop 1
  ordered : c.heap.Pairwise r
  runs : ∀ run, (pending run).Pairwise fun x y => r (x, run) (y, run)

/-- The first entry of the queue is the least of all that is left. -/
theorem Standing.least [Std.Total r] [IsTrans (α × Fin n) r] {c : Cursors α n}
    {pending : Fin n → List α} (h : Standing r c pending)
    {entry : α × Fin n} {rest : List (α × Fin n)} (hheap : c.heap = entry :: rest) {run : Fin n}
    {key : α} (hkey : key ∈ pending run) : r entry (key, run) := by
  cases hpending : pending run with
  | nil =>
      rw [hpending] at hkey
      cases hkey
  | cons first keys =>
      have hheads := h.heads run
      rw [hpending, List.take_succ_cons, List.take_zero] at hheads
      have hmem : (first, run) ∈ c.heap := mem_ofRun.mp (hheads.mem_iff.mpr (by simp))
      have hordered := h.ordered
      rw [hheap, List.pairwise_cons] at hordered
      have hfirst : r entry (first, run) := by
        rw [hheap, List.mem_cons] at hmem
        rcases hmem with rfl | hmem
        · exact refl_of r _
        · exact hordered.1 _ hmem
      have hruns := h.runs run
      rw [hpending, List.pairwise_cons] at hruns
      rw [hpending, List.mem_cons] at hkey
      rcases hkey with rfl | hkey
      · exact hfirst
      · exact trans_of r hfirst (hruns.1 key hkey)

variable [DecidableRel r]

theorem ofRun_orderedInsert (run : Fin n) (entry : α × Fin n) (heap : List (α × Fin n)) :
    (ofRun run (heap.orderedInsert r entry)).Perm (ofRun run (entry :: heap)) :=
  ((List.perm_orderedInsert r entry heap).filter _).map _

/-- The heap begins with the head of each run. -/
theorem heads_perm (runs : Fin n → List α) (run : Fin n) : ∀ {l : List (Fin n)}, l.Nodup →
    (ofRun run (heads r runs l)).Perm (if run ∈ l then (runs run).take 1 else [])
  | [], _ => .nil
  | first :: l, h => by
      obtain ⟨hnotmem, hnodup⟩ := List.nodup_cons.mp h
      have ih := heads_perm runs run hnodup
      by_cases hrun : first = run
      · subst hrun
        rw [if_neg hnotmem] at ih
        rw [if_pos (by simp), heads]
        cases hhead : runs first with
        | nil => exact ih
        | cons key keys =>
            refine (ofRun_orderedInsert first (key, first) _).trans ?_
            rw [ofRun_cons, if_pos rfl]
            exact ih.cons key
      · have hmem : (run ∈ first :: l) = (run ∈ l) := by simp [Ne.symm hrun]
        rw [heads]
        simp only [hmem]
        cases hhead : (runs first).head? with
        | none => exact ih
        | some key =>
            refine (ofRun_orderedInsert run (key, first) _).trans ?_
            rw [ofRun_cons, if_neg hrun]
            exact ih

variable [Std.Total r] [IsTrans (α × Fin n) r]

/-- The heap begins in order. -/
theorem heads_pairwise {runs : Fin n → List α} : ∀ l : List (Fin n), (heads r runs l).Pairwise r
  | [] => .nil
  | first :: l => by
      rw [heads]
      cases (runs first).head? with
      | none => exact heads_pairwise l
      | some key => exact (heads_pairwise l).orderedInsert (key, first) _

/-- At the start everything is left. -/
theorem start_standing {runs : Fin n → List α}
    (h : ∀ run, (runs run).Pairwise fun x y => r (x, run) (y, run)) :
    Standing r (Cursors.start r runs) runs where
  heads run := by
    have hheads := heads_perm (r := r) runs run (List.nodup_finRange n)
    rw [if_pos (List.mem_finRange run)] at hheads
    exact hheads
  tails run := List.drop_one.symm
  ordered := heads_pairwise _
  runs := h

/-- One step takes the head of one run. -/
theorem Standing.advance {c : Cursors α n} {pending : Fin n → List α} (h : Standing r c pending)
    {key : α} {run : Fin n} {rest : List (α × Fin n)} (hheap : c.heap = (key, run) :: rest) :
    ∃ keys, pending run = key :: keys ∧
      Standing r (c.advance r run) (Function.update pending run keys) := by
  have hperm := h.heads run
  rw [hheap, ofRun_cons, if_pos rfl] at hperm
  cases hpending : pending run with
  | nil =>
      rw [hpending] at hperm
      cases hperm.eq_nil
  | cons first keys =>
      rw [hpending, List.take_succ_cons, List.take_zero, List.perm_singleton,
        List.cons.injEq] at hperm
      obtain ⟨rfl, hrest⟩ := hperm
      refine ⟨keys, rfl, ?_⟩
      have hordered := h.ordered
      rw [hheap, List.pairwise_cons] at hordered
      have htails := h.tails run
      rw [hpending, List.drop_one, List.tail_cons] at htails
      have hruns := h.runs run
      rw [hpending, List.pairwise_cons] at hruns
      have hother : ∀ other, other ≠ run → (ofRun other rest).Perm ((pending other).take 1) := by
        intro other hne
        have hheads := h.heads other
        rw [hheap, ofRun_cons, if_neg (Ne.symm hne)] at hheads
        exact hheads
      unfold Cursors.advance
      rw [hheap, List.tail_cons, htails]
      cases keys with
      | nil =>
          refine ⟨fun other => ?_, fun other => ?_, hordered.2, fun other => ?_⟩
          all_goals
            by_cases hne : other = run
            · subst hne
              simp [hrest, htails]
            · rw [Function.update_of_ne hne]
              first | exact hother other hne | exact h.tails other | exact h.runs other
      | cons next keys =>
          refine ⟨fun other => ?_, fun other => ?_, hordered.2.orderedInsert (next, run) _,
            fun other => ?_⟩
          · refine (ofRun_orderedInsert other (next, run) rest).trans ?_
            rw [ofRun_cons]
            by_cases hne : other = run
            · subst hne
              simp [hrest]
            · rw [if_neg (Ne.symm hne), Function.update_of_ne hne]
              exact hother other hne
          · by_cases hne : other = run
            · subst hne
              simp
            · simp only [Function.update_of_ne hne]
              exact h.tails other
          · by_cases hne : other = run
            · subst hne
              rw [Function.update_self]
              exact hruns.2
            · rw [Function.update_of_ne hne]
              exact h.runs other

/-- A merge gives each run in its order, and everything in order. -/
theorem Standing.drain {c : Cursors α n} {pending : Fin n → List α} (h : Standing r c pending) :
    (∀ run, ofRun run (c.drain r) = pending run) ∧ (c.drain r).Pairwise r := by
  induction hsize : c.size using Nat.strongRecOn generalizing c pending with
  | _ size ih =>
    cases hheap : c.heap with
    | nil =>
        rw [Cursors.drain_nil r hheap]
        refine ⟨fun run => ?_, .nil⟩
        have hheads := (h.heads run).symm
        rw [hheap] at hheads
        have hempty := hheads.eq_nil
        cases hpending : pending run with
        | nil => rfl
        | cons key keys =>
            rw [hpending] at hempty
            cases hempty
    | cons entry rest =>
        obtain ⟨key, run⟩ := entry
        obtain ⟨keys, hpending, hnext⟩ := h.advance hheap
        have hlt := Cursors.size_advance r hheap
        obtain ⟨hruns, hordered⟩ :=
          ih _ (by rw [← hsize, ← hlt]; exact Nat.lt_succ_self _) hnext rfl
        rw [Cursors.drain_cons r hheap]
        refine ⟨fun other => ?_, List.pairwise_cons.mpr ⟨fun entry hmem => ?_, hordered⟩⟩
        · rw [ofRun_cons, hruns]
          by_cases hne : run = other
          · subst hne
            rw [if_pos rfl, Function.update_self, hpending]
          · rw [if_neg hne, Function.update_of_ne (Ne.symm hne)]
        · obtain ⟨later, other⟩ := entry
          have hlater : later ∈ Function.update pending run keys other := by
            rw [← hruns]
            exact mem_ofRun.mpr hmem
          refine h.least hheap ?_
          by_cases hne : other = run
          · subst hne
            rw [Function.update_self] at hlater
            rw [hpending]
            exact List.mem_cons_of_mem _ hlater
          · rwa [Function.update_of_ne hne] at hlater

/-! ## Equal neighbours -/

/-- A sorted list is strictly so, or up to a first element that the next one is equal to. -/
theorem strict_or_split {β : Type} [LinearOrder β] {v : α → β} : ∀ {l : List α},
    l.Pairwise (fun x y => v x ≤ v y) →
    l.Pairwise (fun x y => v x < v y) ∨ ∃ front x y back, l = front ++ x :: y :: back ∧
      (front ++ [x]).Pairwise (fun x y => v x < v y) ∧ v x = v y
  | [], _ => .inl .nil
  | [x], _ => .inl (List.pairwise_singleton _ _)
  | x :: y :: l, h => by
      obtain ⟨hx, hrest⟩ := List.pairwise_cons.mp h
      rcases Decidable.lt_or_eq_of_le (hx y (by simp)) with hlt | heq
      · rcases strict_or_split hrest with hstrict | ⟨front, a, b, back, hl, hfront, hab⟩
        · refine .inl (List.pairwise_cons.mpr ⟨fun z hz => ?_, hstrict⟩)
          rcases List.mem_cons.mp hz with rfl | hz
          · exact hlt
          · exact hlt.trans ((List.pairwise_cons.mp hstrict).1 z hz)
        · refine .inr ⟨x :: front, a, b, back, by rw [hl]; rfl, ?_, hab⟩
          refine List.pairwise_cons.mpr ⟨fun z hz => ?_, hfront⟩
          refine hlt.trans_le ?_
          have hmem : z ∈ y :: l := by
            rw [hl]
            rcases List.mem_append.mp hz with hz | hz
            · exact List.mem_append_left _ hz
            · rw [List.mem_singleton.mp hz]
              exact List.mem_append_right _ (by simp)
          rcases List.mem_cons.mp hmem with rfl | hmem
          · exact le_refl _
          · exact (List.pairwise_cons.mp hrest).1 z hmem
      · exact .inr ⟨[], x, y, l, rfl, List.pairwise_singleton _ _, heq⟩

end Merge
