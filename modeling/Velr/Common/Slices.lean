import Mathlib.Algebra.Order.Ring.Nat
import Mathlib.Data.List.Forall2
import Mathlib.Data.List.Nodup
import Mathlib.Data.List.Range
import Mathlib.Data.Nat.Init

/-!
# Slices and strides

A list cut into slices of one length, the last of which may be shorter (`chunks`), and the numbers
of the slices dealt out to workers in turn (`stride`): each number goes to one worker (`deal_perm`).
-/

namespace Slices

variable {α : Type}

/-- How many slices of a length cover a number of elements. -/
def ceil (n c : Nat) : Nat := (n + c - 1) / c

/-- The slices cover the list. -/
theorem le_ceil_mul {n c : Nat} (hc : 0 < c) : n ≤ ceil n c * c := by
  have hmod := Nat.mod_lt (n + c - 1) hc
  have hdiv := Nat.div_add_mod (n + c - 1) c
  rw [ceil, Nat.mul_comm]
  omega

/-- A slice is one of them if it begins inside of the list. -/
theorem lt_ceil_iff {n c i : Nat} (hc : 0 < c) : i < ceil n c ↔ i * c < n := by
  rw [ceil, Nat.lt_iff_add_one_le, Nat.le_div_iff_mul_le hc, Nat.add_mul]
  omega

/-- The slice of a number. -/
def slice (c : Nat) (l : List α) (i : Nat) : List α := (l.drop (i * c)).take c

/-- The first slices make up a front of the list. -/
theorem flatMap_slice (c : Nat) (l : List α) (m : Nat) :
    (List.range m).flatMap (slice c l) = l.take (m * c) := by
  induction m with
  | zero => simp
  | succ m ih =>
      rw [List.range_succ, List.flatMap_append, ih, List.flatMap_singleton, slice, Nat.succ_mul,
        List.take_add]

/-- The first slices of a list. -/
def slices (c : Nat) (l : List α) (m : Nat) : List (List α) := (List.range m).map (slice c l)

/-- The slices behind `m` of them are those of the rest. -/
theorem slices_add (c : Nat) (l : List α) (m n : Nat) :
    slices c l (m + n) = slices c l m ++ slices c (l.drop (m * c)) n := by
  rw [slices, List.range_add, List.map_append, List.map_map]
  congr 1
  refine List.map_congr_left fun i _ => ?_
  rw [Function.comp_apply, slice, slice, List.drop_drop, Nat.add_mul]

theorem slices_one (c : Nat) (l : List α) : slices c l 1 = [l.take c] := by
  rw [slices, List.range_one, List.map_singleton, slice, Nat.zero_mul, List.drop_zero]

theorem slices_succ (c : Nat) (l : List α) (m : Nat) :
    slices c l (m + 1) = l.take c :: slices c (l.drop c) m := by
  rw [Nat.add_comm, slices_add, slices_one, Nat.one_mul, List.singleton_append]

/-- Slices in front of a place do not depend on what lies behind it. -/
theorem slices_take {c : Nat} {l : List α} {m k : Nat} (h : m * c ≤ k) :
    slices c (l.take k) m = slices c l m := by
  refine List.map_congr_left fun i hi => ?_
  have hmul : (i + 1) * c ≤ m * c := Nat.mul_le_mul_right c (List.mem_range.mp hi)
  rw [Nat.succ_mul] at hmul
  rw [slice, slice, List.drop_take, List.take_take, Nat.min_eq_left (by omega)]

/-- Pieces of one length, written one behind the other, are the slices. -/
theorem slices_flatMap {β : Type} {f : β → List α} {c : Nat} (h : ∀ x, (f x).length = c)
    (xs : List β) : slices c (xs.flatMap f) xs.length = xs.map f := by
  induction xs with
  | nil => rfl
  | cons x xs ih =>
      rw [List.flatMap_cons, List.length_cons, slices_succ, List.take_left' (h x),
        List.drop_left' (h x), ih, List.map_cons]

/-- Pieces of `c` elements have `c` elements for each. -/
theorem length_flatMap_eq {β : Type} {f : β → List α} {c : Nat} (h : ∀ x, (f x).length = c)
    (xs : List β) : (xs.flatMap f).length = xs.length * c := by
  induction xs with
  | nil => rw [List.flatMap_nil, List.length_nil, List.length_nil, Nat.zero_mul]
  | cons x xs ih =>
      rw [List.flatMap_cons, List.length_append, h, ih, List.length_cons, Nat.succ_mul,
        Nat.add_comm]

/-- Lists that permute some slices make up a permutation of them all. -/
theorem flatten_perm_flatMap {ι : Type} {f : ι → List α} {is : List ι} {ls : List (List α)}
    (h : List.Forall₂ (fun i l => l.Perm (f i)) is ls) : ls.flatten.Perm (is.flatMap f) := by
  induction h with
  | nil => exact .nil
  | cons hperm _ ih =>
      rw [List.flatten_cons, List.flatMap_cons]
      exact hperm.append ih

/-- `chunks` -/
def chunks (c : Nat) (l : List α) : List (List α) := (List.range (ceil l.length c)).map (slice c l)

/-- The chunks make up the list. -/
theorem flatten_chunks {c : Nat} (hc : 0 < c) (l : List α) : (chunks c l).flatten = l := by
  rw [chunks, ← List.flatMap_def, flatMap_slice, List.take_of_length_le (le_ceil_mul hc)]

theorem length_chunks (c : Nat) (l : List α) : (chunks c l).length = ceil l.length c := by
  simp [chunks]

/-- The chunks are fewer than the elements. -/
theorem length_chunks_lt {c : Nat} {l : List α} (hc : 1 < c) (hl : c ≤ l.length) :
    (chunks c l).length < l.length := by
  rw [length_chunks, ceil, Nat.div_lt_iff_lt_mul (by omega)]
  have hmul := Nat.mul_le_mul_left l.length hc
  omega

/-! ## Dealing out -/

/-- The numbers below `n` from `worker` on, in steps of `workers`. -/
def stride (workers n worker : Nat) : List Nat :=
  List.range' worker (ceil (n - worker) workers) workers

/-- A worker takes every `workers`-th number. -/
theorem mem_stride {workers n worker i : Nat} (hworker : worker < workers) :
    i ∈ stride workers n worker ↔ i < n ∧ i % workers = worker := by
  have hpos : 0 < workers := by omega
  rw [stride, List.mem_range']
  constructor
  · rintro ⟨j, hj, rfl⟩
    rw [lt_ceil_iff hpos, Nat.mul_comm] at hj
    refine ⟨by omega, ?_⟩
    rw [Nat.add_mul_mod_self_left, Nat.mod_eq_of_lt hworker]
  · rintro ⟨hi, hmod⟩
    have hdiv := Nat.div_add_mod i workers
    refine ⟨i / workers, ?_, by omega⟩
    rw [lt_ceil_iff hpos, Nat.mul_comm]
    omega

/-- Each number goes to one worker. -/
theorem deal_perm {workers n : Nat} (h : 0 < workers) :
    ((List.range workers).flatMap (stride workers n)).Perm (List.range n) := by
  refine (List.perm_ext_iff_of_nodup ?_ List.nodup_range).mpr fun i => ?_
  · refine List.nodup_flatMap.mpr ⟨fun worker _ => List.nodup_range' workers h, ?_⟩
    refine (List.nodup_range (n := workers)).imp_of_mem fun {a b} ha hb hne => ?_
    refine List.disjoint_left.mpr fun i hia hib => hne ?_
    rw [← ((mem_stride (List.mem_range.mp ha)).mp hia).2,
      ((mem_stride (List.mem_range.mp hb)).mp hib).2]
  · rw [List.mem_flatMap, List.mem_range]
    constructor
    · rintro ⟨worker, hworker, hi⟩
      exact ((mem_stride (List.mem_range.mp hworker)).mp hi).1
    · intro hi
      have hlt := Nat.mod_lt i h
      exact ⟨i % workers, List.mem_range.mpr hlt, (mem_stride hlt).mpr ⟨hi, rfl⟩⟩

/-- What the workers make of the slices dealt out to them is a permutation of it all. -/
theorem dealt_perm {workers c : Nat} (hworkers : 0 < workers) (hc : 0 < c) {l : List α}
    {groups : List (List (List α))}
    (h : List.Forall₂ (fun worker group => List.Forall₂ (fun i sorted => sorted.Perm (slice c l i))
      (stride workers (ceil l.length c) worker) group) (List.range workers) groups) :
    groups.flatten.flatten.Perm l := by
  have hgroup : List.Forall₂ (fun worker group => group.flatten.Perm
      ((stride workers (ceil l.length c) worker).flatMap (slice c l)))
        (List.range workers) groups :=
    h.imp fun worker group hall => flatten_perm_flatMap hall
  have hperm := flatten_perm_flatMap (List.forall₂_map_right_iff.mpr hgroup)
  rw [← List.flatten_flatten] at hperm
  refine hperm.trans ?_
  rw [← List.flatMap_assoc]
  refine ((deal_perm hworkers).flatMap_right _).trans (.of_eq ?_)
  rw [flatMap_slice, List.take_of_length_le (le_ceil_mul hc)]

end Slices
