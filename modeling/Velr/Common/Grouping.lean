import Mathlib.Algebra.Order.Ring.Nat
import Mathlib.Algebra.BigOperators.Group.List.Basic
import Mathlib.Data.List.Dedup
import Mathlib.Data.List.Perm.Basic
import Mathlib.Data.List.ReduceOption
import Mathlib.Data.Multiset.Bind

/-!
# Grouping

`SELECT key, SUM(count) … GROUP BY key` over rows of keys and counts (`groupBy`), and `COUNT(*)`
over rows of keys (`countBy`). Where every count is positive, the groups are determined by the total
of each key, so keys that were counted before a join group as the join of all of them does
(`groupBy_flatMap_perm`).
-/

namespace Grouping

variable {κ κ' α β : Type} [DecidableEq κ] [DecidableEq κ']

/-- The total of a key. -/
def total (rows : List (κ × Nat)) (key : κ) : Nat :=
  (rows.map fun row => if row.1 = key then row.2 else 0).sum

/-- Every key with its total. -/
def groupBy (rows : List (κ × Nat)) : List (κ × Nat) :=
  (rows.map Prod.fst).dedup.map fun key => (key, total rows key)

/-- Every key with the number of its rows. -/
def countBy (keys : List κ) : List (κ × Nat) := groupBy (keys.map (·, 1))

/-! ## Totals -/

/-- Totals add up. -/
theorem total_append (rows rows' : List (κ × Nat)) (key : κ) :
    total (rows ++ rows') key = total rows key + total rows' key := by
  rw [total, List.map_append, List.sum_append]
  rfl

theorem total_flatMap (xs : List α) (f : α → List (κ × Nat)) (key : κ) :
    total (xs.flatMap f) key = (xs.map fun x => total (f x) key).sum := by
  induction xs with
  | nil => rfl
  | cons x xs ih => rw [List.flatMap_cons, total_append, ih, List.map_cons, List.sum_cons]

/-- Rows of one count. -/
theorem total_map (keys : List κ) (count : Nat) (key : κ) :
    total (keys.map (·, count)) key = count * keys.count key := by
  induction keys with
  | nil => rfl
  | cons first keys ih =>
      rw [List.map_cons, ← List.singleton_append, total_append, ih, List.count_cons, Nat.mul_add,
        Nat.add_comm, total, List.map_singleton, List.sum_singleton]
      simp only [beq_iff_eq]
      split
      · rw [Nat.mul_one]
      · rw [Nat.mul_zero]

/-- Where counts are positive, the keys with a total are those of the rows. -/
theorem total_pos {rows : List (κ × Nat)} (hpos : ∀ row ∈ rows, 0 < row.2) {key : κ} :
    0 < total rows key ↔ key ∈ rows.map Prod.fst := by
  induction rows with
  | nil => exact ⟨fun h => absurd h (Nat.lt_irrefl 0), fun h => nomatch h⟩
  | cons row rows ih =>
      rw [List.forall_mem_cons] at hpos
      have htotal :
          total (row :: rows) key = (if row.1 = key then row.2 else 0) + total rows key := by
        rw [total, List.map_cons, List.sum_cons]
        rfl
      rw [htotal, List.map_cons, List.mem_cons, ← ih hpos.2]
      by_cases hkey : row.1 = key
      · rw [if_pos hkey]
        exact ⟨fun _ => .inl hkey.symm, fun _ => Nat.add_pos_left hpos.1 _⟩
      · rw [if_neg hkey, Nat.zero_add]
        exact ⟨.inr, fun hor => hor.resolve_left fun heq => hkey heq.symm⟩

/-! ## Groups -/

/-- There is one group for each key. -/
theorem nodup_groupBy (rows : List (κ × Nat)) : ((groupBy rows).map Prod.fst).Nodup := by
  have hkeys : (groupBy rows).map Prod.fst = (rows.map Prod.fst).dedup := by
    rw [groupBy, List.map_map]
    exact List.map_id _
  rw [hkeys]
  exact List.nodup_dedup _

/-- The groups of positive counts are the keys with a positive total. -/
theorem mem_groupBy {rows : List (κ × Nat)} (hpos : ∀ row ∈ rows, 0 < row.2) {group : κ × Nat} :
    group ∈ groupBy rows ↔ group.2 = total rows group.1 ∧ 0 < group.2 := by
  rw [groupBy, List.mem_map]
  constructor
  · rintro ⟨key, hkey, rfl⟩
    exact ⟨rfl, (total_pos hpos).mpr (List.mem_dedup.mp hkey)⟩
  · rintro ⟨htotal, hgroup⟩
    rw [htotal, total_pos hpos] at hgroup
    exact ⟨group.1, List.mem_dedup.mpr hgroup, by rw [← htotal]⟩

/-- Rows with positive counts and the same totals have the same groups. -/
theorem groupBy_perm {rows rows' : List (κ × Nat)} (hpos : ∀ row ∈ rows, 0 < row.2)
    (hpos' : ∀ row ∈ rows', 0 < row.2) (h : ∀ key, total rows key = total rows' key) :
    (groupBy rows).Perm (groupBy rows') := by
  refine (List.perm_ext_iff_of_nodup
    (nodup_groupBy rows).of_map (nodup_groupBy rows').of_map).mpr ?_
  intro group
  rw [mem_groupBy hpos, mem_groupBy hpos', h]

/-- The total of rows with the count one is how often the key comes. -/
theorem total_keys (keys : List κ) (key : κ) : total (keys.map (·, 1)) key = keys.count key := by
  rw [total_map, Nat.one_mul]

omit [DecidableEq κ] in
theorem forall_keys_pos (keys : List κ) : ∀ row ∈ keys.map (·, 1), 0 < row.2 := by
  intro row hrow
  obtain ⟨key, -, rfl⟩ := List.mem_map.mp hrow
  exact Nat.one_pos

/-- The order of the rows does not matter. -/
theorem countBy_perm {keys keys' : List κ} (h : keys.Perm keys') :
    (countBy keys).Perm (countBy keys') := by
  refine groupBy_perm (forall_keys_pos keys) (forall_keys_pos keys') fun key => ?_
  rw [total_keys, total_keys, h.count_eq]

/-- Partial counts of some keys group as these do. -/
theorem groupBy_perm_countBy {rows : List (κ × Nat)} {keys : List κ}
    (hpos : ∀ row ∈ rows, 0 < row.2)
    (h : ∀ key, total rows key = keys.count key) : (groupBy rows).Perm (countBy keys) := by
  refine groupBy_perm hpos (forall_keys_pos keys) fun key => ?_
  rw [total_keys, h]

/-- Keys that are put in other words group as before, if no two of them become one. -/
theorem map_countBy_perm {keys : List κ} {f : κ → κ'}
    (hinj : ∀ key ∈ keys, ∀ key' ∈ keys, f key = f key' → key = key') :
    ((countBy keys).map fun group => (f group.1, group.2)).Perm (countBy (keys.map f)) := by
  have hfst : ∀ keys : List κ, (keys.map (·, 1)).map Prod.fst = keys := fun keys => by
    rw [List.map_map]
    exact List.map_id keys
  have hmem : ∀ group, group ∈ countBy keys → group.1 ∈ keys := by
    intro group hgroup
    obtain ⟨htotal, hpos⟩ := (mem_groupBy (forall_keys_pos keys)).mp hgroup
    rw [htotal, total_pos (forall_keys_pos keys), hfst] at hpos
    exact hpos
  have hcount : ∀ key ∈ keys, (keys.map f).count (f key) = keys.count key := by
    intro key hkey
    rw [List.count_eq_countP, List.countP_map, List.count_eq_countP]
    refine List.countP_congr fun key' hkey' => ?_
    rw [Function.comp_apply, beq_iff_eq, beq_iff_eq]
    exact ⟨hinj key' hkey' key hkey, fun heq => by rw [heq]⟩
  refine (List.perm_ext_iff_of_nodup ?_ (nodup_groupBy _).of_map).mpr fun group => ?_
  · have hnodup := nodup_groupBy (keys.map (·, 1))
    refine List.Nodup.of_map Prod.fst ?_
    rw [List.map_map]
    have hcomp : (Prod.fst ∘ fun group : κ × Nat => (f group.1, group.2)) = f ∘ Prod.fst := rfl
    rw [hcomp, ← List.map_map]
    refine hnodup.map_on fun key hkey key' hkey' => ?_
    obtain ⟨group, hgroup, rfl⟩ := List.mem_map.mp hkey
    obtain ⟨group', hgroup', rfl⟩ := List.mem_map.mp hkey'
    exact hinj _ (hmem group hgroup) _ (hmem group' hgroup')
  · unfold countBy
    rw [mem_groupBy (forall_keys_pos (keys.map f)), total_keys, List.mem_map]
    constructor
    · rintro ⟨⟨key, count⟩, hgroup, rfl⟩
      have hkey := hmem _ hgroup
      obtain ⟨htotal, hpos⟩ := (mem_groupBy (forall_keys_pos keys)).mp hgroup
      rw [total_keys] at htotal
      exact ⟨htotal.trans (hcount key hkey).symm, hpos⟩
    · rintro ⟨htotal, hpos⟩
      rw [htotal, List.count_pos_iff] at hpos
      obtain ⟨key, hkey, hf⟩ := List.mem_map.mp hpos
      refine ⟨(key, group.2), (mem_groupBy (forall_keys_pos keys)).mpr ⟨?_, ?_⟩, ?_⟩
      · dsimp only
        rw [total_keys, htotal, ← hf, hcount key hkey]
      · dsimp only
        rw [htotal, ← hf, List.count_pos_iff]
        exact List.mem_map_of_mem hkey
      · dsimp only
        rw [hf]

/-! ## Sums over keys that were counted -/

/-- A sum over some keys is one over the distinct ones, by their counts. -/
theorem sum_map_count {keys distinct : List κ} (hnodup : distinct.Nodup)
    (hmem : ∀ key ∈ keys, key ∈ distinct) (f : κ → Nat) :
    (keys.map f).sum = (distinct.map fun key => keys.count key * f key).sum := by
  induction keys with
  | nil =>
      refine (List.sum_eq_zero fun x hx => ?_).symm
      obtain ⟨key, -, rfl⟩ := List.mem_map.mp hx
      exact Nat.zero_mul _
  | cons first keys ih =>
      rw [List.forall_mem_cons] at hmem
      have hsingle : ∀ {distinct : List κ}, distinct.Nodup → first ∈ distinct →
          (distinct.map fun key => if first = key then f key else 0).sum = f first := by
        intro distinct hnodup hfirst
        induction distinct with
        | nil => cases hfirst
        | cons key distinct ih' =>
            rw [List.nodup_cons] at hnodup
            rw [List.map_cons, List.sum_cons]
            rcases List.mem_cons.mp hfirst with rfl | hfirst
            · have hrest : (distinct.map fun key => if first = key then f key else 0).sum = 0 := by
                refine List.sum_eq_zero fun x hx => ?_
                obtain ⟨key, hkey, rfl⟩ := List.mem_map.mp hx
                exact if_neg fun heq : first = key => hnodup.1 (heq ▸ hkey)
              rw [if_pos rfl, hrest, Nat.add_zero]
            · have hne : first ≠ key := fun heq : first = key => hnodup.1 (heq ▸ hfirst)
              rw [if_neg hne, ih' hnodup.2 hfirst, Nat.zero_add]
      rw [List.map_cons, List.sum_cons, ih hmem.2, ← hsingle hnodup hmem.1, ← List.sum_map_add]
      refine congrArg List.sum (List.map_congr_left fun key _ => ?_)
      rw [List.count_cons, Nat.add_mul, Nat.add_comm]
      simp only [beq_iff_eq]
      split
      · rw [Nat.one_mul]
      · rw [Nat.zero_mul]

/-! ## Joins -/

section
variable {ι ν : Type} [DecidableEq ι]

/-- Keys that were counted, joined with what each stands for. -/
theorem groupBy_flatMap_perm {rows : List (κ × Nat)} {keys : List κ}
    (hnodup : (rows.map Prod.fst).Nodup) (hpos : ∀ row ∈ rows, 0 < row.2)
    (hcount : ∀ row ∈ rows, row.2 = keys.count row.1) (hmem : ∀ key ∈ keys, key ∈ rows.map Prod.fst)
    (expand : κ → List ι) :
    (groupBy (rows.flatMap fun row => (expand row.1).map (·, row.2))).Perm
      (countBy (keys.flatMap expand)) := by
  refine groupBy_perm_countBy (fun joined hjoined => ?_) fun key => ?_
  · obtain ⟨row, hrow, hjoined⟩ := List.mem_flatMap.mp hjoined
    obtain ⟨key, -, rfl⟩ := List.mem_map.mp hjoined
    exact hpos row hrow
  · have hrows : (rows.map fun row => total ((expand row.1).map (·, row.2)) key) =
        (rows.map Prod.fst).map fun first => keys.count first * (expand first).count key := by
      rw [List.map_map]
      refine List.map_congr_left fun row hrow => ?_
      rw [total_map, hcount row hrow]
      rfl
    rw [total_flatMap, hrows, ← sum_map_count hnodup hmem, List.count_flatMap]
    rfl

/-- The rows of one table of several that share a map of counts. -/
def tableOf (table : κ → Option ι) (rows : List (κ × Nat)) : List (ι × Nat) :=
  rows.filterMap fun row => (table row.1).map (·, row.2)

omit [DecidableEq κ] [DecidableEq ι] in

/-- Joining rows that were counted before expands each row that the table knows. -/
theorem flatMap_tableOf (table : κ → Option ι) (expand : ι → List α) (rows : List (κ × Nat)) :
    (tableOf table rows).flatMap (fun row => (expand row.1).map (·, row.2)) =
      rows.flatMap fun row => ((table row.1).elim [] expand).map (·, row.2) := by
  induction rows with
  | nil => rfl
  | cons row rows ih =>
      rw [List.flatMap_cons, ← ih, tableOf, List.filterMap_cons]
      cases table row.1 with
      | none => rfl
      | some key => rw [Option.map_some, List.flatMap_cons, Option.elim_some]; rfl

omit [DecidableEq κ] [DecidableEq ι] in

/-- Joining the keys one by one does the same. -/
theorem flatMap_filterMap (table : κ → Option ι) (expand : ι → List α) (keys : List κ) :
    (keys.filterMap table).flatMap expand = keys.flatMap fun key => (table key).elim [] expand := by
  induction keys with
  | nil => rfl
  | cons key keys ih =>
      rw [List.flatMap_cons, ← ih, List.filterMap_cons]
      cases table key with
      | none => rfl
      | some first => rw [List.flatMap_cons, Option.elim_some]

/-- A row is the only one that joins its key. -/
theorem filter_key {rows : List (κ × ν)} (hnodup : (rows.map Prod.fst).Nodup) {row : κ × ν}
    (hrow : row ∈ rows) : rows.filter (·.1 = row.1) = [row] := by
  induction rows with
  | nil => cases hrow
  | cons first rows ih =>
      rw [List.map_cons, List.nodup_cons] at hnodup
      rcases List.mem_cons.mp hrow with rfl | hrow
      · have hrest : rows.filter (·.1 = row.1) = [] := by
          rw [List.filter_eq_nil_iff]
          intro other hother hkey
          exact hnodup.1 (of_decide_eq_true hkey ▸ List.mem_map_of_mem hother)
        rw [List.filter_cons, if_pos (decide_eq_true rfl), hrest]
      · have hne : first.1 ≠ row.1 := fun heq => hnodup.1 (heq ▸ List.mem_map_of_mem hrow)
        rw [List.filter_cons, if_neg (fun heq => hne (of_decide_eq_true heq)), ih hnodup.2 hrow]

end

omit [DecidableEq κ] in
/-- The rows of a join in the other order. -/
theorem flatMap_map_perm (xs : List α) (ys : List β) (f : α → β → κ) :
    (xs.flatMap fun x => ys.map (f x)).Perm (ys.flatMap fun y => xs.map fun x => f x y) := by
  rw [← Multiset.coe_eq_coe, ← Multiset.coe_bind, ← Multiset.coe_bind]
  simp only [← Multiset.map_coe]
  exact Multiset.bind_map_comm ..

end Grouping
