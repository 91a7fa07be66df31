import Mathlib.Algebra.Order.BigOperators.Group.List
import Mathlib.Algebra.Order.Ring.Nat

/-!
# Greedy packing with a balanced last group

A row of items is cut greedily into groups: an item joins the open group unless the cost of the
group would exceed `limit`. The cost counts every item of a group but its last one. When the last
group ends up with a single item, it borrows one from the group before it (`balance`).

`pack` and `balance` keep the items and their order. If no item weighs more than a third of what
a group can hold, every group but the last has at least four items before and three after the
loan, so that no group has a single item once there are two.
-/

namespace Packing

variable {α β : Type} (base limit : Nat) (weight : α → Nat)

/-- What an item that joins `group` adds to its cost. -/
def additional (group : List α) : Nat := (group.getLast?.map weight).getD 0

/-- Cut the items into groups, with `group` open and at cost `used`. -/
def pack : List α → List α → Nat → List (List α)
  | [], group, _ => [group]
  | x :: rest, group, used =>
      if used + additional weight group > limit then group :: pack rest [x] base
      else pack rest (group ++ [x]) (used + additional weight group)

/-- A last group of a single item borrows the last item of the group before it. -/
def balance : List (List α) → List (List α)
  | [] => []
  | [group] => [group]
  | [previous, group] =>
      if group.length = 1 then [previous.dropLast, previous.getLast?.toList ++ group]
      else [previous, group]
  | first :: second :: third :: rest => first :: balance (second :: third :: rest)

/-- The cost of a group: all of its items but the last. -/
def cost (group : List α) : Nat := base + (group.dropLast.map weight).sum

variable {base limit weight}

theorem pack_ne_nil (rest group : List α) (used : Nat) :
    pack base limit weight rest group used ≠ [] := by
  induction rest generalizing group used with
  | nil => simp [pack]
  | cons x rest ih =>
      rw [pack]
      split
      · simp
      · exact ih _ _

/-- Packing keeps the items and their order. -/
theorem flatten_pack (rest group : List α) (used : Nat) :
    (pack base limit weight rest group used).flatten = group ++ rest := by
  induction rest generalizing group used with
  | nil => simp [pack]
  | cons x rest ih =>
      rw [pack]
      split
      · simp [ih]
      · rw [ih]; simp

/-- Balancing keeps the items and their order. -/
theorem flatten_balance : ∀ groups : List (List α), (balance groups).flatten = groups.flatten
  | [] => rfl
  | [_] => rfl
  | [previous, group] => by
      rw [balance]
      split
      · simp only [List.flatten_cons, List.flatten_nil, List.append_nil, ← List.append_assoc]
        congr 1
        rcases List.eq_nil_or_concat' previous with rfl | ⟨init, last, rfl⟩ <;> simp
      · rfl
  | first :: second :: third :: rest => by
      simp only [balance, List.flatten_cons, flatten_balance (second :: third :: rest)]

/-- Balancing keeps the number of groups. -/
theorem length_balance : ∀ groups : List (List α), (balance groups).length = groups.length
  | [] => rfl
  | [_] => rfl
  | [previous, group] => by rw [balance]; split <;> rfl
  | first :: second :: third :: rest => by
      simp only [balance, List.length_cons, length_balance (second :: third :: rest)]

/-- What `balance` does to the last two groups. -/
theorem balance_append (init : List (List α)) (previous group : List α) :
    balance (init ++ [previous, group]) = init ++ balance [previous, group] := by
  induction init with
  | nil => rfl
  | cons first init ih =>
      cases init with
      | nil => rfl
      | cons second init =>
          have hsplit : ∃ third rest, init ++ [previous, group] = third :: rest := by
            cases init <;> simp
          obtain ⟨third, rest, hrest⟩ := hsplit
          simp only [List.cons_append, hrest, balance] at ih ⊢
          rw [ih]

/-! ## Costs and sizes -/

/-- An element behind others costs its additional weight. -/
theorem cost_concat (group : List α) (x : α) (h : group ≠ []) :
    cost base weight (group ++ [x]) = cost base weight group + additional weight group := by
  obtain ⟨init, last, rfl⟩ := (List.eq_nil_or_concat' group).resolve_left h
  simp [cost, additional]
  omega

theorem cost_singleton (x : α) : cost base weight [x] = base := by simp [cost]

/-- The open group has cost `used`. -/
def Open (base : Nat) (weight : α → Nat) (group : List α) (used : Nat) : Prop :=
  used = cost base weight group

/-- Pushing an element keeps the account of the open group. -/
theorem Open.push {group : List α} {used : Nat} (h : Open base weight group used) (x : α) :
    Open base weight (group ++ [x]) (used + additional weight group) := by
  by_cases hnil : group = []
  · subst hnil
    simpa [Open, cost, additional] using h
  · rw [Open, cost_concat group x hnil, h]

/-- Every group fits. -/
theorem cost_pack (rest : List α) {group : List α} {used : Nat}
    (hopen : Open base weight group used)
    (hbase : base ≤ limit) (hused : used ≤ limit) :
    ∀ g ∈ pack base limit weight rest group used, cost base weight g ≤ limit := by
  induction rest generalizing group used with
  | nil =>
      intro g hg
      rw [pack, List.mem_singleton] at hg
      rw [hg, ← hopen]
      exact hused
  | cons x rest ih =>
      intro g hg
      rw [pack] at hg
      split at hg
      · rcases List.mem_cons.mp hg with rfl | hg
        · rw [← hopen]; exact hused
        · exact ih (cost_singleton x).symm hbase g hg
      · exact ih (hopen.push x) (by omega) g hg

/-- No group is empty. -/
theorem nonempty_pack (weight : α → Nat) {rest group : List α} {used : Nat}
    (hbase : base ≤ limit) (hused : used ≤ limit) (h : group ++ rest ≠ []) :
    ∀ g ∈ pack base limit weight rest group used, g ≠ [] := by
  induction rest generalizing group used with
  | nil =>
      intro g hg
      rw [pack, List.mem_singleton] at hg
      rw [hg]
      simpa using h
  | cons x rest ih =>
      intro g hg
      rw [pack] at hg
      split at hg
      · rename_i hfull
        rcases List.mem_cons.mp hg with rfl | hg
        · rintro rfl
          simp only [additional, List.getLast?_nil, Option.map_none, Option.getD_none] at hfull
          omega
        · exact ih hbase (by simp) g hg
      · exact ih (by omega) (by simp) g hg

/-- The weights of all items, the last one included. -/
theorem cost_add_additional (group : List α) :
    cost base weight group + additional weight group = base + (group.map weight).sum := by
  rcases List.eq_nil_or_concat' group with rfl | ⟨init, last, rfl⟩
  · simp [cost, additional]
  · simp [cost, additional]
    omega

/-- With items of at most a third of the room, every group but the last has four items. -/
theorem four_le_length_pack (rest : List α) {group : List α} {used most : Nat}
    (hopen : Open base weight group used) (hused : used ≤ limit) (hbase : base + 3 * most ≤ limit)
    (hweight : ∀ x ∈ group ++ rest, weight x ≤ most) :
    ∀ g ∈ (pack base limit weight rest group used).dropLast, 4 ≤ g.length := by
  induction rest generalizing group used with
  | nil => simp [pack]
  | cons x rest ih =>
      intro g hg
      rw [pack] at hg
      split at hg
      · rename_i hfull
        rw [List.dropLast_cons_of_ne_nil (pack_ne_nil _ _ _)] at hg
        rcases List.mem_cons.mp hg with rfl | hg
        · rw [hopen, cost_add_additional] at hfull
          have hsum : (g.map weight).sum ≤ (g.map weight).length • most := by
            refine List.sum_le_card_nsmul _ _ fun v hv => ?_
            obtain ⟨y, hy, rfl⟩ := List.mem_map.mp hv
            exact hweight y (by simp [hy])
          rw [List.length_map, nsmul_eq_mul, Nat.cast_id] at hsum
          by_contra hshort
          have := Nat.mul_le_mul_right most (show g.length ≤ 3 by omega)
          omega
        · refine ih (cost_singleton x).symm (by omega) (fun y hy => hweight y ?_) g hg
          simp only [List.singleton_append] at hy
          exact List.mem_append_right _ hy
      · rename_i hroom
        refine ih (hopen.push x) (by omega) (fun y hy => hweight y ?_) g hg
        simpa using hy

/-! ## The balanced groups -/

/-- A group without its last element costs no more. -/
theorem cost_dropLast_le (group : List α) :
    cost base weight group.dropLast ≤ cost base weight group := by
  rcases List.eq_nil_or_concat' group.dropLast with h | ⟨init, last, h⟩
  · simp [cost, h]
  · simp [cost, h]

/-- Two groups or more have their last two, and `balance` changes no others. -/
theorem exists_last_two {groups : List (List α)} (h : 2 ≤ groups.length) :
    ∃ init previous group, groups = init ++ [previous, group] := by
  rcases List.eq_nil_or_concat' groups with rfl | ⟨front, group, rfl⟩
  · simp at h
  · rcases List.eq_nil_or_concat' front with rfl | ⟨init, previous, rfl⟩
    · simp at h
    · exact ⟨init, previous, group, by simp⟩

/-- Once there are two groups, every balanced group has two items and fits. -/
theorem balance_pack {xs : List α} {most : Nat} (hbase : base + 3 * most ≤ limit)
    (hweight : ∀ x ∈ xs, weight x ≤ most)
    (htwo : 2 ≤ (pack base limit weight xs [] base).length) :
    ∀ g ∈ balance (pack base limit weight xs [] base),
      2 ≤ g.length ∧ cost base weight g ≤ limit := by
  have hopen : Open base weight ([] : List α) base := rfl
  have hxs : xs ≠ [] := by
    rintro rfl
    simp [pack] at htwo
  have hfour := four_le_length_pack xs hopen (by omega) hbase (by simpa using hweight)
  have hfits := cost_pack xs hopen (show base ≤ limit by omega) (by omega)
  have hnonempty := nonempty_pack weight (show base ≤ limit by omega)
    (show base ≤ limit by omega) (show [] ++ xs ≠ [] by simpa using hxs)
  have hflat : (pack base limit weight xs [] base).flatten = [] ++ xs := flatten_pack ..
  generalize pack base limit weight xs [] base = groups at *
  obtain ⟨init, previous, group, rfl⟩ := exists_last_two htwo
  have hdrop : (init ++ [previous, group]).dropLast = init ++ [previous] := by
    simp [List.dropLast_append_of_ne_nil]
  rw [hdrop] at hfour
  have hprevious := hfour previous (by simp)
  have hgroup := List.length_pos_iff.mpr (hnonempty group (by simp))
  intro g hg
  rw [balance_append] at hg
  rcases List.mem_append.mp hg with hg | hg
  · exact ⟨(hfour g (by simp [hg])).trans' (by omega), hfits g (by simp [hg])⟩
  rw [balance] at hg
  split at hg
  · rename_i hone
    rw [List.mem_cons, List.mem_singleton] at hg
    rcases hg with rfl | rfl
    · refine ⟨?_, (cost_dropLast_le previous).trans (hfits previous (by simp))⟩
      rw [List.length_dropLast]
      omega
    · obtain ⟨front, borrowed, rfl⟩ :=
        (List.eq_nil_or_concat' previous).resolve_left (by rintro rfl; simp at hprevious)
      have hmem : borrowed ∈ xs := by
        rw [List.nil_append] at hflat
        rw [← hflat]
        simp
      have := hweight borrowed hmem
      obtain ⟨single, rfl⟩ := List.length_eq_one_iff.mp hone
      simp [cost]
      omega
  · rename_i hone
    rw [List.mem_cons, List.mem_singleton] at hg
    rcases hg with rfl | rfl
    · exact ⟨by omega, hfits g (by simp)⟩
    · exact ⟨by omega, hfits g (by simp)⟩

/-- There are fewer groups than items. -/
theorem length_balance_pack_lt {xs : List α} {most : Nat} (hbase : base + 3 * most ≤ limit)
    (hweight : ∀ x ∈ xs, weight x ≤ most)
    (htwo : 2 ≤ (pack base limit weight xs [] base).length) :
    (pack base limit weight xs [] base).length < xs.length := by
  have hsizes := balance_pack hbase hweight htwo
  have hlen : ∀ groups : List (List α), (∀ g ∈ groups, 2 ≤ g.length) →
      2 * groups.length ≤ groups.flatten.length := by
    intro groups h
    induction groups with
    | nil => simp
    | cons g groups ih =>
        have := h g (by simp)
        have := ih fun g' hg' => h g' (by simp [hg'])
        simp only [List.length_cons, List.flatten_cons, List.length_append]
        omega
  have := hlen _ fun g hg => (hsizes g hg).1
  rw [flatten_balance, length_balance, flatten_pack, List.nil_append] at this
  omega

end Packing
