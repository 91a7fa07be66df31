import Mathlib.Algebra.Order.Ring.Nat
import Mathlib.Data.Finset.Card
import Mathlib.Data.Finset.Image
import Mathlib.Data.Finset.Interval
import Mathlib.Order.Interval.Finset.Nat
import Mathlib.Data.List.GetD
import Mathlib.Data.List.Lex
import Mathlib.Order.Basic

/-!
# Groups of equal prefixes in a sorted stream

In a sorted stream of rows the rows that agree in their first columns lie side by side. The position
of each row's first column that differs from the row before says where such a group starts
(`start`) and how many groups lie before it (`rank`). `prefix_cases` connects the two with the rows:
the order of two prefixes is the order of their groups' starts.
-/

namespace PrefixGroups

section

variable (changed : Nat → Nat)

/-- The first row of the group of row `i` that the columns up to `c` make. -/
def start (c : Nat) : Nat → Nat
  | 0 => 0
  | i + 1 => if changed (i + 1) ≤ c then i + 1 else start c i

/-- The number of groups before that of row `i`. -/
def rank (c : Nat) : Nat → Nat
  | 0 => 0
  | i + 1 => if changed (i + 1) ≤ c then rank c i + 1 else rank c i

variable {changed} {c d i j : Nat}

/-- A row that changes a column of the prefix begins a group. -/
theorem start_of_changed (h : changed (i + 1) ≤ c) : start changed c (i + 1) = i + 1 := if_pos h

/-- Another row is in the group of the row before it. -/
theorem start_of_unchanged (h : c < changed (i + 1)) :
    start changed c (i + 1) = start changed c i := if_neg (by omega)

theorem start_le (changed : Nat → Nat) (c i : Nat) : start changed c i ≤ i := by
  induction i with
  | zero => exact Nat.le_refl _
  | succ i ih =>
      unfold start
      split <;> omega

/-- Later rows are not in earlier groups. -/
theorem start_mono (changed : Nat → Nat) (c : Nat) (h : i ≤ j) :
    start changed c i ≤ start changed c j := by
  induction j, h using Nat.le_induction with
  | base => exact Nat.le_refl _
  | succ j _ ih =>
      have hle := start_le changed c i
      by_cases hc : changed (j + 1) ≤ c
      · rw [start_of_changed hc]
        omega
      · rwa [start_of_unchanged (by omega)]

/-- A group's first row is its own. -/
theorem start_start (c i : Nat) : start changed c (start changed c i) = start changed c i := by
  induction i with
  | zero => rfl
  | succ i ih =>
      by_cases h : changed (i + 1) ≤ c
      · rw [start_of_changed h, start_of_changed h]
      · rw [start_of_unchanged (by omega), ih]

/-- The rows between a group's first row and one of its rows are in it. -/
theorem start_eq_of_between (hj : start changed c i ≤ j) (hi : j ≤ i) :
    start changed c j = start changed c i := by
  have hlow := start_mono changed c hj
  have hhigh := start_mono changed c hi
  rw [start_start] at hlow
  omega

/-- More columns make smaller groups. -/
theorem start_le_of_le (changed : Nat → Nat) (h : c ≤ d) (i : Nat) :
    start changed c i ≤ start changed d i := by
  induction i with
  | zero => exact Nat.le_refl _
  | succ i ih =>
      have hle := start_le changed c i
      unfold start
      split <;> split <;> omega

/-- Rows of one group are in one group of fewer columns. -/
theorem start_eq_of_le (h : c ≤ d) (heq : start changed d i = start changed d j) :
    start changed c i = start changed c j := by
  have hone {i j : Nat} (hij : i ≤ j) (heq : start changed d i = start changed d j) :
      start changed c i = start changed c j :=
    start_eq_of_between (by
      have h1 := start_le_of_le changed h j
      have h2 := start_le changed d i
      omega) hij
  rcases Nat.le_total i j with hij | hij
  · exact hone hij heq
  · exact (hone hij heq.symm).symm

/-- A row behind a change starts no earlier than it. -/
theorem le_start_of_changed (h : changed (i + 1) ≤ c) (hj : i + 1 ≤ j) :
    i + 1 ≤ start changed c j := by
  have := start_mono changed c hj
  rwa [start_of_changed h] at this

variable (changed)

/-- The rows of the group of row `i`. -/
def group (n c i : Nat) : Finset Nat :=
  (Finset.range n).filter fun j => start changed c j = start changed c i

variable {changed}

/-- A group that has ended with row `k` has the rows from its first to `k`. -/
theorem card_group {n k : Nat} (hk : k < n) (hclosed : k + 1 = n ∨ changed (k + 1) ≤ c)
    (h : start changed c i = start changed c k) :
    (group changed n c i).card = k + 1 - start changed c k := by
  have hgroup : group changed n c i = Finset.Ico (start changed c k) (k + 1) := by
    ext j
    simp only [group, Finset.mem_filter, Finset.mem_range, Finset.mem_Ico, h]
    constructor
    · rintro ⟨hjn, hj⟩
      have hle := start_le changed c j
      refine ⟨by omega, Nat.lt_of_not_le fun hkj => ?_⟩
      obtain hend | hchanged := hclosed
      · omega
      · have := le_start_of_changed hchanged hkj
        have := start_le changed c k
        omega
    · rintro ⟨hj, hjk⟩
      exact ⟨by omega, start_eq_of_between hj (by omega)⟩
  rw [hgroup, Nat.card_Ico]

/-- Rows with one start have one group. -/
theorem group_congr {n : Nat} (h : start changed c i = start changed c j) :
    group changed n c i = group changed n c j := by
  rw [group, group, h]

/-- No group is empty. -/
theorem card_group_pos {n : Nat} (h : i < n) : 0 < (group changed n c i).card :=
  Finset.card_pos.mpr ⟨i, Finset.mem_filter.mpr ⟨Finset.mem_range.mpr h, rfl⟩⟩

/-- The groups of the rows up to `i` are its own and those before. -/
theorem image_start_succ (c i : Nat) :
    (Finset.range (i + 1)).image (start changed c) =
      insert (start changed c i)
        ((Finset.range (start changed c i)).image (start changed c)) := by
  have hle := start_le changed c i
  ext s
  simp only [Finset.mem_image, Finset.mem_range, Finset.mem_insert]
  constructor
  · rintro ⟨j, hj, rfl⟩
    rcases Nat.lt_or_ge j (start changed c i) with hlt | hge
    · exact .inr ⟨j, hlt, rfl⟩
    · exact .inl (start_eq_of_between hge (by omega))
  · rintro (rfl | ⟨j, hj, rfl⟩)
    · exact ⟨i, by omega, rfl⟩
    · exact ⟨j, by omega, rfl⟩

/-- The row's own group is none of those before. -/
theorem card_image_start_succ (c i : Nat) :
    ((Finset.range (i + 1)).image (start changed c)).card =
      ((Finset.range (start changed c i)).image (start changed c)).card + 1 := by
  rw [image_start_succ, Finset.card_insert_of_notMem]
  intro hmem
  obtain ⟨j, hj, heq⟩ := Finset.mem_image.mp hmem
  have hle := start_le changed c j
  have hlt := Finset.mem_range.mp hj
  omega

/-- The groups before that of row `i` are counted by its rank. -/
theorem rank_eq (c i : Nat) :
    rank changed c i =
      ((Finset.range (start changed c i)).image (start changed c)).card := by
  induction i with
  | zero => rfl
  | succ i ih =>
      by_cases h : changed (i + 1) ≤ c
      · rw [start_of_changed h, rank, if_pos h, ih, card_image_start_succ]
      · rw [start_of_unchanged (by omega), rank, if_neg h, ih]

end

/-! ## Sorted rows -/

variable {α : Type} [LinearOrder α]

/-- The position of the first column in which two rows differ. -/
def firstChanged : List α → List α → Nat
  | a :: x, b :: y => if a = b then firstChanged x y + 1 else 0
  | _, _ => 0

/-- The position of the first column of row `i` that differs from the row before. -/
def changedAt (rows : List (List α)) : Nat → Nat
  | 0 => 0
  | i + 1 => firstChanged (rows.getD i []) (rows.getD (i + 1) [])

/-- The first changed column of each row behind another one, if there is one. -/
def changesFrom : Option (List α) → List (List α) → List Nat
  | _, [] => []
  | previous, row :: rows =>
      previous.elim 0 (firstChanged · row) :: changesFrom (some row) rows

/-- The changes from a row on are those of the list that it begins. -/
theorem changesFrom_some (last : List α) (rows : List (List α)) :
    changesFrom (some last) rows =
      (List.range rows.length).map fun i => changedAt (last :: rows) (i + 1) := by
  induction rows generalizing last with
  | nil => rfl
  | cons row rows ih =>
      rw [changesFrom, ih, List.length_cons, List.range_succ_eq_map, List.map_cons, List.map_map]
      rfl

/-- The changed columns of all rows. -/
theorem changesFrom_none (rows : List (List α)) :
    changesFrom none rows = (List.range rows.length).map (changedAt rows) := by
  cases rows with
  | nil => rfl
  | cons row rows =>
      rw [changesFrom, changesFrom_some, List.length_cons, List.range_succ_eq_map, List.map_cons,
        List.map_map]
      rfl

/-- The first columns of row `i`, up to `c`. -/
def prefixOf (rows : List (List α)) (c i : Nat) : List α := (rows.getD i []).take (c + 1)

/-- Two rows in order differ in one of their columns. -/
theorem firstChanged_lt {x y : List α} (h : x < y) (hlength : x.length = y.length) :
    firstChanged x y < x.length := by
  induction x generalizing y with
  | nil =>
      cases y with
      | nil => exact absurd h (lt_irrefl _)
      | cons b y => cases hlength
  | cons a x ih =>
      cases y with
      | nil => cases hlength
      | cons b y =>
          simp only [firstChanged, List.length_cons] at hlength ⊢
          split
          · next heq =>
              subst heq
              have := ih ((List.cons_lt_cons_iff.mp h).resolve_left (lt_irrefl _)).2 (by omega)
              omega
          · omega

/-- Where the first difference lies behind the prefix, the prefixes agree. -/
theorem take_eq {x y : List α} (h : c < firstChanged x y) : x.take (c + 1) = y.take (c + 1) := by
  induction x generalizing y c with
  | nil => simp [firstChanged] at h
  | cons a x ih =>
      cases y with
      | nil => simp [firstChanged] at h
      | cons b y =>
          simp only [firstChanged] at h
          split at h
          · next heq =>
              subst heq
              cases c with
              | zero => rfl
              | succ c =>
                  rw [List.take_succ_cons, List.take_succ_cons, ih (Nat.lt_of_succ_lt_succ h)]
          · omega

/-- Where it lies in the prefix, the prefixes are in the rows' order. -/
theorem take_lt {x y : List α} (hlt : x < y) (hlength : x.length = y.length)
    (h : firstChanged x y ≤ c) : x.take (c + 1) < y.take (c + 1) := by
  induction x generalizing y c with
  | nil =>
      cases y with
      | nil => exact absurd hlt (lt_irrefl _)
      | cons b y => cases hlength
  | cons a x ih =>
      cases y with
      | nil => cases hlength
      | cons b y =>
          simp only [firstChanged, List.length_cons] at h hlength
          rw [List.take_succ_cons, List.take_succ_cons, List.cons_lt_cons_iff]
          rcases List.cons_lt_cons_iff.mp hlt with hab | ⟨rfl, hxy⟩
          · exact .inl hab
          · rw [if_pos rfl] at h
            cases c with
            | zero => omega
            | succ c => exact .inr ⟨rfl, ih hxy (by omega) (by omega)⟩

/-- Rows of one width in strict order. -/
structure Sorted (columns : Nat) (rows : List (List α)) : Prop where
  width : ∀ r ∈ rows, r.length = columns
  sorted : rows.Pairwise (· < ·)

namespace Sorted

variable {columns : Nat} {rows : List (List α)} {c i j : Nat}

theorem length_getD (h : Sorted columns rows) (hi : i < rows.length) :
    (rows.getD i []).length = columns := by
  rw [List.getD_eq_getElem _ _ hi]
  exact h.width _ (List.getElem_mem _)

theorem lt (h : Sorted columns rows) (hi : i + 1 < rows.length) :
    rows.getD i [] < rows.getD (i + 1) [] := by
  rw [List.getD_eq_getElem _ _ (by omega), List.getD_eq_getElem _ _ hi]
  exact List.pairwise_iff_getElem.mp h.sorted _ _ _ _ (Nat.lt_succ_self i)

/-- The first changed column is a column. -/
theorem changedAt_lt (h : Sorted columns rows) (hcolumns : 0 < columns) (hi : i < rows.length) :
    changedAt rows i < columns := by
  cases i with
  | zero => exact hcolumns
  | succ i =>
      rw [← h.length_getD (i := i) (by omega)]
      exact firstChanged_lt (h.lt hi) (by rw [h.length_getD (by omega), h.length_getD hi])

/-- The order of two rows' prefixes is that of their groups. -/
theorem prefix_cases (h : Sorted columns rows) (c : Nat) (hij : i ≤ j) (hj : j < rows.length) :
    (start (changedAt rows) c i = start (changedAt rows) c j ∧
      prefixOf rows c i = prefixOf rows c j) ∨
    (start (changedAt rows) c i < start (changedAt rows) c j ∧
      prefixOf rows c i < prefixOf rows c j) := by
  induction j, hij using Nat.le_induction with
  | base => exact .inl ⟨rfl, rfl⟩
  | succ j hij ih =>
      by_cases hc : changedAt rows (j + 1) ≤ c
      · have hstep : prefixOf rows c j < prefixOf rows c (j + 1) :=
          take_lt (h.lt hj) (by rw [h.length_getD (by omega), h.length_getD hj]) hc
        have hi := start_le (changedAt rows) c i
        refine .inr ⟨by rw [start_of_changed hc]; omega, ?_⟩
        rcases ih (by omega) with ⟨-, heq⟩ | ⟨-, hlt⟩
        · rwa [heq]
        · exact hlt.trans hstep
      · have hstep : prefixOf rows c j = prefixOf rows c (j + 1) := take_eq (Nat.lt_of_not_le hc)
        rw [start_of_unchanged (by omega), ← hstep]
        exact ih (by omega)

/-- In sorted rows the prefixes are equal exactly in one group. -/
theorem prefix_eq_iff (h : Sorted columns rows) (hi : i < rows.length) (hj : j < rows.length) :
    prefixOf rows c i = prefixOf rows c j ↔
      start (changedAt rows) c i = start (changedAt rows) c j := by
  rcases Nat.le_total i j with hij | hij
  · rcases h.prefix_cases c hij hj with ⟨hs, hp⟩ | ⟨hs, hp⟩
    · simp [hs, hp]
    · simp [hs.ne, hp.ne]
  · rcases h.prefix_cases c hij hi with ⟨hs, hp⟩ | ⟨hs, hp⟩
    · simp [hs, hp]
    · simp [hs.ne', hp.ne']

/-- In sorted rows a prefix is less exactly in an earlier group. -/
theorem prefix_lt_iff (h : Sorted columns rows) (hi : i < rows.length) (hj : j < rows.length) :
    prefixOf rows c i < prefixOf rows c j ↔
      start (changedAt rows) c i < start (changedAt rows) c j := by
  rcases Nat.le_total i j with hij | hij
  · rcases h.prefix_cases c hij hj with ⟨hs, hp⟩ | ⟨hs, hp⟩
    · simp [hs, hp]
    · simp [hs, hp]
  · rcases h.prefix_cases c hij hi with ⟨hs, hp⟩ | ⟨hs, hp⟩
    · simp [hs, hp]
    · exact iff_of_false (not_lt_of_ge hp.le) (not_lt_of_ge hs.le)

end Sorted

variable (rows : List (List α))

/-- The rows with the prefix of row `i`. -/
def equalRows (c i : Nat) : Finset Nat :=
  (Finset.range rows.length).filter fun j => prefixOf rows c j = prefixOf rows c i

/-- The rows with a smaller prefix than row `i`. -/
def lessRows (c i : Nat) : Finset Nat :=
  (Finset.range rows.length).filter fun j => prefixOf rows c j < prefixOf rows c i

/-- The prefixes smaller than that of row `i`. -/
def lessPrefixes (c i : Nat) : Finset (List α) := (lessRows rows c i).image (prefixOf rows c)

/-- The prefixes of all rows. -/
def prefixes (c : Nat) : Finset (List α) := (Finset.range rows.length).image (prefixOf rows c)

variable {rows} {columns c i : Nat}

/-- The rows with the prefix of a row are its group. -/
theorem equalRows_eq (h : Sorted columns rows) (hi : i < rows.length) :
    equalRows rows c i = group (changedAt rows) rows.length c i :=
  Finset.filter_congr fun _ hj => h.prefix_eq_iff (Finset.mem_range.mp hj) hi

/-- The rows with a lesser prefix are those before its group. -/
theorem lessRows_eq (h : Sorted columns rows) (hi : i < rows.length) :
    lessRows rows c i = Finset.range (start (changedAt rows) c i) := by
  have hle := start_le (changedAt rows) c i
  ext j
  rw [lessRows, Finset.mem_filter, Finset.mem_range, Finset.mem_range]
  constructor
  · rintro ⟨hj, hlt⟩
    have hstart := (h.prefix_lt_iff hj hi).mp hlt
    by_contra hge
    have := start_mono (changedAt rows) c (Nat.le_of_not_lt hge)
    rw [start_start] at this
    omega
  · intro hj
    have := start_le (changedAt rows) c j
    exact ⟨by omega, (h.prefix_lt_iff (by omega) hi).mpr (by omega)⟩

/-- Distinct prefixes are counted by the starts of their groups. -/
theorem card_image_prefixOf (h : Sorted columns rows) {rowSet : Finset Nat}
    (hrows : ∀ j ∈ rowSet, j < rows.length) :
    (rowSet.image (prefixOf rows c)).card = (rowSet.image (start (changedAt rows) c)).card := by
  -- a group's start determines its prefix
  have hmap : rowSet.image (prefixOf rows c) =
      (rowSet.image (start (changedAt rows) c)).image (prefixOf rows c) := by
    rw [Finset.image_image]
    refine Finset.image_congr fun j hj => ?_
    have hlt := hrows j hj
    have hle := start_le (changedAt rows) c j
    exact (h.prefix_eq_iff hlt (by omega)).mpr (start_start c j).symm
  rw [hmap, Finset.card_image_of_injOn]
  intro s hs t ht heq
  obtain ⟨i, hi, rfl⟩ := Finset.mem_image.mp (Finset.mem_coe.mp hs)
  obtain ⟨j, hj, rfl⟩ := Finset.mem_image.mp (Finset.mem_coe.mp ht)
  have hi' := start_le (changedAt rows) c i
  have hj' := start_le (changedAt rows) c j
  have := (h.prefix_eq_iff (c := c) (by have := hrows i hi; omega)
    (by have := hrows j hj; omega)).mp heq
  rwa [start_start, start_start] at this

/-- The number of lesser prefixes is the number of groups before. -/
theorem card_lessPrefixes (h : Sorted columns rows) (hi : i < rows.length) :
    (lessPrefixes rows c i).card = rank (changedAt rows) c i := by
  have hle := start_le (changedAt rows) c i
  rw [lessPrefixes, lessRows_eq h hi, rank_eq, card_image_prefixOf h]
  intro j hj
  have := Finset.mem_range.mp hj
  omega

/-- The last row's group is behind all others. -/
theorem card_prefixes (h : Sorted columns rows) (hi : i + 1 = rows.length) :
    (prefixes rows c).card = rank (changedAt rows) c i + 1 := by
  rw [prefixes, card_image_prefixOf h fun j hj => Finset.mem_range.mp hj, ← hi,
    card_image_start_succ, rank_eq]

end PrefixGroups
