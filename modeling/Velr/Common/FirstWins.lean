import Mathlib.Algebra.Order.Ring.Nat
import Mathlib.Data.List.Nodup
import Mathlib.Tactic.Common

/-!
# Maps in which the first entry of a key wins

A list of entries without two of one key (`Map`), to which a key is added only if it is new
(`insert`), as `INSERT OR IGNORE` adds to a table with that primary key. A run of insertions answers
`new` where the key is new to it, and finds the value a key first came with (`run_spec`).
-/

namespace FirstWins

structure Map (κ ν : Type) where
  entries : List (κ × ν)
  unique : (entries.map Prod.fst).Nodup

variable {κ ν : Type}

/-- The map without entries. -/
def Map.empty : Map κ ν := ⟨[], List.nodup_nil⟩

/-- The value a key first comes with. -/
def firstOf [DecidableEq κ] (entries : List (κ × ν)) (key : κ) : Option ν :=
  (entries.find? (·.1 = key)).map Prod.snd

section
variable [DecidableEq κ] {entries : List (κ × ν)} {key : κ} {value : ν}

@[simp] theorem firstOf_nil (key : κ) : firstOf ([] : List (κ × ν)) key = none := rfl

theorem firstOf_cons (entry : κ × ν) (entries : List (κ × ν)) (key : κ) :
    firstOf (entry :: entries) key =
      if entry.1 = key then some entry.2 else firstOf entries key := by
  rw [firstOf, List.find?_cons]
  by_cases h : entry.1 = key
  · rw [if_pos h, decide_eq_true h]
    rfl
  · rw [if_neg h, decide_eq_false h]
    rfl

/-- The first entry of a key is in the first list that has one. -/
theorem firstOf_append (entries entries' : List (κ × ν)) (key : κ) :
    firstOf (entries ++ entries') key = (firstOf entries key).or (firstOf entries' key) := by
  induction entries with
  | nil => rfl
  | cons entry entries ih =>
      rw [List.cons_append, firstOf_cons, firstOf_cons]
      split
      · rfl
      · exact ih

theorem firstOf_eq_none : firstOf entries key = none ↔ key ∉ entries.map Prod.fst := by
  rw [firstOf, Option.map_eq_none_iff, List.find?_eq_none, List.mem_map]
  constructor
  · rintro h ⟨entry, hentry, rfl⟩
    exact h entry hentry (decide_eq_true rfl)
  · intro h entry hentry hkey
    exact h ⟨entry, hentry, of_decide_eq_true hkey⟩

theorem isSome_firstOf : (firstOf entries key).isSome = decide (key ∈ entries.map Prod.fst) := by
  by_cases h : key ∈ entries.map Prod.fst
  · rw [decide_eq_true h, Option.isSome_iff_ne_none]
    exact fun hnone => firstOf_eq_none.mp hnone h
  · rw [decide_eq_false h, firstOf_eq_none.mpr h]
    rfl

/-- The first entry of a key is an entry. -/
theorem mem_of_firstOf (h : firstOf entries key = some value) : (key, value) ∈ entries := by
  obtain ⟨entry, hentry, rfl⟩ := Option.map_eq_some_iff.mp h
  have hkey : entry.1 = key := by simpa using List.find?_some hentry
  rw [← hkey]
  exact List.mem_of_find?_eq_some hentry

/-- Without two entries of one key, the value a key comes with is the one of any entry of it. -/
theorem firstOf_of_mem (hunique : (entries.map Prod.fst).Nodup) (h : (key, value) ∈ entries) :
    firstOf entries key = some value := by
  cases hfirst : firstOf entries key with
  | none => exact absurd (List.mem_map.mpr ⟨_, h, rfl⟩) (firstOf_eq_none.mp hfirst)
  | some value' =>
      have heq := List.inj_on_of_nodup_map hunique (mem_of_firstOf hfirst) h rfl
      rw [Prod.mk.injEq] at heq
      rw [heq.2]

end

/-! ## Insertion -/

variable [DecidableEq κ]

/-- The value of a key. -/
def Map.find (m : Map κ ν) (key : κ) : Option ν := firstOf m.entries key

/-- An insertion that leaves what is there; whether the key is new. -/
def Map.insert (m : Map κ ν) (key : κ) (value : ν) : Bool × Map κ ν :=
  if h : key ∈ m.entries.map Prod.fst then (false, m)
  else (true, ⟨m.entries ++ [(key, value)], by
    rw [List.map_append, List.map_singleton, ← List.concat_eq_append, List.nodup_concat]
    exact ⟨h, m.unique⟩⟩)

/-- A run of insertions, with the answer to each. -/
def Map.run (m : Map κ ν) : List (κ × ν) → List Bool × Map κ ν
  | [] => ([], m)
  | (key, value) :: calls =>
      let (new, m) := m.insert key value
      let (answers, m) := m.run calls
      (new :: answers, m)

variable {m : Map κ ν} {key key' : κ} {value : ν}

@[simp] theorem find_empty (key : κ) : (Map.empty : Map κ ν).find key = none := rfl

/-- Inserting a key that is there changes nothing. -/
theorem insert_of_mem (h : key ∈ m.entries.map Prod.fst) (value : ν) :
    m.insert key value = (false, m) := dif_pos h

/-- A key is new if nothing is found under it. -/
theorem insert_fst (m : Map κ ν) (key : κ) (value : ν) :
    (m.insert key value).1 = (m.find key).isNone := by
  rw [← Option.not_isSome, Map.find, isSome_firstOf, Map.insert]
  split
  · next h => rw [decide_eq_true h]; rfl
  · next h => rw [decide_eq_false h]; rfl

theorem insert_fst_eq_true (m : Map κ ν) (key : κ) (value : ν) :
    (m.insert key value).1 = true ↔ key ∉ m.entries.map Prod.fst := by
  rw [Map.insert]
  split
  · next h => exact ⟨fun hfalse => absurd hfalse Bool.false_ne_true, fun hnew => absurd h hnew⟩
  · next h => exact ⟨fun _ => h, fun _ => rfl⟩

/-- An entry is appended if its key is new. -/
theorem entries_insert (m : Map κ ν) (key : κ) (value : ν) :
    (m.insert key value).2.entries =
      if key ∈ m.entries.map Prod.fst then m.entries else m.entries ++ [(key, value)] := by
  rw [Map.insert]
  split <;> rfl

/-- Behind an insertion the earlier entry of a key still wins. -/
theorem find_insert (m : Map κ ν) (key key' : κ) (value : ν) :
    (m.insert key value).2.find key' = (m.find key').or (firstOf [(key, value)] key') := by
  rw [Map.find, entries_insert]
  split
  · next h =>
      rw [← Map.find]
      cases hfind : m.find key' with
      | some _ => rfl
      | none =>
          have hne : key ≠ key' := by
            rintro rfl
            exact firstOf_eq_none.mp hfind h
          rw [firstOf_cons, if_neg hne]
          rfl
  · rw [firstOf_append, Map.find]

/-- Behind any insertions the first of them wins, unless the key was there. -/
theorem find_run (m : Map κ ν) (calls : List (κ × ν)) (key : κ) :
    (m.run calls).2.find key = (m.find key).or (firstOf calls key) := by
  induction calls generalizing m with
  | nil => rw [firstOf_nil, Option.or_none]; rfl
  | cons call calls ih =>
      refine (ih (m.insert call.1 call.2).2).trans ?_
      rw [find_insert, Option.or_assoc, ← firstOf_append]
      rfl

theorem length_run (m : Map κ ν) (calls : List (κ × ν)) :
    (m.run calls).1.length = calls.length := by
  induction calls generalizing m with
  | nil => rfl
  | cons call calls ih => exact congrArg (· + 1) (ih (m.insert call.1 call.2).2)

/-- Every answer of a run says whether the key is new to it, and afterwards the map finds what the
key first came with. -/
theorem run_spec (calls : List (κ × ν)) :
    (∀ i (h : i < calls.length), ∃ new, (Map.empty.run calls).1[i]? = some new ∧
        (new = true ↔ (calls.get ⟨i, h⟩).1 ∉ (calls.take i).map Prod.fst)) ∧
      ∀ key, (Map.empty.run calls).2.find key = firstOf calls key := by
  have hanswers : ∀ (calls : List (κ × ν)) (m : Map κ ν) i (h : i < calls.length),
      (m.run calls).1[i]? = some (decide ((calls.get ⟨i, h⟩).1 ∉
        m.entries.map Prod.fst ++ (calls.take i).map Prod.fst)) := by
    intro calls
    induction calls with
    | nil => exact fun m i h => absurd h (Nat.not_lt_zero i)
    | cons call calls ih =>
        intro m i h
        cases i with
        | zero =>
            have hnew := insert_fst m call.1 call.2
            rw [Map.find, ← Option.not_isSome, isSome_firstOf, ← decide_not] at hnew
            rw [List.take_zero, List.map_nil, List.append_nil]
            exact congrArg some hnew
        | succ i =>
            refine (ih (m.insert call.1 call.2).2 i (Nat.lt_of_succ_lt_succ h)).trans ?_
            rw [entries_insert, List.take_succ_cons, List.map_cons]
            refine congrArg some (decide_eq_decide.mpr (not_congr ?_))
            split
            · next hmem =>
                simp only [List.mem_append, List.mem_cons]
                constructor
                · rintro (hold | hnew)
                  · exact .inl hold
                  · exact .inr (.inr hnew)
                · rintro (hold | heq | hnew)
                  · exact .inl hold
                  · exact .inl (by rw [List.get_cons_succ] at heq; rw [heq]; exact hmem)
                  · exact .inr hnew
            · rw [List.map_append, List.map_singleton, List.append_assoc]
              rfl
  refine ⟨fun i h => ⟨_, hanswers calls Map.empty i h, ?_⟩, fun key => ?_⟩
  · rw [decide_eq_true_iff, Map.empty, List.map_nil, List.nil_append]
  · rw [find_run, find_empty, Option.none_or]

/-! ## Replacement -/

theorem map_fst_replace (entries : List (κ × ν)) (key : κ) (value : ν) :
    (entries.map fun entry => if entry.1 = key then (key, value) else entry).map Prod.fst =
      entries.map Prod.fst := by
  rw [List.map_map]
  refine List.map_congr_left fun entry _ => ?_
  rw [Function.comp_apply]
  split
  · next h => exact h.symm
  · rfl

/-- The value of a key that is there replaced. -/
def Map.set (m : Map κ ν) (key : κ) (value : ν) : Map κ ν :=
  ⟨m.entries.map fun entry => if entry.1 = key then (key, value) else entry, by
    rw [map_fst_replace]
    exact m.unique⟩

/-- Setting a key that is there changes its value and no other. -/
theorem find_set (h : (m.find key).isSome) (value : ν) (key' : κ) :
    (m.set key value).find key' = if key' = key then some value else m.find key' := by
  have hentries : ∀ entries : List (κ × ν),
      firstOf (entries.map fun entry => if entry.1 = key then (key, value) else entry) key' =
        if key' = key then (firstOf entries key).map fun _ => value else firstOf entries key' := by
    intro entries
    induction entries with
    | nil => split <;> rfl
    | cons entry entries ih =>
        rw [List.map_cons, firstOf_cons, ih]
        by_cases hkey' : key' = key
        · subst hkey'
          rw [if_pos rfl, if_pos rfl, firstOf_cons]
          split
          · rw [if_pos rfl]
            rfl
          · rfl
        · rw [if_neg hkey', if_neg hkey', firstOf_cons]
          by_cases hentry : entry.1 = key
          · have hne : entry.1 ≠ key' := fun heq => hkey' (heq.symm.trans hentry)
            rw [if_pos hentry, if_neg fun heq => hkey' heq.symm, if_neg hne]
          · rw [if_neg hentry]
  rw [Map.find, Map.set, hentries]
  by_cases hkey' : key' = key
  · obtain ⟨found, hfound⟩ := Option.isSome_iff_exists.mp h
    rw [if_pos hkey', if_pos hkey', show firstOf m.entries key = some found from hfound]
    rfl
  · rw [if_neg hkey', if_neg hkey']
    rfl

/-! ## Counts -/

/-- A count added to the one of a key, or the first of it. -/
def Map.upsert (m : Map κ Nat) (key : κ) (count : Nat) : Map κ Nat :=
  match m.find key with
  | some old => m.set key (old + count)
  | none => (m.insert key count).2

/-- Upserting adds to the count of one key. -/
theorem find_upsert (m : Map κ Nat) (key : κ) (count : Nat) (key' : κ) :
    (m.upsert key count).find key' =
      if key' = key then some ((m.find key).getD 0 + count) else m.find key' := by
  rw [Map.upsert]
  cases hfind : m.find key with
  | some old =>
      dsimp only
      rw [find_set (by rw [hfind]; rfl), Option.getD_some]
  | none =>
      dsimp only
      rw [find_insert, firstOf_cons, firstOf_nil]
      by_cases hkey : key' = key
      · rw [if_pos hkey, if_pos hkey.symm, hkey, hfind, Option.none_or, Option.getD_none,
          Nat.zero_add]
      · rw [if_neg hkey, if_neg fun heq => hkey heq.symm, Option.or_none]

end FirstWins
