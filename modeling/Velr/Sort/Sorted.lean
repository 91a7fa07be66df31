import Velr.Sort.Runs
import Velr.Sort.Tuples

/-!
# The tuples of the last merge

The keys that the last merge visits are those of the tuples of the spool, in the order of the sorted
fields (`lastMerge`), and unpacking them gives the tuples back.
-/

namespace Velr.Sort

open IndexStats (Failure)

section
open LawfulRadixKey (value)
variable {K : Type} [SortKey K] {codec : Codec} {spool : IntegerSpool}

/-- A packed key is unpacked to its tuple. -/
theorem KeyExact.unpack {tuples : List Tuple} (h : KeyExact K codec tuples) {tuple : Tuple}
    (hmem : tuple ∈ tuples) {key : K} (hkey : SortKey.pack codec tuple = .ok key) :
    SortKey.unpack codec key = .ok (restrict codec.fields tuple) := by
  obtain ⟨key', hkey', hunpack⟩ := h.round tuple hmem
  cases hkey.symm.trans hkey'
  exact hunpack

/-- The keys of the spool. -/
theorem KeyExact.packs (h : KeyExact K codec spool.tuples) :
    ∃ keys : List K, Packs codec spool.tuples keys :=
  Results.exists_forall₂ fun tuple hmem => (h.round tuple hmem).imp fun _ hkey => hkey.1

variable [LawfulRadixKey K]

/-- Keys are ordered as the numbers of the sorted fields. -/
theorem KeyExact.value_le_iff {tuples : List Tuple} (h : KeyExact K codec tuples) {a b : Tuple}
    (ha : a ∈ tuples) (hb : b ∈ tuples) {ka kb : K} (hka : SortKey.pack codec a = .ok ka)
    (hkb : SortKey.pack codec b = .ok kb) :
    value ka ≤ value kb ↔ intsOf codec.fields a ≤ intsOf codec.fields b := by
  have hmonotone := h.monotone b hb a ha kb ka hkb hka
  rw [LawfulRadixKey.compare_value, Nat.compare_eq_lt] at hmonotone
  rw [← Nat.not_lt, hmonotone, ← not_lt, intsOf_lt_iff]
  rfl

/-- The runs of a spool merge to the keys of its tuples in the order of the sorted fields. -/
theorem lastMerge (h : KeyExact K codec spool.tuples) {runs : List (List K)} {keys : List K}
    (hkeys : Packs codec spool.tuples keys) (hsorted : ∀ run ∈ runs, SortedKeys run)
    (hperm : runs.flatten.Perm keys) :
    ∃ tuples : List Tuple, tuples.Perm spool.tuples ∧
      List.Forall₂ (fun key tuple => tuple ∈ spool.tuples ∧ SortKey.pack codec tuple = .ok key)
        ((merged runs).map Prod.fst) tuples ∧
      tuples.Pairwise fun a b => intsOf codec.fields a ≤ intsOf codec.fields b := by
  have hmerged := (merged_perm hsorted).trans hperm
  obtain ⟨tuples, hpacks, htuples⟩ := List.perm_comp_forall₂ hmerged hkeys.flip
  have hmembers : List.Forall₂ (fun key tuple => tuple ∈ spool.tuples ∧
      SortKey.pack codec tuple = .ok key) ((merged runs).map Prod.fst) tuples := by
    refine List.forall₂_iff_get.mpr ⟨hpacks.length_eq, fun i hi hi' => ⟨?_, hpacks.get hi hi'⟩⟩
    exact htuples.mem_iff.mp (List.get_mem _ _)
  refine ⟨tuples, htuples, hmembers, ?_⟩
  refine Results.forall₂_pairwise hmembers (merged_sorted hsorted)
    fun ka kb a b ha hb hle => (h.value_le_iff ha.1 hb.1 ha.2 hb.2).mp hle

end

/-- What holds for every lawful key type with a property holds for the one that is chosen. -/
theorem withKeyType_of {α : Type} {p : α → Prop} {q : (K : Type) → [SortKey K] → Prop} {bits : Nat}
    {f : (K : Type) → [SortKey K] → α} (hq : withKeyType bits q)
    (h : ∀ (K : Type) [SortKey K] [LawfulRadixKey K], q K → p (f K)) : p (withKeyType bits f) := by
  unfold withKeyType at hq ⊢
  by_cases h64 : bits ≤ 64
  · rw [if_pos h64] at hq ⊢
    exact h UInt64 hq
  · rw [if_neg h64] at hq ⊢
    by_cases h96 : bits ≤ 96
    · rw [if_pos h96] at hq ⊢
      exact h Packed96 hq
    · rw [if_neg h96] at hq ⊢
      by_cases h128 : bits ≤ 128
      · rw [if_pos h128] at hq ⊢
        exact h Word128 hq
      · rw [if_neg h128] at hq ⊢
        exact h WideKey hq

end Velr.Sort
