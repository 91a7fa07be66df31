import Velr.Sort.Runs

/-!
# Counting ahead

`radix_sort` of `index_builder.rs` for keys with `PRECOMPUTE_HISTOGRAMS`: the digits of all passes
are counted in one traversal of the unsorted keys. The passes do not change how many keys there are
of a digit, so the counts are right for each of them, and both ways to count give the same
arrangement (`radix_sort_stable`).
-/

namespace Velr.Sort

open IndexStats (Failure)

section
variable {K : Type} [RadixKey K]

/-- `radix_sort`: the digits of one key are counted for every pass. -/
def countKey (key : K) (histograms : List (List Nat)) : Except Failure (List (List Nat)) :=
  histograms.zipIdx.mapM fun (histogram, pass) => do
    let bin ← RadixKey.digit key pass
    bump histogram bin

/-- `radix_sort`: the histograms of all passes. -/
def countAhead (keys : List K) (passes : Nat) : Except Failure (List (List Nat)) :=
  keys.foldlM (fun histograms key => countKey key histograms)
    (List.replicate passes (List.replicate 256 0))

/-- `radix_sort`: the passes, with their histograms. -/
def passesAhead (histograms : List (List Nat)) (keys scratch : List K) :
    Except Failure (List K × List K) :=
  histograms.zipIdx.foldlM (fun (keys, scratch) (counts, pass) =>
    scatterPass (RadixKey.digit · pass) counts keys scratch) (keys, scratch)

/-- `radix_sort`, of keys with `PRECOMPUTE_HISTOGRAMS`; there are 80 histograms. -/
def radixSortAhead (keys scratch : List K) (passes : Nat) : Except Failure (List K × List K) :=
  if 80 < passes then .error .panic
  else do
    let histograms ← countAhead keys passes
    passesAhead histograms keys (resize scratch keys.length)

end

section
open Radix
open LawfulRadixKey (value)
variable {K : Type} [RadixKey K] [LawfulRadixKey K]

/-- The digit of a pass. -/
def digitOf (pass : Nat) (key : K) : Nat := value key / 256 ^ pass % 256

/-- A digit below the number of bytes exists, and is a byte. -/
theorem digit_digitOf (key : K) {pass : Nat} (h : pass < RadixKey.bytes K) :
    RadixKey.digit key pass = .ok (digitOf pass key) ∧ digitOf pass key < 256 :=
  ⟨LawfulRadixKey.digit_value key pass h, Nat.mod_lt _ (by omega)⟩

theorem zipIdx_map_range {α : Type} (f : Nat → α) (n : Nat) :
    ((List.range n).map f).zipIdx = (List.range n).map fun i => (f i, i) := by
  refine List.ext_getElem (by simp) fun i hi hi' => ?_
  simp

/-- Counting a key adds one to its digit in every pass. -/
theorem countKey_eq (key : K) {passes : Nat} (h : passes ≤ RadixKey.bytes K) (f : Nat → Nat → Nat) :
    countKey key ((List.range passes).map fun pass => (List.range 256).map (f pass))
      = .ok ((List.range passes).map fun pass => (List.range 256).map
          (Function.update (f pass) (digitOf pass key) (f pass (digitOf pass key) + 1))) := by
  rw [countKey, zipIdx_map_range]
  refine Results.mapM_eq_ok_iff.mpr (List.forall₂_map_left_iff.mpr (List.forall₂_map_right_iff.mpr
    (List.forall₂_same.mpr fun pass hpass => ?_)))
  obtain ⟨hdigit, hlt⟩ := digit_digitOf key (Nat.lt_of_lt_of_le (List.mem_range.mp hpass) h)
  exact Results.bind_eq_ok_iff.mpr ⟨_, hdigit, bump_map hlt⟩

/-- The histograms count the digits of the keys. -/
theorem countAhead_eq (keys : List K) {passes : Nat} (h : passes ≤ RadixKey.bytes K) :
    countAhead keys passes = .ok ((List.range passes).map fun pass =>
      (List.range 256).map fun bin => (bucket (digitOf pass) keys bin).length) := by
  have hfold : ∀ (keys : List K) (f : Nat → Nat → Nat),
      keys.foldlM (fun histograms key => countKey key histograms)
          ((List.range passes).map fun pass => (List.range 256).map (f pass))
        = .ok ((List.range passes).map fun pass => (List.range 256).map fun bin =>
            f pass bin + (bucket (digitOf pass) keys bin).length) := by
    intro keys
    induction keys with
    | nil =>
        intro f
        rfl
    | cons key keys ih =>
        intro f
        rw [List.foldlM_cons, countKey_eq key h]
        refine (ih _).trans (congrArg Except.ok ?_)
        refine List.map_congr_left fun pass _ => List.map_congr_left fun bin _ => ?_
        rw [bucket_cons]
        by_cases hbin : bin = digitOf pass key
        · subst hbin
          simp only [Function.update_self, List.length_cons]
          omega
        · simp only [Function.update_of_ne hbin]
  have hzeros : List.replicate passes (List.replicate 256 0)
      = (List.range passes).map fun _ => (List.range 256).map fun _ => 0 := by
    simp only [List.map_const', List.length_range]
  rw [countAhead, hzeros, hfold keys fun _ _ => 0]
  simp only [Nat.zero_add]

/-- After some passes the keys are sorted by as many digits. -/
theorem passesAhead_ok {keys scratch : List K} (hscratch : scratch.length = keys.length) :
    ∀ {passes : Nat}, passes ≤ RadixKey.bytes K →
    ∃ sorted left, passesAhead ((List.range passes).map fun pass =>
        (List.range 256).map fun bin => (bucket (digitOf pass) keys bin).length) keys scratch
          = .ok (sorted, left) ∧
      left.length = sorted.length ∧ Sorts 256 passes value keys sorted
  | 0, _ => ⟨keys, scratch, rfl, hscratch, .zero 256 value keys⟩
  | passes + 1, h => by
      obtain ⟨sorted, left, hpasses, hleft, hsorts⟩ :=
        passesAhead_ok hscratch (Nat.le_of_succ_le h)
      have hdigit : ∀ key ∈ sorted, RadixKey.digit key passes = .ok (digitOf passes key) ∧
          digitOf passes key < 256 := fun key _ => digit_digitOf key h
      -- the counts of the keys are those of what the passes made of them
      have hcounts : (List.range 256).map (fun bin => (bucket (digitOf passes) keys bin).length)
          = (List.range 256).map fun bin => (bucket (digitOf passes) sorted bin).length :=
        List.map_congr_left fun bin _ => (hsorts.perm.filter _).length_eq.symm
      obtain ⟨left', hpass, hleft'⟩ := scatterPass_eq hdigit hleft
      have hdistributed := distribute_perm fun key hkey => (hdigit key hkey).2
      refine ⟨_, left', ?_, hleft'.trans hdistributed.length_eq.symm, hsorts.distribute (by omega)⟩
      rw [passesAhead, zipIdx_map_range] at hpasses ⊢
      rw [@List.range_succ passes, List.map_append, List.foldlM_append, hpasses]
      show (scatterPass _ _ sorted left >>= _) = _
      rw [hcounts, hpass]
      rfl

/-- Whatever the scratch array holds, the keys are sorted by the digits of the passes. -/
theorem radixSortAhead_ok (keys scratch : List K) {passes : Nat}
    (hpasses : passes ≤ RadixKey.bytes K) (hfew : passes ≤ 80) :
    ∃ sorted left, radixSortAhead keys scratch passes = .ok (sorted, left) ∧
      left.length = sorted.length ∧ Sorts 256 passes value keys sorted := by
  obtain ⟨sorted, left, hsort, hleft, hsorts⟩ :=
    passesAhead_ok (length_resize scratch keys.length) hpasses
  refine ⟨sorted, left, ?_, hleft, hsorts⟩
  rw [radixSortAhead, if_neg (by omega), countAhead_eq keys hpasses]
  exact hsort

/-- Both branches sort any keys by the digits of the passes, with any scratch array: the keys come
out in the order of the number of these digits, those of one number as they were. No place of a key
is outside the scratch array, and where the digits behind the passes are zero all keys are in
order. -/
theorem radix_sort_stable (keys scratch scratch' : List K) {passes : Nat}
    (hpasses : passes ≤ RadixKey.bytes K) (hfew : passes ≤ 80) :
    ∃ sorted left left', radixSort keys scratch passes = .ok (sorted, left) ∧
      radixSortAhead keys scratch' passes = .ok (sorted, left') ∧
      Sorts 256 passes value keys sorted ∧
      ((∀ key ∈ keys, ∀ pass, passes ≤ pass → pass < RadixKey.bytes K →
        RadixKey.digit key pass = .ok 0) → SortedKeys sorted) := by
  obtain ⟨sorted, left, hsort, -, hsorts⟩ := radixSort_ok keys scratch hpasses
  obtain ⟨ahead, left', hahead, -, hsorts'⟩ := radixSortAhead_ok keys scratch' hpasses hfew
  obtain rfl : sorted = ahead := hsorts.unique hsorts'
  refine ⟨sorted, left, left', hsort, hahead, hsorts,
    fun hzero => sortedKeys_of_sorts hsorts fun key hkey => ?_⟩
  refine lt_pow_of_digits (by omega) (LawfulRadixKey.value_lt key) hpasses fun pass hlow hhigh => ?_
  have hdigit := LawfulRadixKey.digit_value key pass hhigh
  rw [hzero key hkey pass hlow hhigh] at hdigit
  exact (Except.ok.inj hdigit).symm

/-- Three keys of which two agree in their low byte, and a scratch array that is too long. -/
theorem radix_sort_stable_small :
    ∃ sorted left left', radixSort [(0x0203 : UInt64), 0x0101, 0x0103] [7, 7, 7, 7] 1
        = .ok (sorted, left) ∧
      radixSortAhead [(0x0203 : UInt64), 0x0101, 0x0103] [] 1 = .ok (sorted, left') ∧
      Sorts 256 1 (value : UInt64 → Nat) [0x0203, 0x0101, 0x0103] sorted ∧
      ((∀ key ∈ [(0x0203 : UInt64), 0x0101, 0x0103], ∀ pass, 1 ≤ pass →
        pass < RadixKey.bytes UInt64 →
        RadixKey.digit key pass = .ok 0) → SortedKeys sorted) :=
  radix_sort_stable [(0x0203 : UInt64), 0x0101, 0x0103] [7, 7, 7, 7] [] (by decide) (by decide)

end

end Velr.Sort
