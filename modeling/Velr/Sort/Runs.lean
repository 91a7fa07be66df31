import Velr.Common.Merge
import Velr.Common.Radix
import Velr.Common.Slices
import Velr.Sort.Key

/-!
# Sorted runs

`radix_sort`, `IntegerSpool::make_runs`, `merge_visit`, `merge` and the merge generations of
`index_builder.rs`. The file of a run is the list of its keys. Whatever the number of workers, of
runs and of generations, the runs that are left hold the keys of the spool, each of them in order
(`sortedRuns_ok`).
-/

namespace Velr.Sort

open IndexStats (Failure)
open Merge (Cursors)
open Slices (chunks slice stride ceil)

/-! ## Radix sort -/

section
variable {K : Type}

/-- `offsets[bin] += 1` -/
def bump (offsets : List Nat) (bin : Nat) : Except Failure (List Nat) :=
  match offsets[bin]? with
  | some count => .ok (offsets.set bin (count + 1))
  | none => .error .panic

/-- `radix_sort`: how many keys there are of each digit. -/
def countDigits (digit : K → Except Failure Nat) (keys : List K) : Except Failure (List Nat) :=
  keys.foldlM (fun offsets key => do
    let bin ← digit key
    bump offsets bin) (List.replicate 256 0)

/-- `radix_sort`: where the keys of each digit start. -/
def startsOf : List Nat → Nat → List Nat
  | [], _ => []
  | length :: counts, offset => offset :: startsOf counts (offset + length)

/-- `radix_sort`: the keys are put to their places. -/
def scatter (digit : K → Except Failure Nat) :
    List K → List Nat → List K → Except Failure (List K)
  | [], _, scratch => .ok scratch
  | key :: keys, offsets, scratch => do
      let bin ← digit key
      match offsets[bin]? with
      | some offset =>
          if offset < scratch.length then do
            let offsets ← bump offsets bin
            scatter digit keys offsets (scratch.set offset key)
          else .error .panic
      | none => .error .panic

/-- `radix_sort`: a pass whose digits are counted. Without effect it is left out. -/
def scatterPass (digit : K → Except Failure Nat) (counts : List Nat) (keys scratch : List K) :
    Except Failure (List K × List K) :=
  if keys.length ∈ counts then .ok (keys, scratch)
  else do
    let scattered ← scatter digit keys (startsOf counts 0) scratch
    .ok (scattered, keys)

/-- `scratch.resize` -/
def resize [Inhabited K] (scratch : List K) (length : Nat) : List K :=
  scratch.take length ++ List.replicate (length - scratch.length) default

variable [RadixKey K]

/-- `radix_sort`: the passes, each of which counts its digits. -/
def radixPasses (keys scratch : List K) (passes : Nat) : Except Failure (List K × List K) :=
  (List.range passes).foldlM (fun (keys, scratch) pass => do
    let counts ← countDigits (RadixKey.digit · pass) keys
    scatterPass (RadixKey.digit · pass) counts keys scratch) (keys, scratch)

/-- `radix_sort`, of keys without `PRECOMPUTE_HISTOGRAMS`: the sorted keys and the scratch array. -/
def radixSort (keys scratch : List K) (passes : Nat) : Except Failure (List K × List K) :=
  radixPasses keys (resize scratch keys.length) passes

end

/-! ## Merging -/

section
variable {K : Type} [RadixKey K] {σ : Type} {n : Nat}

/-- The order of the heap: by the key, then by the run. -/
def EntryLe (a b : K × Fin n) : Prop :=
  ((compare a.1 b.1).then (compare a.2.val b.2.val)).isLE = true

instance : DecidableRel (EntryLe (K := K) (n := n)) := fun _ _ =>
  inferInstanceAs (Decidable (_ = true))

/-- `merge_visit`: the loop. -/
def mergeLoop (visit : σ → K → Nat → Except Failure σ) (cursors : Cursors K n) (rows : Nat)
    (state : σ) : Except Failure (σ × Nat) :=
  match _h : cursors.heap with
  | [] => .ok (state, rows)
  | (key, run) :: _ => do
      let state ← visit state key rows
      mergeLoop visit (cursors.advance EntryLe run) (rows + 1) state
termination_by cursors.size
decreasing_by
  exact Nat.lt_of_lt_of_eq (Nat.lt_succ_self _)
    (Cursors.size_advance EntryLe ‹cursors.heap = (key, run) :: _›)

/-- `merge_visit` -/
def mergeVisit (runs : List (List K)) (visit : σ → K → Nat → Except Failure σ) (state : σ) :
    Except Failure (σ × Nat) :=
  mergeLoop visit (Cursors.start EntryLe fun run : Fin runs.length => runs.get run) 0 state

/-- `merge`: the keys go to one run. -/
def merge (runs : List (List K)) : Except Failure (List K) := do
  let (output, _) ← mergeVisit runs (fun output key _ => .ok (output ++ [key])) []
  .ok output

/-- `MERGE_FAN_IN` -/
def mergeFanIn : Nat := 16

/-- The merge generations of `sort_keys` and `prepare_direct_keys`. -/
def mergeGenerations (runs : List (List K)) : Except Failure (List (List K)) :=
  if mergeFanIn < runs.length then
    match _h : (chunks mergeFanIn runs).mapM merge with
    | .ok next => mergeGenerations next
    | .error e => .error e
  else .ok runs
termination_by runs.length
decreasing_by
  have hnext := (Results.mapM_eq_ok_iff.mp ‹_›).length_eq
  have hlt := Slices.length_chunks_lt (show 1 < mergeFanIn by decide) (Nat.le_of_lt ‹_›)
  omega

end

/-! ## Runs -/

section
variable (K : Type) [SortKey K]

/-- `make_runs`: the body of the loop over the runs of a worker. -/
def makeRun (spool : IntegerSpool) (codec : Codec) (capacity : Nat) :
    List (List K) × List K → Nat → Except Failure (List (List K) × List K)
  | (paths, scratch), run => do
      let first := run * capacity
      let rows := min (spool.rows - first) capacity
      let keys ← ((spool.tuples.drop first).take rows).mapM (SortKey.pack codec)
      let (keys, scratch) ← radixSort keys scratch (SortKey.passes K codec)
      .ok (paths ++ [keys], scratch)

/-- `make_runs`: the runs of one worker. -/
def makeRuns (spool : IntegerSpool) (codec : Codec) (capacity worker workers : Nat) :
    Except Failure (List (List K)) := do
  let runs := ceil spool.rows capacity
  let (paths, _) ← (stride workers runs worker).foldlM (makeRun K spool codec capacity) ([], [])
  .ok paths

/-- What becomes of the panic of a thread that is joined. -/
def joined {α : Type} (message : String) : Except Failure α → Except Failure α
  | .error .panic => .error (.error message)
  | result => result

/-- `sort_keys`: the runs of all workers. -/
def workerRuns (spool : IntegerSpool) (codec : Codec) (capacity workers : Nat) :
    Except Failure (List (List K)) :=
  if workers = 1 then makeRuns K spool codec capacity 0 1
  else do
    let groups ← (List.range workers).mapM fun worker =>
      joined "integer index run worker panicked" (makeRuns K spool codec capacity worker workers)
    .ok groups.flatten

end

/-! ## What the radix sort does -/

section
open Radix
variable {K : Type} {digit : K → Except Failure Nat} {d : K → Nat}

/-- Counting a digit adds one to its bin. -/
theorem bump_map {f : Nat → Nat} {bin : Nat} (h : bin < 256) :
    bump ((List.range 256).map f) bin
      = .ok ((List.range 256).map (Function.update f bin (f bin + 1))) := by
  have hget : ((List.range 256).map f)[bin]? = some (f bin) := by
    rw [List.getElem?_map, List.getElem?_range h]
    rfl
  rw [bump, hget]
  refine congrArg Except.ok (List.ext_getElem (by simp) fun i hi hi' => ?_)
  rw [List.getElem_set, List.getElem_map, List.getElem_map, List.getElem_range,
    Function.update_apply]
  simp only [eq_comm]

/-- Counting the digits of keys. -/
theorem countDigits_eq {keys : List K} (h : ∀ key ∈ keys, digit key = .ok (d key) ∧ d key < 256) :
    countDigits digit keys = .ok ((List.range 256).map fun bin => (bucket d keys bin).length) := by
  have hfold : ∀ (keys : List K) (f : Nat → Nat),
      (∀ key ∈ keys, digit key = .ok (d key) ∧ d key < 256) →
      keys.foldlM (fun offsets key => do
          let bin ← digit key
          bump offsets bin) ((List.range 256).map f)
        = .ok ((List.range 256).map fun bin => f bin + (bucket d keys bin).length) := by
    intro keys
    induction keys with
    | nil =>
        intro f _
        rfl
    | cons key keys ih =>
        intro f h
        obtain ⟨hdigit, hlt⟩ := h key (by simp)
        rw [List.foldlM_cons]
        simp only [hdigit]
        show (bump _ (d key) >>= _) = _
        rw [bump_map hlt]
        refine (ih _ fun k hk => h k (by simp [hk])).trans ?_
        congr 1
        refine List.map_congr_left fun bin _ => ?_
        rw [bucket_cons]
        by_cases hbin : bin = d key
        · subst hbin
          simp only [Function.update_self, List.length_cons]
          omega
        · simp only [Function.update_of_ne hbin]
  have hzero : List.replicate 256 0 = (List.range 256).map fun _ => 0 := by
    rw [List.map_const', List.length_range]
  rw [countDigits, hzero, hfold keys _ h]
  simp only [Nat.zero_add]

/-- The segments begin where the lengths before them add up to. -/
theorem startsOf_eq (segments : Nat → List K) (first count : Nat) :
    startsOf ((List.range' first count).map fun bin => (segments bin).length)
        (join first segments).length
      = (List.range' first count).map fun bin => (join bin segments).length := by
  induction count generalizing first with
  | zero => rfl
  | succ count ih =>
      rw [List.range'_succ, List.map_cons, List.map_cons,
        startsOf, ← List.length_append, ← join_succ,
        ih]

/-- The loop that puts the keys to their places: behind what a digit has already, into the room its
other keys will take. -/
theorem scatter_eq {rest : List K} : ∀ {done : List K} {room : Nat → List K},
    (∀ key ∈ rest, digit key = .ok (d key) ∧ d key < 256) →
    (∀ bin < 256, (room bin).length = (bucket d rest bin).length) →
    scatter digit rest
        ((List.range 256).map fun bin =>
          (join bin (bucket d (done ++ rest))).length + (bucket d done bin).length)
        (join 256 fun bin => bucket d done bin ++ room bin)
      = .ok (distribute 256 d (done ++ rest)) := by
  induction rest with
  | nil =>
      intro done room _ hroom
      rw [scatter, List.append_nil]
      refine congrArg Except.ok (join_congr fun bin hbin => ?_)
      rw [List.eq_nil_of_length_eq_zero (hroom bin hbin), List.append_nil]
  | cons key rest ih =>
      intro done room h hroom
      obtain ⟨hdigit, hlt⟩ := h key (by simp)
      have hlengths : ∀ bin < 256, (bucket d done bin ++ room bin).length
          = (bucket d (done ++ key :: rest) bin).length := by
        intro bin hbin
        rw [List.length_append, hroom bin hbin, bucket, bucket, bucket, List.filter_append,
          List.length_append]
      have hjoin : (join (d key) (bucket d (done ++ key :: rest))).length
          = (join (d key) fun bin => bucket d done bin ++ room bin).length :=
        length_join_congr fun bin hbin => (hlengths bin (by omega)).symm
      have hplace : (bucket d done (d key)).length
          < (bucket d done (d key) ++ room (d key)).length := by
        rw [List.length_append, hroom _ hlt, bucket_cons, Function.update_self, List.length_cons]
        omega
      have hoffset : ((List.range 256).map fun bin =>
          (join bin (bucket d (done ++ key :: rest))).length + (bucket d done bin).length)[d key]?
            = some ((join (d key) fun bin => bucket d done bin ++ room bin).length
                + (bucket d done (d key)).length) := by
        rw [List.getElem?_map, List.getElem?_range hlt, ← hjoin]
        rfl
      have hinside : (join (d key) fun bin => bucket d done bin ++ room bin).length
          + (bucket d done (d key) ++ room (d key)).length
          ≤ (join 256 fun bin => bucket d done bin ++ room bin).length := length_join_le hlt
      rw [scatter]
      simp only [hdigit, bind, Except.bind, hoffset]
      rw [if_pos (by omega), bump_map hlt, join_set hlt hplace]
      simp only
      have hdone : done ++ key :: rest = (done ++ [key]) ++ rest := by simp
      have hroom' : ∀ bin < 256, (Function.update room (d key) ((room (d key)).tail) bin).length
          = (bucket d rest bin).length := by
        intro bin hbin
        have hlength := hroom bin hbin
        rw [bucket_cons] at hlength
        by_cases hne : bin = d key
        · subst hne
          rw [Function.update_self, List.length_cons] at hlength
          rw [Function.update_self, List.length_tail, hlength, Nat.add_sub_cancel]
        · rw [Function.update_of_ne hne] at hlength ⊢
          exact hlength
      have hnext : scatter digit rest _ _ = .ok (distribute 256 d ((done ++ [key]) ++ rest)) :=
        ih (fun k hk => h k (by simp [hk])) hroom'
      rw [← hdone] at hnext
      rw [← hnext]
      congr 1
      · refine List.map_congr_left fun bin _ => ?_
        rw [bucket_append_singleton]
        by_cases hne : bin = d key
        · subst hne
          simp only [Function.update_self, List.length_append, List.length_singleton]
          omega
        · simp only [Function.update_of_ne hne]
      · congr 1
        funext bin
        rw [bucket_append_singleton]
        by_cases hne : bin = d key
        · subst hne
          have hcons : ∃ first others, room (d key) = first :: others := by
            refine List.exists_cons_of_length_pos ?_
            rw [hroom _ hlt, bucket_cons, Function.update_self, List.length_cons]
            omega
          obtain ⟨first, others, hothers⟩ := hcons
          simp only [Function.update_self, hothers, List.tail_cons]
          rw [List.set_append_right _ _ (Nat.le_refl _), Nat.sub_self, List.set_cons_zero,
            List.append_assoc]
          rfl
        · simp only [Function.update_of_ne hne]

/-- A pass distributes the keys, and leaves an array of their number behind. -/
theorem scatterPass_eq {keys scratch : List K}
    (h : ∀ key ∈ keys, digit key = .ok (d key) ∧ d key < 256)
    (hscratch : scratch.length = keys.length) :
    ∃ left, scatterPass digit ((List.range 256).map fun bin => (bucket d keys bin).length) keys
        scratch = .ok (distribute 256 d keys, left) ∧ left.length = keys.length := by
  unfold scatterPass
  split
  · next hmem =>
      obtain ⟨bin, hbin, hlength⟩ := List.mem_map.mp hmem
      have hall : ∀ key ∈ keys, d key = bin := by
        have hself := List.length_filter_eq_length_iff.mp hlength
        exact fun key hkey => by simpa using hself key hkey
      rw [distribute_of_forall (List.mem_range.mp hbin) hall]
      exact ⟨scratch, rfl, hscratch⟩
  · have hlength : scratch.length = (join 256 (bucket d keys)).length := by
      rw [hscratch]
      exact (distribute_perm fun key hkey => (h key hkey).2).length_eq.symm
    obtain ⟨room, rfl, hroom⟩ := exists_join hlength
    have hstarts := startsOf_eq (bucket d keys) 0 256
    rw [← List.range_eq_range', join_zero, List.length_nil] at hstarts
    have hscatter : scatter digit keys _ _ = .ok (distribute 256 d ([] ++ keys)) :=
      scatter_eq h hroom
    simp only [List.nil_append, bucket, List.filter_nil, List.length_nil, Nat.add_zero] at hscatter
    rw [hstarts]
    refine ⟨keys, ?_, rfl⟩
    show (scatter digit keys _ _ >>= _) = _
    rw [hscatter]
    rfl

end

/-- Keys in order. -/
def SortedKeys {K : Type} [RadixKey K] [LawfulRadixKey K] (keys : List K) : Prop :=
  keys.Pairwise fun a b => LawfulRadixKey.value a ≤ LawfulRadixKey.value b

section
open LawfulRadixKey (value)
open Radix (Sorts)
variable {K : Type} [RadixKey K] [LawfulRadixKey K]

/-- After some passes the keys are sorted by as many digits. -/
theorem radixPasses_ok {keys scratch : List K} (hscratch : scratch.length = keys.length) :
    ∀ {passes : Nat}, passes ≤ RadixKey.bytes K →
    ∃ sorted left, radixPasses keys scratch passes = .ok (sorted, left) ∧
      left.length = sorted.length ∧ Sorts 256 passes value keys sorted
  | 0, _ => ⟨keys, scratch, rfl, hscratch, .zero 256 value keys⟩
  | passes + 1, h => by
      obtain ⟨sorted, left, hpasses, hleft, hsorts⟩ :=
        radixPasses_ok hscratch (Nat.le_of_succ_le h)
      have hdigit :
        ∀ key ∈ sorted, RadixKey.digit key passes = .ok (value key / 256 ^ passes % 256) ∧
          value key / 256 ^ passes % 256 < 256 :=
        fun key _ => ⟨LawfulRadixKey.digit_value key passes h, Nat.mod_lt _ (by omega)⟩
      obtain ⟨left', hpass, hleft'⟩ := scatterPass_eq hdigit hleft
      have hdistributed := Radix.distribute_perm fun key hkey => (hdigit key hkey).2
      refine ⟨_, left', ?_, hleft'.trans hdistributed.length_eq.symm, hsorts.distribute (by omega)⟩
      rw [radixPasses] at hpasses ⊢
      rw [List.range_succ, List.foldlM_append, hpasses]
      show (countDigits _ sorted >>= _) >>= _ = _
      rw [countDigits_eq hdigit]
      show scatterPass _ _ sorted left >>= _ = _
      rw [hpass]
      rfl

/-- Keys without a digit behind the passes come out in order. -/
theorem sortedKeys_of_sorts {keys sorted : List K} {passes : Nat}
    (h : Sorts 256 passes value keys sorted) (hkeys : ∀ key ∈ keys, value key < 256 ^ passes) :
    SortedKeys sorted := by
  refine h.ordered.imp_of_mem fun {a b} ha hb hle => ?_
  rwa [Nat.mod_eq_of_lt (hkeys a (h.perm.mem_iff.mp ha)),
    Nat.mod_eq_of_lt (hkeys b (h.perm.mem_iff.mp hb))] at hle

omit [RadixKey K] [LawfulRadixKey K] in
theorem length_resize [Inhabited K] (scratch : List K) (length : Nat) :
    (resize scratch length).length = length := by
  simp only [resize, List.length_append, List.length_take, List.length_replicate]
  omega

/-- Whatever the scratch array holds, the keys are sorted by the digits of the passes. -/
theorem radixSort_ok (keys scratch : List K) {passes : Nat} (hpasses : passes ≤ RadixKey.bytes K) :
    ∃ sorted left, radixSort keys scratch passes = .ok (sorted, left) ∧
      left.length = sorted.length ∧ Sorts 256 passes value keys sorted :=
  radixPasses_ok (length_resize scratch keys.length) hpasses

end

/-! ## What a merge does -/

section
open LawfulRadixKey (value)
variable {K : Type} {σ : Type} {n : Nat}

/-- The visits of a merge, one key after another. -/
def visitAll (visit : σ → K → Nat → Except Failure σ) : List K → Nat → σ →
    Except Failure (σ × Nat)
  | [], rows, state => .ok (state, rows)
  | key :: keys, rows, state => do
      let state ← visit state key rows
      visitAll visit keys (rows + 1) state

/-- Visiting keys in two parts visits them all. -/
theorem visitAll_append (visit : σ → K → Nat → Except Failure σ) (front back : List K) (rows : Nat)
    (state : σ) :
    visitAll visit (front ++ back) rows state =
      (visitAll visit front rows state >>=
        fun (state, rows) => visitAll visit back rows state) := by
  induction front generalizing rows state with
  | nil => rfl
  | cons key front ih =>
      rw [List.cons_append, visitAll, visitAll]
      cases visit state key rows with
      | error e => rfl
      | ok state => exact ih (rows + 1) state

/-- Visits that always succeed. -/
theorem visitAll_ok {visit : σ → K → Nat → Except Failure σ} {next : σ → K → σ}
    (h : ∀ state key rows, visit state key rows = .ok (next state key)) : ∀ (keys : List K)
    (rows : Nat) (state : σ),
    visitAll visit keys rows state = .ok (keys.foldl next state, rows + keys.length)
  | [], _, _ => rfl
  | key :: keys, rows, state => by
      rw [visitAll, h]
      refine (visitAll_ok h keys (rows + 1) (next state key)).trans ?_
      rw [List.foldl_cons, List.length_cons, Nat.add_right_comm, Nat.add_assoc]

variable [RadixKey K]

/-- The keys of some runs as a merge visits them, each with its run. -/
def merged (runs : List (List K)) : List (K × Fin runs.length) :=
  (Cursors.start EntryLe fun run : Fin runs.length => runs.get run).drain EntryLe

/-- The loop of the merge visits the drained keys. -/
theorem mergeLoop_eq (visit : σ → K → Nat → Except Failure σ) (cursors : Cursors K n) :
    ∀ (rows : Nat) (state : σ), mergeLoop visit cursors rows state
      = visitAll visit ((cursors.drain EntryLe).map Prod.fst) rows state := by
  induction hsize : cursors.size using Nat.strongRecOn generalizing cursors with
  | _ size ih =>
    intro rows state
    rw [mergeLoop]
    split
    · next hheap =>
        rw [Cursors.drain_nil EntryLe hheap]
        rfl
    · next key run rest hheap =>
        have hlt := Cursors.size_advance EntryLe hheap
        rw [Cursors.drain_cons EntryLe hheap, List.map_cons, visitAll]
        refine congrArg (visit state key rows >>= ·) (funext fun state => ?_)
        exact ih _ (by rw [← hsize, ← hlt]; exact Nat.lt_succ_self _) _ rfl (rows + 1) state

/-- So does the merge of runs. -/
theorem mergeVisit_eq (runs : List (List K)) (visit : σ → K → Nat → Except Failure σ) (state : σ) :
    mergeVisit runs visit state = visitAll visit ((merged runs).map Prod.fst) 0 state :=
  mergeLoop_eq visit _ 0 state

/-- The merge returns the merged keys. -/
theorem merge_eq (runs : List (List K)) : merge runs = .ok ((merged runs).map Prod.fst) := by
  rw [merge, mergeVisit_eq, visitAll_ok fun _ _ _ => rfl]
  have hfold : ∀ keys output : List K, keys.foldl (fun output key => output ++ [key]) output
      = output ++ keys := by
    intro keys
    induction keys with
    | nil => simp
    | cons key keys ih => simp [ih]
  show Except.ok (List.foldl _ [] _) = _
  rw [hfold, List.nil_append]

variable [LawfulRadixKey K]

/-- Entries are ordered by their keys, and then by their runs. -/
theorem entryLe_iff {a b : K × Fin n} :
    EntryLe a b ↔ value a.1 < value b.1 ∨ value a.1 = value b.1 ∧ a.2 ≤ b.2 := by
  rw [EntryLe, LawfulRadixKey.compare_value]
  rcases Nat.lt_trichotomy (value a.1) (value b.1) with h | h | h
  · rw [Nat.compare_eq_lt.mpr h]
    exact ⟨fun _ => .inl h, fun _ => rfl⟩
  · rw [Nat.compare_eq_eq.mpr h]
    show (compare a.2.val b.2.val).isLE = true ↔ _
    rw [Nat.isLE_compare]
    exact ⟨fun hle => .inr ⟨h, hle⟩, fun hor => hor.elim (by omega) And.right⟩
  · rw [Nat.compare_eq_gt.mpr h]
    exact ⟨fun hle => (by cases hle), fun hor => hor.elim (by omega) (by omega)⟩

instance : Std.Total (EntryLe (K := K) (n := n)) where
  total a b := by
    simp only [entryLe_iff, Fin.le_def]
    omega

instance : IsTrans (K × Fin n) EntryLe where
  trans a b c := by
    simp only [entryLe_iff, Fin.le_def]
    omega

/-- Merging sorted runs gives each of them in its order, and everything in order. -/
theorem merged_ordered {runs : List (List K)} (h : ∀ run ∈ runs, SortedKeys run) :
    (∀ run, Merge.ofRun run (merged runs) = runs.get run) ∧ (merged runs).Pairwise EntryLe := by
  refine (Merge.start_standing fun run => ?_).drain
  refine (h (runs.get run) (List.get_mem _ _)).imp fun {a b} hle => entryLe_iff.mpr ?_
  rcases Nat.lt_or_eq_of_le hle with hlt | heq
  · exact .inl hlt
  · exact .inr ⟨heq, Nat.le_refl _⟩

/-- Merging sorted runs permutes their keys. -/
theorem merged_perm {runs : List (List K)} (h : ∀ run ∈ runs, SortedKeys run) :
    ((merged runs).map Prod.fst).Perm runs.flatten := by
  refine (Merge.ofRun_flatMap_perm (merged runs)).symm.trans (.of_eq ?_)
  rw [List.flatMap_congr fun run _ => (merged_ordered h).1 run, List.flatMap_def,
    List.map_get_finRange]

/-- Merging sorted runs sorts. -/
theorem merged_sorted {runs : List (List K)} (h : ∀ run ∈ runs, SortedKeys run) :
    SortedKeys ((merged runs).map Prod.fst) := by
  refine List.pairwise_map.mpr ((merged_ordered h).2.imp fun {a b} hle => ?_)
  rcases entryLe_iff.mp hle with hlt | ⟨heq, -⟩
  · exact Nat.le_of_lt hlt
  · exact Nat.le_of_eq heq

/-- The generations leave at most as many sorted runs as one merge reads, of the same keys. -/
theorem mergeGenerations_ok (runs : List (List K)) (h : ∀ run ∈ runs, SortedKeys run) :
    ∃ left, mergeGenerations runs = .ok left ∧ left.length ≤ mergeFanIn ∧
      (∀ run ∈ left, SortedKeys run) ∧ left.flatten.Perm runs.flatten := by
  induction hlength : runs.length using Nat.strongRecOn generalizing runs with
  | _ length ih =>
    rw [mergeGenerations]
    split
    · next hmany =>
        have hchunks : (chunks mergeFanIn runs).flatten = runs :=
          Slices.flatten_chunks (by decide) runs
        have hmerge : (chunks mergeFanIn runs).mapM merge
            = .ok ((chunks mergeFanIn runs).map fun group => (merged group).map Prod.fst) :=
          Results.mapM_eq_ok_iff.mpr (List.forall₂_map_right_iff.mpr
            (List.forall₂_same.mpr fun group _ => merge_eq group))
        have hgroup : ∀ group ∈ chunks mergeFanIn runs, ∀ run ∈ group, SortedKeys run := by
          intro group hgroup run hrun
          refine h run ?_
          rw [← hchunks]
          exact List.mem_flatten_of_mem hgroup hrun
        have hlt := Slices.length_chunks_lt (show 1 < mergeFanIn by decide) (Nat.le_of_lt hmany)
        split
        · next next hnext =>
            rw [hmerge] at hnext
            cases hnext
            obtain ⟨left, hleft, hfew, hsorted, hperm⟩ := ih _ (by
              rw [List.length_map, ← hlength]
              exact hlt) ((chunks mergeFanIn runs).map fun group => (merged group).map Prod.fst)
              (fun run hrun => by
                obtain ⟨group, hmem, rfl⟩ := List.mem_map.mp hrun
                exact merged_sorted (hgroup group hmem)) rfl
            refine ⟨left, hleft, hfew, hsorted, hperm.trans ?_⟩
            rw [← List.flatMap_def]
            refine (List.Perm.flatMap_left _ fun group hmem => merged_perm
              (hgroup group hmem)).trans
              (.of_eq ?_)
            conv_rhs => rw [← hchunks]
            rw [List.flatMap_def, List.flatten_flatten]
        · next e he =>
            rw [hmerge] at he
            cases he
    · next hfew => exact ⟨runs, rfl, Nat.le_of_not_lt hfew, h, .refl _⟩

end

/-! ## What the runs hold -/

section
open LawfulRadixKey (value)
variable {K : Type} [SortKey K] [LawfulRadixKey K] {spool : IntegerSpool}
  {codec : Codec}

/-- The packed keys of tuples. -/
def Packs (codec : Codec) (tuples : List Tuple) (keys : List K) : Prop :=
  List.Forall₂ (fun tuple key => SortKey.pack codec tuple = .ok key) tuples keys

/-- A key fits the bytes of its passes. -/
theorem KeyExact.value_lt {tuples : List Tuple} (h : KeyExact K codec tuples) {tuple : Tuple}
    (hmem : tuple ∈ tuples) {key : K} (hkey : SortKey.pack codec tuple = .ok key) :
    value key < 256 ^ SortKey.passes K codec := by
  refine Radix.lt_pow_of_digits (by omega) (LawfulRadixKey.value_lt key) h.passes
    fun pass hlow hhigh => ?_
  have hdigit := h.digits tuple hmem key hkey pass hlow hhigh
  rw [LawfulRadixKey.digit_value key pass hhigh] at hdigit
  exact Except.ok.inj hdigit

/-- A run of a slice of the keys. -/
def RunOf (keys : List K) (capacity run : Nat) (sorted : List K) : Prop :=
  sorted.Perm (slice capacity keys run) ∧ SortedKeys sorted

/-- One step of a worker leaves the run of a slice. -/
theorem makeRun_ok (h : KeyExact K codec spool.tuples)
    (hrows : spool.rows = spool.tuples.length) {keys : List K}
    (hkeys : Packs codec spool.tuples keys) (capacity : Nat) (paths : List (List K))
    (scratch : List K) (run : Nat) :
    ∃ sorted left, makeRun K spool codec capacity (paths, scratch) run
        = .ok (paths ++ [sorted], left) ∧ RunOf keys capacity run sorted := by
  have htake : (spool.tuples.drop (run * capacity)).take
      (min (spool.rows - run * capacity) capacity) = slice capacity spool.tuples run := by
    rw [slice, List.take_eq_take_iff, List.length_drop, hrows]
    omega
  have hpack : (slice capacity spool.tuples run).mapM (SortKey.pack codec)
      = .ok (slice capacity keys run) :=
    Results.mapM_eq_ok_iff.mpr (List.forall₂_take _ (List.forall₂_drop _ hkeys))
  have hvalue : ∀ key ∈ slice capacity keys run, value key < 256 ^ SortKey.passes K codec := by
    intro key hmem
    obtain ⟨i, hi, rfl⟩ :=
      List.mem_iff_getElem.mp (List.mem_of_mem_drop (List.mem_of_mem_take hmem))
    exact h.value_lt (List.getElem_mem _) (hkeys.get (by rw [hkeys.length_eq]; exact hi) hi)
  obtain ⟨sorted, left, hsort, -, hsorts⟩ :=
    radixSort_ok (slice capacity keys run) scratch h.passes
  refine ⟨sorted, left, ?_, hsorts.perm, sortedKeys_of_sorts hsorts hvalue⟩
  rw [makeRun, htake]
  simp only [hpack, bind, Except.bind]
  rw [hsort]

/-- A worker leaves the runs of its slices. -/
theorem makeRuns_ok (h : KeyExact K codec spool.tuples)
    (hrows : spool.rows = spool.tuples.length) {keys : List K}
    (hkeys : Packs codec spool.tuples keys) (capacity worker workers : Nat) :
    ∃ runs, makeRuns K spool codec capacity worker workers = .ok runs ∧
      List.Forall₂ (RunOf keys capacity)
        (stride workers (ceil spool.rows capacity) worker) runs := by
  obtain ⟨runs, left, hruns, hall⟩ := Results.foldlM_collect
    (makeRun_ok h hrows hkeys capacity) (stride workers (ceil spool.rows capacity) worker) [] []
  refine ⟨runs, ?_, hall⟩
  rw [makeRuns]
  simp only [hruns]
  rfl

/-- However many workers there are, their runs are in order and hold the keys of the spool. -/
theorem workerRuns_ok (h : KeyExact K codec spool.tuples) (hrows : spool.rows = spool.tuples.length)
    {keys : List K} (hkeys : Packs codec spool.tuples keys) {capacity workers : Nat}
    (hcapacity : 0 < capacity) (hworkers : 0 < workers) :
    ∃ runs, workerRuns K spool codec capacity workers = .ok runs ∧
      (∀ run ∈ runs, SortedKeys run) ∧ runs.flatten.Perm keys := by
  have hworker := makeRuns_ok h hrows hkeys capacity
  obtain ⟨groups, hgroups⟩ := Results.exists_forall₂
    fun worker (_ : worker ∈ List.range workers) => hworker worker workers
  have hruns : workerRuns K spool codec capacity workers = .ok groups.flatten := by
    unfold workerRuns
    split
    · next hone =>
        subst hone
        cases hgroups with
        | cons hgroup hnil =>
            cases hnil
            rw [hgroup.1]
            simp
    · have hmap : (List.range workers).mapM (fun worker =>
          joined "integer index run worker panicked"
            (makeRuns K spool codec capacity worker workers))
            = .ok groups :=
        Results.mapM_eq_ok_iff.mpr (hgroups.imp fun worker group hgroup => by rw [hgroup.1]; rfl)
      rw [hmap]
      rfl
  refine ⟨groups.flatten, hruns, fun run hrun => ?_, ?_⟩
  · obtain ⟨group, hgroup, hrun⟩ := List.mem_flatten.mp hrun
    exact Results.forall₂_forall hgroups (fun _ _ _ hall =>
      Results.forall₂_forall hall.2 fun _ _ _ hrun => hrun.2) group hgroup run hrun
  · refine Slices.dealt_perm hworkers hcapacity (hgroups.imp fun worker group hall => ?_)
    rw [← hkeys.length_eq, ← hrows]
    exact hall.2.imp fun _ _ hrun => hrun.1

end

end Velr.Sort
