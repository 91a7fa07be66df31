import Velr.Sort.Workers

/-!
# Sort memory budgets

`sort_memory_budget` and `background_node_sort_memory` of `native.rs`, which say how much memory
index sorting has, and `node_sort_budgets` and `NodeIndexes::sort` of `bulk_indexes.rs`, which
divide it among the node indexes. From 16 MiB of importer memory on, every sorter that is started
has the memory it demands, and those that run at once have no more than their pool (`sort_budgets`).
-/

namespace Velr.Sort

open IndexStats (Failure)
open TextIndex (TextSpool)

/-! ## The pools -/

/-- `MAX_SORT_MEMORY` -/
def maxSortMemory : Nat := 264 * mib

/-- `sort_memory_budget` -/
def sortMemoryBudget (memory : Nat) : Nat :=
  if 512 * mib ≤ memory then maxSortMemory else memory / 2

/-- `background_node_sort_memory`; its subtractions saturate. -/
def backgroundNodeSortMemory (memory integerMapBytes : Nat) (diskGroups : Bool) : Nat :=
  let sortMemory := sortMemoryBudget memory
  if 512 * mib ≤ memory then
    let sortMemory := sortMemory - (integerMapBytes - 32 * mib)
    let sortMemory := if diskGroups then sortMemory - min (memory / 8) (64 * mib) else sortMemory
    max sortMemory (6 * mib)
  else sortMemory

/-! ## Checked arithmetic of `usize` -/

/-- A multiplication that overflows panics. -/
def usizeMul (a b : Nat) : Except Failure Nat :=
  if a * b < 2 ^ 64 then .ok (a * b) else .error .panic

/-- An addition that overflows panics. -/
def usizeAdd (a b : Nat) : Except Failure Nat :=
  if a + b < 2 ^ 64 then .ok (a + b) else .error .panic

/-- A subtraction that underflows panics. -/
def usizeSub (a b : Nat) : Except Failure Nat := if b ≤ a then .ok (a - b) else .error .panic

/-! ## The shares -/

/-- `NodeSortBudgets` -/
structure NodeSortBudgets where
  property : Nat
  numeric : Option Nat
  text : Nat
  textWorkers : Nat
deriving DecidableEq

/-- `node_sort_budgets` -/
def nodeSortBudgets (memory : Nat) (numeric : Bool) : Except Failure NodeSortBudgets :=
  if memory < 192 * mib then
    let equal := max (memory / (2 + numeric.toNat)) 1
    .ok
      { property := equal, numeric := if numeric then some equal else none
        text := equal, textWorkers := 1 }
  else do
    let weight := if numeric then 15 else 11
    let whole ← usizeMul (memory / weight) 4
    let rest ← usizeMul (memory % weight) 4
    let integer ← usizeAdd whole (rest / weight)
    let integers ← usizeMul integer (1 + numeric.toNat)
    let text ← usizeSub memory integers
    .ok
      { property := integer, numeric := if numeric then some integer else none
        text, textWorkers := 2 }

/-- The memory of all sorters. -/
def NodeSortBudgets.total (budgets : NodeSortBudgets) : Nat :=
  budgets.property + budgets.numeric.getD 0 + budgets.text

/-! ## The sorts of the node indexes -/

/-- The tuple streams of `NodeIndexes`. -/
inductive Stream where
  | node
  | property
  | numeric
  | text
deriving DecidableEq

/-- What a worker is told to sort. -/
structure Request where
  stream : Stream
  memory : Nat
  workerLimit : Nat
deriving DecidableEq

/-- `NodeIndexes` -/
structure NodeIndexes where
  node : IntegerSpool
  property : IntegerSpool
  numeric : Option IntegerSpool
  text : TextSpool

/-- `NodeIndexes::sort`: the specification of each stream. -/
def Stream.specifications : Stream → List IntegerIndexSpec
  | .node => [⟨[1, 0], [1, 0, 0], 2⟩]
  | .property => [⟨[1, 0, 2], [1, 0, 2], 2⟩]
  | .numeric => [⟨[0, 1, 2, 3], [0, 1, 2, 3], 3⟩]
  | .text => []

/-- `NodeIndexes::sort`: what the panic of a worker becomes. -/
def Stream.panicked : Stream → String
  | .node | .property => "node property index worker panicked"
  | .numeric => "numeric index worker panicked"
  | .text => "text index worker panicked"

/-- `Vec::remove(0)` -/
def removeFirst {α : Type} : List α → Except Failure α
  | [] => .error .panic
  | x :: _ => .ok x

/-- The sort of an integer stream, of which there is one index. -/
def sortStream (processors : Nat) (spool : IntegerSpool) (pageSize : Nat) (request : Request) :
    Except Failure SortedIntegerIndex := do
  let sorted ← spool.sortInner processors request.stream.specifications request.memory
    (some pageSize) request.workerLimit
  removeFirst sorted

/-- `NodeIndexes::sort`: one sort. -/
def NodeIndexes.run (indexes : NodeIndexes) (processors pageSize : Nat) (request : Request) :
    Except Failure SortedIntegerIndex :=
  match request.stream with
  | .node => sortStream processors indexes.node pageSize request
  | .property => sortStream processors indexes.property pageSize request
  | .numeric =>
      match indexes.numeric with
      | some numeric => sortStream processors numeric pageSize request
      | none => .error .panic
  | .text =>
      indexes.text.sortInner processors request.memory (some pageSize) request.workerLimit

/-- `NodeIndexes::sort`: the first index is sorted alone. -/
def nodeRequest (memory : Nat) : Request := ⟨.node, min memory (32 * mib), 1⟩

/-- `NodeIndexes::sort`: the others one after the other, each with the whole pool. -/
def sequentialRequests (memory : Nat) (numeric : Bool) : List Request :=
  ⟨.property, memory, 1⟩ :: (if numeric then [⟨.numeric, memory, 1⟩] else [])
    ++ [⟨.text, memory, 1⟩]

/-- `NodeIndexes::sort`: the others at once, each with its share. -/
def concurrentRequests (budgets : NodeSortBudgets) : List Request :=
  ⟨.property, budgets.property, 1⟩ ::
    (budgets.numeric.toList.map fun memory => ⟨.numeric, memory, 1⟩) ++
      [⟨.text, budgets.text, budgets.textWorkers⟩]

/-- `NodeIndexes::sort` -/
def NodeIndexes.sort (indexes : NodeIndexes) (processors memory pageSize : Nat) :
    Except Failure (List SortedIntegerIndex) := do
  let node ← indexes.run processors pageSize (nodeRequest memory)
  let budgets ← nodeSortBudgets memory indexes.numeric.isSome
  let trees ←
    if budgets.property < 6 * mib then
      (sequentialRequests memory indexes.numeric.isSome).mapM (indexes.run processors pageSize)
    else
      (concurrentRequests budgets).mapM fun request =>
        joined request.stream.panicked (indexes.run processors pageSize request)
  .ok (node :: trees)

/-- The sorts that run at once, one group after the other. -/
def stages (memory : Nat) (numeric : Bool) (budgets : NodeSortBudgets) : List (List Request) :=
  [nodeRequest memory] ::
    if budgets.property < 6 * mib then (sequentialRequests memory numeric).map ([·])
    else [concurrentRequests budgets]

/-- `EDGE`, `edge_specs` -/
def edgeSpecs : List IntegerIndexSpec :=
  [[0, 2, 1, 3], [1, 2, 0, 3], [2, 0, 1, 3], [2, 1, 0, 3]].map fun fields =>
    ⟨fields, fields ++ [3], 4⟩

/-! ## What each one is given -/

/-- A sort that has the memory it demands. -/
def Request.Fed (processors : Nat) (indexes : NodeIndexes) (request : Request) : Prop :=
  match request.stream with
  | .node =>
      indexes.node.Fed processors request.stream.specifications request.memory request.workerLimit
  | .property =>
      indexes.property.Fed processors request.stream.specifications request.memory
        request.workerLimit
  | .numeric =>
      ∀ spool ∈ indexes.numeric,
        spool.Fed processors request.stream.specifications request.memory request.workerLimit
  | .text => indexes.text.Fed processors request.memory request.workerLimit

/-- A request of this size feeds its sorter. -/
theorem Request.fed (processors : Nat) (indexes : NodeIndexes) {request : Request}
    (hmemory : workerOverhead + 2 * mib ≤ request.memory)
    (hlimit : 1 ≤ request.workerLimit ∧ request.workerLimit ≤ 4) :
    request.Fed processors indexes := by
  rw [Request.Fed]
  obtain ⟨stream, memory, limit⟩ := request
  cases stream with
  | node => exact indexes.node.fed processors (List.cons_ne_nil _ _) hmemory hlimit
  | property => exact indexes.property.fed processors (List.cons_ne_nil _ _) hmemory hlimit
  | numeric => exact fun spool _ => spool.fed processors (List.cons_ne_nil _ _) hmemory hlimit
  | text => exact indexes.text.fed processors hmemory hlimit

/-- A pool that the node sorts divide into some shares. -/
structure Divided (processors pool : Nat) (numeric : Bool) (shares : NodeSortBudgets) : Prop where
  budgets : nodeSortBudgets pool numeric = .ok shares
  total : shares.total ≤ pool
  exact : 192 * mib ≤ pool → shares.total = pool
  stage : ∀ stage ∈ stages pool numeric shares, (stage.map Request.memory).sum ≤ pool
  fed : ∀ stage ∈ stages pool numeric shares, ∀ request ∈ stage, ∀ indexes,
    request.Fed processors indexes
  sort : ∀ indexes : NodeIndexes, indexes.numeric.isSome = numeric → ∀ pageSize,
    indexes.sort processors pool pageSize = (do
      let node ← indexes.run processors pageSize (nodeRequest pool)
      let trees ←
        if shares.property < 6 * mib then
          (sequentialRequests pool numeric).mapM (indexes.run processors pageSize)
        else
          (concurrentRequests shares).mapM fun request =>
            joined request.stream.panicked (indexes.run processors pageSize request)
      .ok (node :: trees))

/-- Shares that a pool has been divided into. -/
structure Shares (pool : Nat) (budgets : NodeSortBudgets) : Prop where
  total : budgets.total ≤ pool
  exact : 192 * mib ≤ pool → budgets.total = pool
  numeric : ∀ memory ∈ budgets.numeric, memory = budgets.property
  text : budgets.property ≤ budgets.text
  workers : 1 ≤ budgets.textWorkers ∧ budgets.textWorkers ≤ 4

/-- Below 192 MiB the sorters have equal shares. -/
theorem nodeSortBudgets_small {pool : Nat} (hsmall : pool < 192 * mib) (hpool : 6 * mib ≤ pool)
    (numeric : Bool) : ∃ budgets, nodeSortBudgets pool numeric = .ok budgets ∧
      Shares pool budgets := by
  have hmib : mib = 1048576 := by decide
  rw [nodeSortBudgets, if_pos hsmall]
  refine ⟨_, rfl, ?_⟩
  cases numeric
  all_goals
    constructor <;> simp [NodeSortBudgets.total] <;> omega

/-- The division of a large pool: the integer streams have 4 parts each, the text stream has 7 and
what the rounding leaves. -/
theorem nodeSortBudgets_large {pool : Nat} (hlarge : 192 * mib ≤ pool) (hpool : pool < 2 ^ 64)
    (numeric : Bool) : ∃ budgets, nodeSortBudgets pool numeric = .ok budgets ∧
      Shares pool budgets := by
  rw [nodeSortBudgets, if_neg (Nat.not_lt.mpr hlarge)]
  cases numeric
  all_goals
    simp only [usizeMul, usizeAdd, usizeSub, Bool.toNat_false, Bool.toNat_true, bind, Except.bind,
      Bool.false_eq_true, if_false, if_true]
    rw [if_pos (by omega)]
    dsimp only
    rw [if_pos (by omega)]
    dsimp only
    rw [if_pos (by omega)]
    dsimp only
    rw [if_pos (by omega)]
    dsimp only
    rw [if_pos (by omega)]
    refine ⟨_, rfl, ?_⟩
    constructor <;> simp [NodeSortBudgets.total] <;> omega

/-- A pool of six MiB or more is divided into shares that suffice. -/
theorem nodeSortBudgets_ok {pool : Nat} (hlow : 6 * mib ≤ pool) (hhigh : pool < 2 ^ 64)
    (numeric : Bool) : ∃ budgets, nodeSortBudgets pool numeric = .ok budgets ∧
      Shares pool budgets := by
  by_cases hsmall : pool < 192 * mib
  · exact nodeSortBudgets_small hsmall hlow numeric
  · exact nodeSortBudgets_large (Nat.not_lt.mp hsmall) hhigh numeric

/-- The memory of the sorts that run at once is that of the shares. -/
theorem sum_concurrentRequests (budgets : NodeSortBudgets) :
    ((concurrentRequests budgets).map Request.memory).sum = budgets.total := by
  rw [concurrentRequests, NodeSortBudgets.total]
  cases budgets.numeric with
  | none => simp
  | some memory => simp [Nat.add_assoc]

/-- A pool of at least 6 MiB feeds all node sorts. -/
theorem divided {pool : Nat} (hlow : 6 * mib ≤ pool) (hhigh : pool < 2 ^ 64) (numeric : Bool)
    (processors : Nat) : ∃ budgets, Divided processors pool numeric budgets := by
  have hdemand : workerOverhead + 2 * mib = 6 * mib := by decide
  have hsingle : 1 ≤ 1 ∧ 1 ≤ 4 := by decide
  obtain ⟨budgets, hbudgets, hshares⟩ := nodeSortBudgets_ok hlow hhigh numeric
  refine ⟨budgets, hbudgets, hshares.total, hshares.exact, fun stage hstage => ?_,
    fun stage hstage request hrequest indexes => ?_, fun indexes hnumeric pageSize => ?_⟩
  · rw [stages, List.mem_cons] at hstage
    rcases hstage with rfl | hstage
    · simp [nodeRequest]
    · split at hstage
      · obtain ⟨request, hrequest, rfl⟩ := List.mem_map.mp hstage
        cases numeric <;> simp [sequentialRequests] at hrequest
        · rcases hrequest with rfl | rfl <;> simp
        · rcases hrequest with rfl | rfl | rfl <;> simp
      · rw [List.mem_singleton.mp hstage, sum_concurrentRequests]
        exact hshares.total
  · have henough : 6 * mib ≤ request.memory ∧ 1 ≤ request.workerLimit ∧
      request.workerLimit ≤ 4 := by
      rw [stages, List.mem_cons] at hstage
      rcases hstage with rfl | hstage
      · rw [List.mem_singleton.mp hrequest]
        exact ⟨Nat.le_min.mpr ⟨hlow, by decide⟩, hsingle⟩
      · split at hstage
        · obtain ⟨request', hrequest', rfl⟩ := List.mem_map.mp hstage
          rw [List.mem_singleton.mp hrequest]
          cases numeric <;> simp [sequentialRequests] at hrequest'
          · rcases hrequest' with rfl | rfl <;> exact ⟨hlow, hsingle⟩
          · rcases hrequest' with rfl | rfl | rfl <;> exact ⟨hlow, hsingle⟩
        · next hshare =>
            rw [List.mem_singleton.mp hstage] at hrequest
            have hproperty := Nat.not_lt.mp hshare
            simp only [concurrentRequests, List.cons_append, List.mem_cons, List.mem_append,
              List.mem_map, Option.mem_toList, List.not_mem_nil, or_false] at hrequest
            rcases hrequest with rfl | ⟨memory, hmemory, rfl⟩ | rfl
            · exact ⟨hproperty, hsingle⟩
            · rw [hshares.numeric memory hmemory]
              exact ⟨hproperty, hsingle⟩
            · exact ⟨Nat.le_trans hproperty hshares.text, hshares.workers⟩
    exact Request.fed processors indexes (hdemand ▸ henough.1) henough.2
  · rw [NodeIndexes.sort, hnumeric, hbudgets]
    rfl

/-- Importer memory of at least 16 MiB gives either pool at least 6 MiB. -/
theorem pool_bounds {memory pool : Nat} (hlow : 16 * mib ≤ memory) {integerMapBytes : Nat}
    {diskGroups : Bool}
    (hpool : pool ∈
      [sortMemoryBudget memory, backgroundNodeSortMemory memory integerMapBytes diskGroups]) :
    6 * mib ≤ pool ∧ pool ≤ max memory maxSortMemory := by
  have hmib : mib = 1048576 := by decide
  have hmax : maxSortMemory = 264 * mib := rfl
  simp only [List.mem_cons, List.not_mem_nil, or_false] at hpool
  rcases hpool with rfl | rfl
  · rw [sortMemoryBudget]
    split <;> omega
  · rw [backgroundNodeSortMemory, sortMemoryBudget]
    dsimp only
    split_ifs <;> omega

/-- Importer memory from 16 MiB on, whatever the map and the disk groups take, on a machine of any
number of processors: the pool of the node sorts, in the background or not, is divided without an
overflow, those that run at once have no more than the pool, and from 192 MiB on all of it. Every
node sort, whatever the rows of its stream, has what it demands, and so do both ways to the edge
indexes. -/
theorem sort_budgets {memory : Nat} (hlow : 16 * mib ≤ memory) (hhigh : memory < 2 ^ 64)
    (integerMapBytes : Nat) (diskGroups numeric : Bool) (processors : Nat) :
    (∀ pool ∈ [sortMemoryBudget memory,
        backgroundNodeSortMemory memory integerMapBytes diskGroups],
      ∃ budgets, Divided processors pool numeric budgets) ∧
    ∀ edge : IntegerSpool,
      edge.Fed processors edgeSpecs (sortMemoryBudget memory) 4 ∧
      edge.DirectFed processors edgeSpecs (sortMemoryBudget memory) := by
  refine ⟨fun pool hpool => ?_, fun edge => ?_⟩
  · obtain ⟨hpoolLow, hpoolHigh⟩ := pool_bounds hlow hpool
    exact divided hpoolLow
      (Nat.lt_of_le_of_lt hpoolHigh (Nat.max_lt.mpr ⟨hhigh, by decide⟩)) numeric processors
  · have hbudget : workerOverhead + 2 * mib ≤ sortMemoryBudget memory :=
      (@pool_bounds memory _ hlow integerMapBytes diskGroups (List.mem_cons_self ..)).1
    exact ⟨edge.fed processors (by decide) hbudget (by decide),
      edge.directFed processors edgeSpecs hbudget⟩

/-- The least memory, on three processors, with a map larger than it. -/
theorem sort_budgets_least :
    (∀ pool ∈ [sortMemoryBudget (16 * mib), backgroundNodeSortMemory (16 * mib) (40 * mib) true],
      ∃ budgets, Divided 3 pool true budgets) ∧
    ∀ edge : IntegerSpool,
      edge.Fed 3 edgeSpecs (sortMemoryBudget (16 * mib)) 4 ∧
      edge.DirectFed 3 edgeSpecs (sortMemoryBudget (16 * mib)) :=
  sort_budgets (Nat.le_refl _) (by decide) (40 * mib) true true 3

end Velr.Sort
