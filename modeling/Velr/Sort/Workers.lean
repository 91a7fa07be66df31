import Velr.Sort.Direct
import Velr.TextIndex.Sorted

/-!
# Workers and their memory

How `sort_inner` of both spools and `write_direct_indexes` divide memory among workers. A share is
at least the 6 MiB that a worker demands whenever the whole is (`enough_sortWorkers`), so that the
checks pass, no subtraction underflows and a run holds at least one key: `IntegerSpool.Fed`,
`IntegerSpool.DirectFed` and `TextSpool.Fed`.
-/

namespace Velr.Sort

open ByteString (Bytes)
open IndexStats (Failure)
open Slices (ceil chunks)

/-! ## Shares -/

/-- `MIB` -/
def mib : Nat := 2 ^ 20

/-- `sort_workers`, on a machine of some processors. -/
def sortWorkers (processors tasks memoryBytes : Nat) : Nat :=
  max (min (min (min tasks processors) 4) (max (memoryBytes / (8 * mib)) 1)) 1

/-- `sort_inner`, `sort_keys`: the tasks of some rows. -/
def runTasks (rows : Nat) : Nat := max (ceil rows 65536) 1

/-- The memory of a worker that its keys may take, beside a scratch array of as much. -/
def keyBytes (memoryBytes : Nat) : Nat := min ((memoryBytes - workerOverhead) / 2) maxKeyBytes

/-- Memory that some workers can share. -/
structure Enough (memoryBytes workers : Nat) : Prop where
  pos : 0 < workers
  share : workerOverhead + 2 * mib ≤ memoryBytes / workers

theorem one_le_sortWorkers (processors tasks memoryBytes : Nat) :
    1 ≤ sortWorkers processors tasks memoryBytes := Nat.le_max_right _ _

/-- There is one worker, or there are no more than the memory feeds. -/
theorem sortWorkers_le (processors tasks memoryBytes : Nat) :
    sortWorkers processors tasks memoryBytes ≤ max (memoryBytes / (8 * mib)) 1 := by
  rw [sortWorkers]
  omega

/-- Workers are as many as have 8 MiB each, or there is one alone. -/
theorem enough_sortWorkers {memoryBytes limit : Nat}
    (hmemory : workerOverhead + 2 * mib ≤ memoryBytes)
    (hlimit : 0 < limit) (processors tasks : Nat) :
    Enough memoryBytes (min (sortWorkers processors tasks memoryBytes) limit) := by
  have hone := one_le_sortWorkers processors tasks memoryBytes
  have hle := sortWorkers_le processors tasks memoryBytes
  generalize hworkers : min (sortWorkers processors tasks memoryBytes) limit = workers
  have hpos : 0 < workers := by omega
  refine ⟨hpos, (Nat.le_div_iff_mul_le hpos).mpr ?_⟩
  by_cases hsingle : workers = 1
  · rw [hsingle, Nat.mul_one]
    exact hmemory
  · have hmany : workers ≤ memoryBytes / (8 * mib) := by omega
    calc (workerOverhead + 2 * mib) * workers ≤ 8 * mib * workers :=
          Nat.mul_le_mul_right _ (by decide)
      _ = workers * (8 * mib) := Nat.mul_comm _ _
      _ ≤ memoryBytes := (Nat.le_div_iff_mul_le (by decide)).mp hmany

/-- Every worker has a MiB for its keys. -/
theorem Enough.keyBytes_ge {memoryBytes workers : Nat} (h : Enough memoryBytes workers) :
    mib ≤ keyBytes (memoryBytes / workers) := by
  have hshare := h.share
  rw [keyBytes, workerOverhead, mib, maxKeyBytes] at *
  omega

/-- A run of any key width up to a mebibyte holds a key. -/
theorem Enough.capacity {memoryBytes workers width : Nat} (h : Enough memoryBytes workers)
    (hpos : 0 < width) (hwidth : width ≤ mib) : 1 ≤ keyBytes (memoryBytes / workers) / width :=
  Nat.div_pos (Nat.le_trans hwidth h.keyBytes_ge) hpos

/-! ## Integer indexes -/

/-- `IntegerSpool::sort_inner` -/
def IntegerSpool.sortInner (processors : Nat) (spool : IntegerSpool)
    (specifications : List IntegerIndexSpec) (memoryBytes : Nat) (pageSize : Option Nat)
    (workerLimit : Nat) : Except Failure (List SortedIntegerIndex) :=
  if ¬(1 ≤ workerLimit ∧ workerLimit ≤ 4) then
    .error (.error "integer sort worker limit must be between one and four")
  else if specifications.isEmpty then .ok []
  else
    let workers := min (sortWorkers processors specifications.length memoryBytes) workerLimit
    let perWorker := memoryBytes / workers
    if perWorker < workerOverhead + 2 * mib then
      .error (.error "integer index sorting needs at least 6 MiB per worker")
    else
      let runWorkers := min (sortWorkers processors (runTasks spool.rows) perWorker)
        (max (workerLimit / workers) 1)
      do
        let batches ← (chunks workers specifications).mapM fun batch => batch.mapM fun spec =>
          joined "integer index sorting worker panicked"
            (sortOne spool spec perWorker runWorkers pageSize)
        .ok batches.flatten

/-- `write_direct_indexes`: a worker. What it gives the page writer, and the statistics. -/
def IntegerSpool.writeDirectOne (spool : IntegerSpool) (spec : IntegerIndexSpec) (keyBytes : Nat) :
    Except Failure (List Bytes × BuiltIndexStatistics) := do
  let codec ← Codec.new spool spec
  withKeyType codec.bits fun K _ => do
    let prepared ← prepareDirectKeys K spool codec spec keyBytes
    prepared.write

/-- `write_direct_indexes`, for a number of roots. -/
def IntegerSpool.writeDirectIndexes (processors : Nat) (spool : IntegerSpool)
    (specifications : List IntegerIndexSpec) (roots memoryBytes : Nat) :
    Except Failure (List (List Bytes × BuiltIndexStatistics)) :=
  if roots ≠ specifications.length then
    .error (.error "direct index roots do not match specifications")
  else
    let workers := sortWorkers processors specifications.length memoryBytes
    let perWorker := memoryBytes / workers
    if perWorker < workerOverhead + 2 * mib then
      .error (.error "direct index worker needs at least 6 MiB")
    else do
      let batches ← (chunks workers specifications).mapM fun batch => batch.mapM fun spec =>
        joined "direct index page worker panicked" (spool.writeDirectOne spec (keyBytes perWorker))
      .ok batches.flatten

/-- An integer sort whose workers, and the run workers of each, all have their 6 MiB: it is what
lies behind the checks, and each run holds at least one key. -/
def IntegerSpool.Fed (processors : Nat) (spool : IntegerSpool)
    (specifications : List IntegerIndexSpec) (memoryBytes workerLimit : Nat) : Prop :=
  ∃ workers runWorkers, Enough memoryBytes workers ∧ Enough (memoryBytes / workers) runWorkers ∧
    (∀ bits, withKeyType bits fun K _ =>
      1 ≤ keyBytes (memoryBytes / workers / runWorkers) / RadixKey.bytes K) ∧
    ∀ pageSize,
      spool.sortInner processors specifications memoryBytes pageSize workerLimit =
        (do
          let batches ← (chunks workers specifications).mapM fun batch => batch.mapM fun spec =>
            joined "integer index sorting worker panicked"
              (sortOne spool spec (memoryBytes / workers) runWorkers pageSize)
          .ok batches.flatten) ∧
      ∀ spec, sortOne spool spec (memoryBytes / workers) runWorkers pageSize =
        (do
          let codec ← Codec.new spool spec
          withKeyType codec.bits fun K _ => sortKeys K spool codec spec
            (keyBytes (memoryBytes / workers / runWorkers)) runWorkers pageSize)

/-- The direct index likewise; its workers make their runs alone. -/
def IntegerSpool.DirectFed (processors : Nat) (spool : IntegerSpool)
    (specifications : List IntegerIndexSpec) (memoryBytes : Nat) : Prop :=
  ∃ workers, Enough memoryBytes workers ∧
    (∀ bits, withKeyType bits fun K _ => 1 ≤ keyBytes (memoryBytes / workers) / RadixKey.bytes K) ∧
    spool.writeDirectIndexes processors specifications specifications.length memoryBytes =
      (do
        let batches ← (chunks workers specifications).mapM fun batch => batch.mapM fun spec =>
          joined "direct index page worker panicked"
            (spool.writeDirectOne spec (keyBytes (memoryBytes / workers)))
        .ok batches.flatten)

/-- Each key type is between one byte and a mebibyte wide. -/
theorem Enough.capacity_keyType {memoryBytes workers : Nat} (h : Enough memoryBytes workers)
    (bits : Nat) :
    withKeyType bits fun K _ => 1 ≤ keyBytes (memoryBytes / workers) / RadixKey.bytes K := by
  unfold withKeyType
  split <;> [skip; split <;> [skip; split]]
  all_goals exact h.capacity (by decide) (by decide)

/-- An integer sort of this size feeds its workers. -/
theorem IntegerSpool.fed (processors : Nat) (spool : IntegerSpool)
    {specifications : List IntegerIndexSpec} (hspecs : specifications ≠ [])
    {memoryBytes limit : Nat}
    (hmemory : workerOverhead + 2 * mib ≤ memoryBytes) (hlimit : 1 ≤ limit ∧ limit ≤ 4) :
    spool.Fed processors specifications memoryBytes limit := by
  have houter := enough_sortWorkers hmemory hlimit.1 processors specifications.length
  have hinner := enough_sortWorkers houter.share
    (show 0 < max (limit / min (sortWorkers processors specifications.length memoryBytes) limit) 1
      by omega)
    processors (runTasks spool.rows)
  refine ⟨_, _, houter, hinner, hinner.capacity_keyType, fun pageSize => ⟨?_, fun spec => ?_⟩⟩
  · rw [IntegerSpool.sortInner, if_neg (not_not.mpr hlimit), if_neg (by simpa using hspecs)]
    exact if_neg (Nat.not_lt.mpr houter.share)
  · have hshare := hinner.share
    rw [sortOne]
    congr 1
    funext codec
    rw [if_neg (by omega)]
    rfl

/-- So does a direct sort. -/
theorem IntegerSpool.directFed (processors : Nat) (spool : IntegerSpool)
    (specifications : List IntegerIndexSpec) {memoryBytes : Nat}
    (hmemory : workerOverhead + 2 * mib ≤ memoryBytes) :
    spool.DirectFed processors specifications memoryBytes := by
  have henough := enough_sortWorkers hmemory
    (one_le_sortWorkers processors specifications.length memoryBytes) processors
    specifications.length
  rw [Nat.min_self] at henough
  refine ⟨_, henough, henough.capacity_keyType, ?_⟩
  rw [IntegerSpool.writeDirectIndexes, if_neg (not_not.mpr rfl)]
  exact if_neg (Nat.not_lt.mpr henough.share)

end Velr.Sort

namespace Velr.TextIndex

open IndexStats (Failure)
open Velr.Sort (SortedIntegerIndex Enough mib workerOverhead)

/-! ## Text indexes -/

/-- `sort_inner`: the key width for the bytes of a codec. -/
def keyWidth (bytes : Nat) : Nat :=
  if bytes ≤ 16 then 16
  else if bytes ≤ 24 then 24
  else if bytes ≤ 32 then 32
  else if bytes ≤ 40 then 40
  else if bytes ≤ 48 then 48
  else if bytes ≤ 56 then 56
  else if bytes ≤ 64 then 64
  else if bytes ≤ 72 then 72
  else 80

/-- A key takes a byte at least, and no more than a worker has. -/
theorem keyWidth_bounds (bytes : Nat) : 0 < keyWidth bytes ∧ keyWidth bytes ≤ mib := by
  have hmib : mib = 1048576 := by decide
  rw [keyWidth, hmib]
  split_ifs <;> omega

/-- `sort_keys` -/
def sortKeysOf (processors N : Nat) (spool : TextSpool) (codec : TextCodec) (memoryBytes : Nat)
    (pageSize : Option Nat) (workerLimit : Nat) : Except Failure SortedIntegerIndex :=
  let workers :=
    min (Sort.sortWorkers processors (Sort.runTasks spool.rows) memoryBytes) workerLimit
  -- a subtraction that underflows panics
  if memoryBytes / workers < workerOverhead then .error .panic
  else
    sortKeys N spool codec (max (Sort.keyBytes (memoryBytes / workers) / N) 1) workers pageSize

/-- `TextSpool::sort_inner` -/
def TextSpool.sortInner (processors : Nat) (spool : TextSpool) (memoryBytes : Nat)
    (pageSize : Option Nat) (workerLimit : Nat) : Except Failure SortedIntegerIndex :=
  if ¬(1 ≤ workerLimit ∧ workerLimit ≤ 4) then
    .error (.error "text sort worker limit must be between one and four")
  else if memoryBytes < workerOverhead + 2 * mib then
    .error (.error "text index sorting needs at least 6 MiB")
  else do
    let codec ← TextCodec.new spool
    sortKeysOf processors (keyWidth codec.bytes) spool codec memoryBytes pageSize workerLimit

/-- A text sort whose run workers all have their 6 MiB. -/
def TextSpool.Fed (processors : Nat) (spool : TextSpool) (memoryBytes workerLimit : Nat) : Prop :=
  ∃ workers, Enough memoryBytes workers ∧
    (∀ bytes, 1 ≤ Sort.keyBytes (memoryBytes / workers) / keyWidth bytes) ∧
    ∀ pageSize, spool.sortInner processors memoryBytes pageSize workerLimit = (do
      let codec ← TextCodec.new spool
      sortKeys (keyWidth codec.bytes) spool codec
        (Sort.keyBytes (memoryBytes / workers) / keyWidth codec.bytes) workers pageSize)

/-- A text sort of this size feeds its workers. -/
theorem TextSpool.fed (processors : Nat) (spool : TextSpool) {memoryBytes limit : Nat}
    (hmemory : workerOverhead + 2 * mib ≤ memoryBytes) (hlimit : 1 ≤ limit ∧ limit ≤ 4) :
    spool.Fed processors memoryBytes limit := by
  have henough := Sort.enough_sortWorkers hmemory hlimit.1 processors (Sort.runTasks spool.rows)
  have hcapacity : ∀ bytes, 1 ≤ Sort.keyBytes (memoryBytes /
      min (Sort.sortWorkers processors (Sort.runTasks spool.rows) memoryBytes) limit)
        / keyWidth bytes :=
    fun bytes => henough.capacity (keyWidth_bounds bytes).1 (keyWidth_bounds bytes).2
  refine ⟨_, henough, hcapacity, fun pageSize => ?_⟩
  have hshare := henough.share
  rw [TextSpool.sortInner, if_neg (not_not.mpr hlimit), if_neg (Nat.not_lt.mpr hmemory)]
  congr 1
  funext codec
  rw [sortKeysOf, if_neg (by omega), Nat.max_eq_left (hcapacity codec.bytes)]

end Velr.TextIndex
