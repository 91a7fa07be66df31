import Mathlib.Algebra.Order.Ring.Nat
import Mathlib.Logic.Function.Basic
import Mathlib.Tactic.Common

/-!
# The index sampler

`IndexStatistics` of `index_stats.rs`. It takes the rows of a sorted index one by one, each given by
the first column that differs from the row before and a witness, and keeps at most 24 samples. The
counts of a sample that are not known when it is taken are zero until their prefix ends. An array of
`MAX_COLUMNS` is a function of the column. The counts are at most the number of rows, which is a
`u64`, and do not overflow.
-/

namespace Velr.IndexStats

/-- `MAX_COLUMNS` -/
def maxColumns : Nat := 8

/-- `SAMPLE_COUNT` -/
def sampleCount : Nat := 24

/-- `Sample` -/
structure Sample where
  equal : Nat → Nat
  less : Nat → Nat
  distinctLess : Nat → Nat
  witness : UInt64
  periodic : Bool
  column : Nat
  hash : UInt32

/-- `Sample::default` -/
def Sample.default : Sample where
  equal := fun _ => 0
  less := fun _ => 0
  distinctLess := fun _ => 0
  witness := 0
  periodic := false
  column := 0
  hash := 0

/-- `IndexSample` -/
structure IndexSample where
  witness : UInt64
  equal : List Nat
  less : List Nat
  distinctLess : List Nat
deriving DecidableEq

/-- `FullIndexStatistics` -/
structure FullIndexStatistics where
  stat1 : String
  samples : List IndexSample
deriving DecidableEq

/-- Why a call does not return a value: its error, or a panic. -/
inductive Failure where
  | error (message : String)
  | panic
deriving DecidableEq

/-- `IndexStatistics` -/
structure IndexStatistics where
  columns : Nat
  keyColumns : Nat
  expectedRows : Nat
  rows : Nat
  periodicInterval : Nat
  nextPeriodicRow : Nat
  random : UInt32
  current : Sample
  best : Nat → Sample
  samples : List Sample
  minimum : Nat
  maximumEqualZero : Nat

/-- Every how many rows a periodic sample is taken. -/
def interval (expectedRows : Nat) : Nat := expectedRows / (sampleCount / 3 + 1) + 1

/-- `new` -/
def IndexStatistics.new (columns keyColumns : Nat) (expectedRows : UInt64) :
    Except Failure IndexStatistics :=
  if columns = 0 ∨ maxColumns < columns ∨ keyColumns = 0 ∨ columns < keyColumns then
    .error (.error "invalid offline index statistics column count")
  else
    .ok
      { columns, keyColumns
        expectedRows := expectedRows.toNat
        rows := 0
        periodicInterval := interval expectedRows.toNat
        nextPeriodicRow := interval expectedRows.toNat
        random := (0x689e962d * columns.toUInt32) ^^^ (0xd0944565 * expectedRows.toUInt32)
        current := .default
        best := fun column =>
          if column < columns then { Sample.default with column } else .default
        samples := []
        minimum := 0
        maximumEqualZero := 0 }

namespace IndexStatistics

/-! ## The order of samples -/

/-- `better_after` -/
def betterAfter (st : IndexStatistics) (new old : Sample) : Bool :=
  let columns := List.range' (new.column + 1) (st.columns - (new.column + 1))
  match columns.find? fun column => new.equal column != old.equal column with
  | some column => old.equal column < new.equal column
  | none => old.hash < new.hash

/-- `better` -/
def better (st : IndexStatistics) (new old : Sample) : Bool :=
  let newEqual := new.equal new.column
  let oldEqual := old.equal old.column
  oldEqual < newEqual ||
    (newEqual == oldEqual &&
      (new.column < old.column || (new.column == old.column && st.betterAfter new old)))

/-- `find_minimum`: the loop. -/
def scanMinimum (st : IndexStatistics) :
    List (Sample × Nat) → Option (Sample × Nat) → Option (Sample × Nat)
  | [], minimum => minimum
  | (sample, index) :: samples, minimum =>
      if !sample.periodic && minimum.all fun previous => st.better previous.1 sample then
        st.scanMinimum samples (some (sample, index))
      else st.scanMinimum samples minimum

/-- `find_minimum` -/
def findMinimum (st : IndexStatistics) : Except Failure IndexStatistics :=
  if st.samples.length ≠ sampleCount then .ok st
  else
    match st.scanMinimum st.samples.zipIdx none with
    | some (_, minimum) => .ok { st with minimum }
    | none => .error .panic

/-! ## Inserting a sample -/

/-- `insert`: the loop that looks for the sample to upgrade; `none` where a periodic sample shares
the prefix. -/
def findUpgrade (st : IndexStatistics) (column : Nat) :
    List (Sample × Nat) → Option (Sample × Nat) → Option (Option (Sample × Nat))
  | [], upgrade => some upgrade
  | (old, index) :: samples, upgrade =>
      if old.equal column = 0 then
        if old.periodic then none
        else if upgrade.all fun previous => st.better old previous.1 then
          st.findUpgrade column samples (some (old, index))
        else st.findUpgrade column samples upgrade
      else st.findUpgrade column samples upgrade

/-- `insert`: a sample takes over the column of a new one. -/
def upgrade (old new : Sample) : Sample :=
  { old with
    column := new.column
    equal := Function.update old.equal new.column (new.equal new.column) }

/-- `insert`: without room the least sample goes. -/
def makeRoom (st : IndexStatistics) : Except Failure (List Sample) :=
  if st.samples.length = sampleCount then
    if st.minimum < st.samples.length then .ok (st.samples.eraseIdx st.minimum)
    else .error .panic
  else .ok st.samples

/-- `insert`: the counts that are not known yet. -/
def zeroed (new : Sample) (equalZero : Nat) : Sample :=
  { new with equal := fun column => if column < equalZero then 0 else new.equal column }

/-- `insert`: a new sample goes behind the others. The debug assertion holds their order. -/
def place (st : IndexStatistics) (new : Sample) (equalZero : Nat) :
    Except Failure IndexStatistics := do
  let samples ← st.makeRoom
  if samples.getLast?.all fun previous => previous.less (st.columns - 1) < new.less (st.columns - 1)
  then findMinimum { st with samples := samples ++ [zeroed new equalZero] }
  else .error .panic

/-- `insert` -/
def insert (st : IndexStatistics) (new : Sample) (equalZero : Nat) :
    Except Failure IndexStatistics :=
  let st := { st with maximumEqualZero := max st.maximumEqualZero equalZero }
  if new.periodic then st.place new equalZero
  else
    match st.findUpgrade new.column st.samples.zipIdx.reverse none with
    | none => .ok st
    | some none => st.place new equalZero
    | some (some (old, index)) =>
        findMinimum { st with samples := st.samples.set index (upgrade old new) }

/-! ## The end of a prefix -/

/-- `push_previous`: the best row of a prefix that has ended. -/
def ended (st : IndexStatistics) (column : Nat) : Sample :=
  { st.best column with
    equal := Function.update (st.best column).equal column (st.current.equal column) }

/-- `push_previous`: a sample that is inserted where there is room or it is better than the
least. -/
def offer (st : IndexStatistics) (sample : Sample) (column : Nat) :
    Except Failure IndexStatistics :=
  if st.samples.length < sampleCount then st.insert sample column
  else
    match st.samples[st.minimum]? with
    | none => .error .panic
    | some least => if st.better sample least then st.insert sample column else .ok st

/-- `push_previous`: one column, whose prefix has ended. -/
def promote (st : IndexStatistics) (column : Nat) : Except Failure IndexStatistics :=
  offer { st with best := Function.update st.best column (st.ended column) } (st.ended column)
    column

/-- `push_previous`: the columns below a bound, down to `changed`. -/
def promoteColumns (changed : Nat) : Nat → IndexStatistics → Except Failure IndexStatistics
  | 0, st => .ok st
  | column + 1, st =>
      if changed ≤ column then do
        let st ← st.promote column
        promoteColumns changed column st
      else .ok st

/-- `push_previous`: the counts of a sample whose prefixes have ended. -/
def complete (st : IndexStatistics) (changed : Nat) (sample : Sample) : Sample :=
  { sample with
    equal := fun column =>
      if changed ≤ column ∧ column < st.columns ∧ sample.equal column = 0 then
        st.current.equal column
      else sample.equal column }

/-- `push_previous` -/
def pushPrevious (st : IndexStatistics) (changed : Nat) : Except Failure IndexStatistics := do
  let st ← promoteColumns changed (st.columns - 1) st
  if changed < st.maximumEqualZero then
    .ok { st with samples := st.samples.map (st.complete changed), maximumEqualZero := changed }
  else .ok st

/-! ## Rows -/

/-- `push`: the counts of the new row. -/
def advance (st : IndexStatistics) (firstChanged : Nat) : Sample :=
  { st.current with
    equal := fun column =>
      if column < firstChanged then st.current.equal column + 1
      else if column < st.columns then 1
      else st.current.equal column
    less := fun column =>
      if firstChanged ≤ column ∧ column < st.columns then
        st.current.less column + st.current.equal column
      else st.current.less column
    distinctLess := fun column =>
      if firstChanged ≤ column ∧ column < st.columns then st.current.distinctLess column + 1
      else st.current.distinctLess column }

/-- `push`: a row whose number is due becomes a periodic sample. -/
def takePeriodic (st : IndexStatistics) : Except Failure IndexStatistics :=
  if st.rows = st.nextPeriodicRow then
    let next := st.nextPeriodicRow + st.periodicInterval
    let st :=
      { st with
        nextPeriodicRow := if next < 2 ^ 64 then next else 0
        current := { st.current with column := 0 } }
    st.insert { st.current with periodic := true } (st.columns - 1)
  else .ok st

/-- `push`: the best row of each prefix. -/
def improve (st : IndexStatistics) (firstChanged : Nat) : IndexStatistics :=
  { st with
    best := fun column =>
      let new := { st.current with column }
      if column < st.columns - 1 ∧
          (firstChanged ≤ column ∨ st.betterAfter new (st.best column) = true) then new
      else st.best column }

/-- `push`: the row is the current one, with its counts. -/
def setCurrent (st : IndexStatistics) (current : Sample) (witness : UInt64) : IndexStatistics :=
  let random := st.random * 1103515245 + 12345
  { st with
    rows := st.rows + 1
    random
    current := { current with witness, hash := random } }

/-- `push` -/
def push (st : IndexStatistics) (firstChanged : Nat) (witness : UInt64) :
    Except Failure IndexStatistics := do
  if st.columns ≤ firstChanged ∨ st.expectedRows ≤ st.rows then
    .error (.error "invalid offline index statistics stream")
  else
    let st ←
      if st.rows = 0 then
        if firstChanged ≠ 0 then
          .error (.error "first offline index statistics key must change field zero")
        else
          .ok (st.setCurrent
            { st.current with
              equal := fun column => if column < st.columns then 1 else st.current.equal column }
            witness)
      else do
        let st ← st.pushPrevious firstChanged
        .ok (st.setCurrent (st.advance firstChanged) witness)
    let st ← st.takePeriodic
    .ok (st.improve firstChanged)

/-! ## The result -/

/-- `finish`: the rows of each distinct prefix, rounded up. -/
def average (rows distinct : Nat) : Nat :=
  let average := rows / distinct + if rows % distinct ≠ 0 then 1 else 0
  if average = 2 ∧ rows * 10 ≤ distinct * 11 then 1 else average

/-- `finish`: an `IndexSample` of a sample. -/
def exported (st : IndexStatistics) (sample : Sample) : IndexSample where
  witness := sample.witness
  equal := (List.range st.columns).map sample.equal
  less := (List.range st.columns).map sample.less
  distinctLess := (List.range st.columns).map sample.distinctLess

/-- `finish` -/
def finish (st : IndexStatistics) : Except Failure FullIndexStatistics := do
  if st.rows ≠ st.expectedRows then
    .error (.error "offline index statistics stream has an unexpected row count")
  else
    let averages := (List.range st.keyColumns).map fun column =>
      average st.rows (st.current.distinctLess column + 1)
    let stat1 := String.join (toString st.rows :: averages.map fun n => " " ++ toString n)
    let st ← if st.rows ≠ 0 then st.pushPrevious 0 else .ok st
    .ok { stat1, samples := st.samples.map st.exported }

/-- Every row of a stream, pushed in order. -/
def pushAll (st : IndexStatistics) : List (Nat × UInt64) → Except Failure IndexStatistics
  | [] => .ok st
  | (firstChanged, witness) :: stream => do
      let st ← st.push firstChanged witness
      st.pushAll stream

end IndexStatistics

/-- The statistics of a stream. -/
def analyze (columns keyColumns : Nat) (expectedRows : UInt64) (stream : List (Nat × UInt64)) :
    Except Failure FullIndexStatistics := do
  let st ← IndexStatistics.new columns keyColumns expectedRows
  let st ← st.pushAll stream
  st.finish

end Velr.IndexStats
