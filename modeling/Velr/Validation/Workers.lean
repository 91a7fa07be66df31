import Mathlib.Algebra.Order.BigOperators.Group.List
import Mathlib.Data.PNat.Basic
import Velr.Common.WorkerPool
import Velr.Validation.ForeignKeys
import Velr.Validation.Partition

/-!
# Validating a database

`validate` of `validation.rs`: the ownership of the pages, the integrity check of each table and the
foreign keys of each table are jobs of up to six workers, which share a counter and the first
failure and divide a budget of memory for their page caches. The file does not change while they
run. What SQLite reports of the file is a parameter, and where `faults` holds any statement or read
may fail by itself. In whatever order the workers' steps come, the verdict is that of all the checks
(`validate_exact`), the caches fit the budget (`caches_fit`), and the workers come to an end
(`validation_ends`).
-/

namespace Velr.Validation

open ByteString Record
open IndexStats (Failure)
open Concurrency (Run)
open WorkerPool (Duty Event Outcome Pool Step Worker)

/-! ## What SQLite reports -/

/-- The file and what SQLite reports of it: whether `dbstat` is there, the names and the roots of
`sqlite_schema`, and the rows of `PRAGMA main.quick_check` for a table or for all. -/
structure Snapshot where
  bytes : Bytes
  dbstat : Bool
  tables : List String
  roots : List Nat
  integrity : Option String → List String
  database : Database
  comparison : Comparison

/-- `error` -/
def sqlError (text : String) : String := s!"offline import validation error: {text}"

/-- The rows of an integrity check that finds nothing. -/
def Intact (rows : List String) : Prop := rows ≠ [] ∧ ∀ row ∈ rows, row = "ok"

/-- `quick_check` -/
def quickCheck (s : Snapshot) (table : Option String) : Except String Unit :=
  match (s.integrity table).find? (· ≠ "ok") with
  | some result =>
      let place := (table.map fun name => " for " ++ name).getD ""
      .error s!"database failed integrity check{place}: {result}"
  | none =>
      if (s.integrity table).isEmpty then .error "database integrity check returned no result"
      else .ok ()

/-- The query for `pragma_foreign_key_list`. -/
def hasForeignKeys (db : Database) (name : String) : Bool :=
  !((db.table name).map Table.foreignKeys |>.getD []).isEmpty

/-- No row of a table is an orphan. -/
def KeysHold (s : Snapshot) (name : String) : Prop :=
  ∀ table, s.database.table name = some table →
    ∀ fk ∈ table.foreignKeys, ∀ row ∈ table.rows, orphan s.comparison s.database fk row = false

/-- `foreign_key_check`: it names a table with an orphan, if there is one. -/
inductive ForeignKeyCheck (s : Snapshot) : Except String Unit → Prop where
  | ok : (∀ name ∈ s.tables, KeysHold s name) → ForeignKeyCheck s (.ok ())
  | error {name} : name ∈ s.tables → ¬KeysHold s name →
      ForeignKeyCheck s (.error s!"database failed foreign-key validation in {name}")

/-! ## The jobs -/

/-- `Job` -/
inductive Job where
  | ownership
  | foreignKeys (table : String) (plan : ForeignKeyPlan)
  | table (name : String)
deriving DecidableEq

/-- The key of `tables.sort_by_key`. -/
def tableRank : String → Nat
  | "edge" => 0
  | "node_property" => 1
  | "edge_property" => 2
  | "node" => 3
  | _ => 4

/-- `validate`: the tables, those that are large first; the sort is stable. -/
def sortedTables (s : Snapshot) : List String :=
  (s.tables ++ ["sqlite_schema"]).mergeSort fun a b => tableRank a ≤ tableRank b

/-- `validate`: the tables with foreign keys, and their plans. -/
def foreignTables (s : Snapshot) : List (String × ForeignKeyPlan) :=
  foreignKeyPlans s.database ((sortedTables s).filter (hasForeignKeys s.database)) []

def hotQuick (table : String) : Bool := table ∈ ["edge", "node_property", "edge_property"]

def hotForeign (table : String) : Bool := table ∈ ["edge", "node_property"]

/-- `validate`: the jobs in their order. -/
def jobsOf (s : Snapshot) : List Job :=
  [.ownership] ++ ((sortedTables s).filter hotQuick).map .table ++
    ((foreignTables s).filter fun found => hotForeign found.1).map (fun found =>
      .foreignKeys found.1 found.2) ++
    ((foreignTables s).filter fun found => !hotForeign found.1).map (fun found =>
      .foreignKeys found.1 found.2) ++
    ((sortedTables s).filter fun table => !hotQuick table).map .table

/-! ## The budget -/

def mib : Nat := 1024 * 1024

def maxWorkers : Nat := 6

/-- `saturating_add` and `saturating_mul` of a `usize`. -/
def saturate (n : Nat) : Nat := min n (2 ^ 64 - 1)

/-- `validate`: the memory that is not for page caches. -/
def reserve (header : DatabaseHeader) : Nat :=
  saturate (saturate (saturate (header.bitmapBytes * (maxWorkers + 1)) + 2 * blockBytes) +
    header.pageSize * maxTreeDepth * 4)

/-- `validate`: whether the checks are divided. -/
def Divided (s : Snapshot) (header : DatabaseHeader) (budget : Nat) : Prop :=
  s.dbstat ∧ header.ordinaryPages ∧ 16 * mib ≤ budget ∧ 8 * mib ≤ budget - reserve header

instance (s : Snapshot) (header : DatabaseHeader) (budget : Nat) :
    Decidable (Divided s header budget) :=
  inferInstanceAs (Decidable (_ ∧ _ ∧ _ ∧ _))

/-- `validate`: the number of workers. -/
def workerCount (s : Snapshot) (parallelism : ℕ+) : Nat :=
  min (min parallelism maxWorkers) (jobsOf s).length

/-- `foreign_cache` -/
def foreignCache (s : Snapshot) (header : DatabaseHeader) (budget : Nat) (parallelism : ℕ+) : Nat :=
  min ((budget - reserve header) / workerCount s parallelism) (64 * mib)

/-- `table_cache` -/
def tableCache (s : Snapshot) (header : DatabaseHeader) (budget : Nat) (parallelism : ℕ+) : Nat :=
  min (foreignCache s header budget parallelism) (4 * mib)

/-- What `PRAGMA main.cache_size` sets, in KiB. -/
def cacheSize (bytes : Nat) : Nat := max (bytes / 1024) 16

/-! ## The workers -/

/-- Where a worker is in a job: before its check, at it, or behind it. -/
inductive Phase where
  | before
  | check
  | behind
deriving DecidableEq

/-- The connection of a worker, with its cache in KiB, and where it is in its job. -/
structure Connection where
  cache : Nat
  phase : Phase

/-- What the check of a job comes to. -/
inductive Check (s : Snapshot) (header : DatabaseHeader) : Job → Except Failure Unit → Prop where
  | ownership (short short' : Nat → Nat) :
      Check s header .ownership (rawPageOwnership s.bytes short short' header s.roots)
  | foreignKeys (table : String) (plan : ForeignKeyPlan) :
      Check s header (.foreignKeys table plan)
        ((foreignKeyCheckPlan s.comparison s.database table plan).mapError .error)
  | table (name : String) :
      Check s header (.table name) ((quickCheck s (some name)).mapError .error)

/-- The cache that a job sets before its check. -/
def jobCache (foreign table : Nat) (own : Connection) : Job → Nat
  | .ownership => 16
  | .foreignKeys _ (.dense _) => cacheSize table
  | .foreignKeys _ .native => cacheSize foreign
  | .table _ => own.cache

/-- The cache that a job leaves. -/
def leftCache (table : Nat) (own : Connection) : Job → Nat
  | .ownership | .foreignKeys .. => cacheSize table
  | .table _ => own.cache

/-- The closure of a worker. A connection is closed where a job fails. -/
inductive Act (s : Snapshot) (header : DatabaseHeader) (foreign table : Nat) (job : Job) :
    Connection → Connection → Prop where
  | before {own : Connection} : own.phase = .before →
      Act s header foreign table job own ⟨jobCache foreign table own job, .check⟩
  | check {own : Connection} : own.phase = .check → Check s header job (.ok ()) →
      Act s header foreign table job own { own with phase := .behind }

/-- How a job of a worker ends. -/
inductive Finish (s : Snapshot) (header : DatabaseHeader) (table : Nat) (faults : Prop)
    (job : Job) : Connection → Outcome Connection String → Prop where
  | done {own : Connection} : own.phase = .behind →
      Finish s header table faults job own (.done ⟨leftCache table own job, .before⟩)
  | error {own : Connection} {message : String} : own.phase = .check →
      Check s header job (.error (.error message)) →
      Finish s header table faults job own (.error message)
  | panic {own : Connection} : own.phase = .check → Check s header job (.error .panic) →
      Finish s header table faults job own .panic
  | fault {own : Connection} {text : String} : faults →
      Finish s header table faults job own (.error (sqlError text))

/-- How `open` ends. -/
inductive Enter (table : Nat) (faults : Prop) : Outcome Connection String → Prop where
  | done : Enter table faults (.done ⟨cacheSize table, .before⟩)
  | fault {text : String} : faults → Enter table faults (.error (sqlError text))

/-- What the workers of `validate` do. -/
def validationDuty (s : Snapshot) (header : DatabaseHeader) (foreign table : Nat) (faults : Prop) :
    Duty Job Connection String where
  enter := Enter table faults
  begin _ own := { own with phase := .before }
  act := Act s header foreign table
  finish := Finish s header table faults

/-- The steps of the workers of `validate` and of who waits for them. -/
def ValidationStep (s : Snapshot) (header : DatabaseHeader) (budget : Nat) (parallelism : ℕ+)
    (faults : Prop) :
    Pool Job Connection String → Option (Event Job Connection String) →
      Pool Job Connection String → Prop :=
  Step (validationDuty s header (foreignCache s header budget parallelism)
    (tableCache s header budget parallelism) faults) (jobsOf s)
    "offline import validation worker panicked"

/-- A run of the workers. -/
abbrev ValidationRun (s : Snapshot) (header : DatabaseHeader) (budget : Nat) (parallelism : ℕ+)
    (faults : Prop) (log : List (Event Job Connection String))
    (pool : Pool Job Connection String) : Prop :=
  Run (ValidationStep s header budget parallelism faults) (.start (workerCount s parallelism)) log
    pool

/-- `validate`: the budget is at least 64 KiB. -/
def leastBudget (budget : Nat) : Nat := max budget (64 * 1024)

/-- `validate` -/
inductive Validates (s : Snapshot) (budget : Nat) (parallelism : ℕ+) (faults : Prop) :
    Except Failure Unit → Prop where
  | header {short failure} : DatabaseHeader.read (.open s.bytes short) = .error failure →
      Validates s budget parallelism faults (.error failure)
  | fault {text : String} : faults →
      Validates s budget parallelism faults (.error (.error (sqlError text)))
  | integrity {short header message} : DatabaseHeader.read (.open s.bytes short) = .ok header →
      ¬Divided s header (leastBudget budget) → quickCheck s none = .error message →
      Validates s budget parallelism faults (.error (.error message))
  | whole {short header result} : DatabaseHeader.read (.open s.bytes short) = .ok header →
      ¬Divided s header (leastBudget budget) → quickCheck s none = .ok () →
        ForeignKeyCheck s result →
      Validates s budget parallelism faults (result.mapError .error)
  | divided {short header log pool} : DatabaseHeader.read (.open s.bytes short) = .ok header →
      Divided s header (leastBudget budget) →
      ValidationRun s header (leastBudget budget) parallelism faults log pool →
      pool.Over →
      Validates s budget parallelism faults
        (match pool.shared.failed with
          | some problem => .error (.error problem)
          | none => .ok ())

/-! ## The checks -/

/-- `quick_check` succeeds exactly if the table is intact. -/
theorem quickCheck_ok_iff {s : Snapshot} {table : Option String} :
    quickCheck s table = .ok () ↔ Intact (s.integrity table) := by
  rw [quickCheck, Intact]
  cases hfind : (s.integrity table).find? (· ≠ "ok") with
  | some result =>
      refine ⟨nofun, fun h => ?_⟩
      have hne := List.find?_some hfind
      rw [decide_eq_true_eq] at hne
      exact absurd (h.2 result (List.mem_of_find?_eq_some hfind)) hne
  | none =>
      have hall : ∀ row ∈ s.integrity table, row = "ok" := by simpa using hfind
      cases hrows : s.integrity table with
      | nil => exact ⟨nofun, fun h => absurd rfl h.1⟩
      | cons row rows =>
          rw [hrows] at hall
          exact ⟨fun _ => ⟨List.cons_ne_nil _ _, hall⟩, fun _ => rfl⟩

/-- The native check of a table succeeds exactly if its keys hold. -/
theorem foreignKeyCheckTable_holds {s : Snapshot} {name : String} :
    foreignKeyCheckTable s.comparison s.database name = .ok () ↔ KeysHold s name := by
  cases htable : s.database.table name with
  | none =>
      rw [foreignKeyCheckTable, htable]
      refine ⟨fun _ table h => ?_, fun _ => rfl⟩
      rw [htable] at h
      cases h
  | some table =>
      rw [foreignKeyCheckTable_ok_iff htable]
      refine ⟨fun h found hfound => ?_, fun h => h table htable⟩
      rw [htable] at hfound
      cases hfound
      exact h

/-- The plan of a table decides as its native check does. -/
theorem foreignKeyCheckPlan_holds (s : Snapshot) (name : String) :
    foreignKeyCheckPlan s.comparison s.database name (planOf s.database name) = .ok () ↔
      KeysHold s name := by
  cases hplan : planOf s.database name with
  | native => exact foreignKeyCheckTable_holds
  | dense predicates =>
      rw [foreignKeyCheckPlan]
      split
      case isTrue => exact foreignKeyCheckTable_holds
      case isFalse hneeds =>
        obtain ⟨table, htable, hseq, hguards⟩ := planOf_dense hplan
        have hpresent := present_of_dense (c := s.comparison) htable hseq hguards
          (Bool.eq_false_iff.mpr hneeds)
        refine ⟨fun _ found hfound fk hfk row hrow => ?_, fun _ => rfl⟩
        rw [htable] at hfound
        cases hfound
        exact (hpresent fk hfk row hrow).1

/-- What a job checks. -/
def Job.Holds (s : Snapshot) (header : DatabaseHeader) : Job → Prop
  | .ownership => ∃ refs, References header s.bytes s.roots refs ∧
      refs.Perm (List.range' 1 header.pages)
  | .foreignKeys name _ => KeysHold s name
  | .table name => Intact (s.integrity (some name))

/-! ## The jobs are the checks -/

/-- The tables that are checked. -/
def checkedTables (s : Snapshot) : List String := s.tables ++ ["sqlite_schema"]

/-- The checks of a file, in no order: the pages, each table, and the foreign keys of each table
that has some. -/
def checksOf (s : Snapshot) : List Job :=
  .ownership :: ((checkedTables s).map .table ++
    ((checkedTables s).filter (hasForeignKeys s.database)).map fun name =>
      .foreignKeys name (planOf s.database name))

/-- The foreign-key jobs are the tables with foreign keys, in the order of the tables, each with its
plan. -/
theorem foreignTables_eq (s : Snapshot) :
    foreignTables s = ((sortedTables s).filter (hasForeignKeys s.database)).map fun name =>
      (name, planOf s.database name) :=
  foreignKeyPlans_eq (cached_nil _)

/-- The order of the jobs leaves none out and repeats none. -/
theorem jobsOf_perm (s : Snapshot) : (jobsOf s).Perm (checksOf s) := by
  have hsorted : (sortedTables s).Perm (checkedTables s) := List.mergeSort_perm ..
  have htables : (((sortedTables s).filter hotQuick).map Job.table ++
      ((sortedTables s).filter fun table => !hotQuick table).map Job.table).Perm
      ((checkedTables s).map .table) := by
    rw [← List.map_append]
    exact ((List.filter_append_perm ..).trans hsorted).map _
  have hkeys : (((foreignTables s).filter fun found => hotForeign found.1).map
        (fun found => Job.foreignKeys found.1 found.2) ++
      ((foreignTables s).filter fun found => !hotForeign found.1).map
        fun found => Job.foreignKeys found.1 found.2).Perm
      (((checkedTables s).filter (hasForeignKeys s.database)).map fun name =>
        .foreignKeys name (planOf s.database name)) := by
    rw [← List.map_append]
    refine ((List.filter_append_perm ..).map _).trans ?_
    rw [foreignTables_eq, List.map_map]
    exact (hsorted.filter _).map _
  rw [jobsOf, checksOf]
  simp only [List.append_assoc, List.singleton_append]
  refine List.Perm.cons _ (List.Perm.trans ?_ (htables.append hkeys))
  rw [List.append_assoc]
  refine List.Perm.append_left _ ?_
  rw [← List.append_assoc]
  exact List.perm_append_comm

/-- All the checks hold. -/
structure Passes (s : Snapshot) (header : DatabaseHeader) : Prop where
  pages : ∃ refs, References header s.bytes s.roots refs ∧
    refs.Perm (List.range' 1 header.pages)
  tables : ∀ name ∈ checkedTables s, Intact (s.integrity (some name))
  keys : ∀ name ∈ checkedTables s, KeysHold s name

/-- A table without foreign keys has no orphan. -/
theorem keysHold_of_not_hasForeignKeys {s : Snapshot} {name : String}
    (h : ¬hasForeignKeys s.database name) : KeysHold s name := by
  intro table htable fk hfk
  rw [hasForeignKeys, htable, Option.map_some, Option.getD_some, Bool.not_eq_true',
    Bool.not_eq_false, List.isEmpty_iff] at h
  rw [h] at hfk
  cases hfk

/-- The jobs by their checks. -/
theorem mem_jobsOf {s : Snapshot} {job : Job} :
    job ∈ jobsOf s ↔ job = .ownership ∨ (∃ name ∈ checkedTables s, job = .table name) ∨
      ∃ name ∈ checkedTables s, hasForeignKeys s.database name ∧
        job = .foreignKeys name (planOf s.database name) := by
  rw [(jobsOf_perm s).mem_iff, checksOf]
  simp only [List.mem_cons, List.mem_append, List.mem_map, List.mem_filter, and_assoc,
    eq_comm (b := job)]

/-- A database passes exactly if every job does. -/
theorem passes_iff {s : Snapshot} {header : DatabaseHeader} :
    Passes s header ↔ ∀ job ∈ jobsOf s, job.Holds s header := by
  constructor
  · intro hpasses job hjob
    rcases mem_jobsOf.mp hjob with rfl | ⟨name, hname, rfl⟩ | ⟨name, hname, -, rfl⟩
    · exact hpasses.pages
    · exact hpasses.tables name hname
    · exact hpasses.keys name hname
  · intro hholds
    refine ⟨hholds _ (mem_jobsOf.mpr (.inl rfl)), fun name hname => ?_, fun name hname => ?_⟩
    · exact hholds _ (mem_jobsOf.mpr (.inr (.inl ⟨name, hname, rfl⟩)))
    · by_cases hkeys : hasForeignKeys s.database name
      · exact hholds _ (mem_jobsOf.mpr (.inr (.inr ⟨name, hname, hkeys, rfl⟩)))
      · exact keysHold_of_not_hasForeignKeys hkeys

/-- The check of a job does not panic, and it succeeds exactly where the job holds. -/
theorem Check.exact {s : Snapshot} {header : DatabaseHeader} {job : Job}
    {result : Except Failure Unit} (hreads : header.Reads s.bytes) (hjob : job ∈ jobsOf s)
    (h : Check s header job result) :
    result ≠ .error .panic ∧ (result = .ok () ↔ job.Holds s header) := by
  have hlift : ∀ {x : Except String Unit} {p : Prop}, (x = .ok () ↔ p) →
      x.mapError Failure.error ≠ .error .panic ∧ (x.mapError Failure.error = .ok () ↔ p) := by
    intro x p hx
    rw [← hx]
    cases x with
    | error message => exact ⟨nofun, nofun, nofun⟩
    | ok _ => exact ⟨nofun, fun _ => rfl, fun _ => rfl⟩
  cases h with
  | ownership short short' => exact hreads.rawPageOwnership short short' s.roots
  | foreignKeys table plan =>
      rcases mem_jobsOf.mp hjob with hjob | ⟨name, -, hjob⟩ | ⟨name, -, -, hjob⟩
      · cases hjob
      · cases hjob
      · cases hjob
        exact hlift (foreignKeyCheckPlan_holds s _)
  | table name => exact hlift quickCheck_ok_iff

/-! ## The verdict -/

section

variable {s : Snapshot} {header : DatabaseHeader} {budget foreign table : Nat} {parallelism : ℕ+}
  {faults : Prop} {log : List (Event Job Connection String)} {pool : Pool Job Connection String}

/-- The cache of a connection is bounded, and behind a check the check has succeeded. -/
def Kept (s : Snapshot) (header : DatabaseHeader) (foreign : Nat) :
    Option Job → Connection → Prop
  | none, own => own.cache ≤ cacheSize foreign
  | some job, own => own.cache ≤ cacheSize foreign ∧
      (own.phase = .behind → Check s header job (.ok ()))

theorem cacheSize_mono {bytes bytes' : Nat} (h : bytes ≤ bytes') :
    cacheSize bytes ≤ cacheSize bytes' :=
  max_le_max_right _ (Nat.div_le_div_right h)

/-- A job takes no more cache than a foreign-key check. -/
theorem jobCache_le (htable : table ≤ foreign) {own : Connection}
    (h : own.cache ≤ cacheSize foreign) (job : Job) :
    jobCache foreign table own job ≤ cacheSize foreign := by
  cases job with
  | ownership => exact le_max_right _ _
  | table name => exact h
  | foreignKeys name plan =>
      cases plan with
      | native => exact Nat.le_refl _
      | dense predicates => exact cacheSize_mono htable

/-- Neither does what it leaves. -/
theorem leftCache_le (htable : table ≤ foreign) {own : Connection}
    (h : own.cache ≤ cacheSize foreign) (job : Job) :
    leftCache table own job ≤ cacheSize foreign := by
  cases job with
  | ownership | foreignKeys name plan => exact cacheSize_mono htable
  | table name => exact h

/-- A worker keeps its connection within its share. -/
theorem validationDuty_keeps (htable : table ≤ foreign) :
    (validationDuty s header foreign table faults).Keeps (Kept s header foreign) where
  enter henter := by
    cases henter with
    | done => exact cacheSize_mono htable
  begin hkept := ⟨hkept, nofun⟩
  act hkept hact := by
    cases hact with
    | before => exact ⟨jobCache_le htable hkept.1 _, nofun⟩
    | check _ hcheck => exact ⟨hkept.1, fun _ => hcheck⟩
  finish hkept hfinish := by
    cases hfinish with
    | done => exact leftCache_le htable hkept.1 _

/-- There is a worker at least. -/
theorem workerCount_pos (s : Snapshot) (parallelism : ℕ+) : 0 < workerCount s parallelism := by
  have hjobs : (jobsOf s).length = (checksOf s).length := (jobsOf_perm s).length_eq
  rw [checksOf, List.length_cons] at hjobs
  have hparallelism := parallelism.pos
  rw [workerCount, maxWorkers]
  omega

/-- What is known of a run of the workers. -/
theorem validationRun_kept (h : ValidationRun s header budget parallelism faults log pool) :
    (∀ w ∈ pool.workers, w.Holds (jobsOf s)
      (Kept s header (foreignCache s header budget parallelism))) ∧
    ∀ e ∈ log, e.Comes (validationDuty s header (foreignCache s header budget parallelism)
      (tableCache s header budget parallelism) faults) (jobsOf s)
      (Kept s header (foreignCache s header budget parallelism)) :=
  WorkerPool.kept_of_run (validationDuty_keeps (Nat.min_le_left ..)) h

/-- Without a failure at the end, every job holds. -/
theorem holds_of_no_failure (hreads : header.Reads s.bytes)
    (h : ValidationRun s header budget parallelism faults log pool) (hover : pool.Over)
    (hnone : pool.shared.failed = none) : ∀ job ∈ jobsOf s, job.Holds s header := by
  obtain ⟨hfails, hjobs⟩ := WorkerPool.verdict (validationDuty_keeps (Nat.min_le_left ..)) h hover
    (workerCount_pos s parallelism)
  intro job hjob
  obtain ⟨event, hevent, hindex⟩ := List.mem_filterMap.mp ((hjobs hnone).mem_iff.mpr hjob)
  have hcomes := (validationRun_kept h).2 event hevent
  have hdone := hfails.mp hnone event hevent
  cases event with
  | entered outcome => cases hindex
  | ended index job' outcome =>
      cases hindex
      obtain ⟨-, own, hkept, hfinish⟩ := hcomes
      cases hfinish with
      | done hphase => exact ((hkept.2 hphase).exact hreads hjob).2.mp rfl
      | error | panic | fault => exact absurd trivial hdone

/-- Where every job holds and nothing fails by itself, there is no failure. -/
theorem no_failure_of_holds (hreads : header.Reads s.bytes)
    (h : ValidationRun s header budget parallelism faults log pool) (hover : pool.Over)
    (hfaults : ¬faults) (hholds : ∀ job ∈ jobsOf s, job.Holds s header) :
    pool.shared.failed = none := by
  refine (WorkerPool.verdict (validationDuty_keeps (Nat.min_le_left ..)) h hover
    (workerCount_pos s parallelism)).1.mpr fun event hevent hfails => ?_
  have hcomes := (validationRun_kept h).2 event hevent
  cases event with
  | entered outcome =>
      cases hcomes with
      | done => exact hfails
      | fault hfault => exact hfaults hfault
  | ended index job outcome =>
      obtain ⟨hjob, own, -, hfinish⟩ := hcomes
      have hmem := List.mem_of_getElem? hjob
      cases hfinish with
      | done => exact hfails
      | error _ hcheck => cases (hcheck.exact hreads hmem).2.mpr (hholds job hmem)
      | panic _ hcheck => exact (hcheck.exact hreads hmem).1 rfl
      | fault hfault => exact hfaults hfault

/-- Reading the header does not panic. -/
theorem DatabaseHeader.read_ne_panic (bytes : Bytes) (short : Nat → Nat) :
    DatabaseHeader.read (.open bytes short) ≠ .error .panic := by
  rw [DatabaseHeader.read_open, DatabaseHeader.parse]
  dsimp only
  generalize (if ofBE (slice (bytes.take 100) 16 2) = 1 then 65536
    else ofBE (slice (bytes.take 100) 16 2)) = pageSize
  intro h
  split at h
  case isTrue => cases h
  case isFalse =>
    split at h
    case isTrue => cases h
    case isFalse =>
      split at h
      case isTrue => cases h
      case isFalse =>
        split at h
        case isTrue => cases h
        case isFalse => cases h

/-- What `validate` decides of a file. -/
def Sound (s : Snapshot) (budget : Nat) : Prop :=
  ∃ short header, DatabaseHeader.read (.open s.bytes short) = .ok header ∧
    if Divided s header (leastBudget budget) then Passes s header
    else Intact (s.integrity none) ∧ ∀ name ∈ s.tables, KeysHold s name

/-- A database is sound if it passes where the checks are divided, and otherwise by the whole
checks. -/
theorem sound_iff {short : Nat → Nat}
    (h : DatabaseHeader.read (.open s.bytes short) = .ok header) :
    Sound s budget ↔ if Divided s header (leastBudget budget) then Passes s header
      else Intact (s.integrity none) ∧ ∀ name ∈ s.tables, KeysHold s name := by
  refine ⟨fun ⟨short', header', h', hsound⟩ => ?_, fun hsound => ⟨short, header, h, hsound⟩⟩
  rw [DatabaseHeader.read_open] at h h'
  rw [h] at h'
  cases h'
  exact hsound

end

/-- However many workers there are and in whatever order they take their steps, a file is accepted
only if its pages have one owner each, every table is intact and no row is an orphan (where the
checks are not divided: if SQLite finds nothing). Such a file is accepted unless a statement or a
read fails by itself. -/
theorem validate_exact {s : Snapshot} {budget : Nat} {parallelism : ℕ+} {faults : Prop}
    {result : Except Failure Unit} (h : Validates s budget parallelism faults result) :
    result ≠ .error .panic ∧ (result = .ok () → Sound s budget) ∧
      (¬faults → Sound s budget → result = .ok ()) := by
  cases h with
  | @header short failure hread =>
      refine ⟨?_, nofun, fun _ hsound => ?_⟩
      · rintro ⟨⟩
        exact DatabaseHeader.read_ne_panic _ _ hread
      · obtain ⟨short', header, hread', -⟩ := hsound
        rw [DatabaseHeader.read_open] at hread hread'
        rw [hread] at hread'
        cases hread'
  | fault hfault => exact ⟨nofun, nofun, fun hfaults => absurd hfault hfaults⟩
  | integrity hread hwhole hcheck =>
      refine ⟨nofun, nofun, fun _ hsound => ?_⟩
      rw [sound_iff hread, if_neg hwhole] at hsound
      rw [quickCheck_ok_iff.mpr hsound.1] at hcheck
      cases hcheck
  | whole hread hwhole hcheck hkeys =>
      rw [sound_iff hread, if_neg hwhole]
      cases hkeys with
      | ok hkeys => exact ⟨nofun, fun _ => ⟨quickCheck_ok_iff.mp hcheck, hkeys⟩, fun _ _ => rfl⟩
      | error hname hkeys => exact ⟨nofun, nofun, fun _ hsound => absurd (hsound.2 _ hname) hkeys⟩
  | @divided short header log pool hread hdivided hrun hover =>
      have hreads := DatabaseHeader.reads hread
      rw [sound_iff hread, if_pos hdivided, passes_iff]
      cases hfailed : pool.shared.failed with
      | none =>
          exact ⟨nofun, fun _ => holds_of_no_failure hreads hrun hover hfailed, fun _ _ => rfl⟩
      | some problem =>
          refine ⟨nofun, nofun, fun hfaults hholds => ?_⟩
          rw [no_failure_of_holds hreads hrun hover hfaults hholds] at hfailed
          cases hfailed

/-- Three nodes, a property of the second one, and an edge from the first to it. -/
def sampleTables : Database := fun name =>
  if name = "node" then some {
    name := "node", ordinary := true, keyIndex := false
    columns := [{ name := "id", type := "INTEGER", pk := 1 }]
    foreignKeys := []
    rows := [⟨1, fun _ => .integer 1⟩, ⟨2, fun _ => .integer 2⟩, ⟨3, fun _ => .integer 3⟩]
    distinct := by decide
    aliased := by simp [Row.value] }
  else if name = "node_property" then some {
    name := "node_property", ordinary := true, keyIndex := false
    columns := [{ name := "node", type := "INTEGER", pk := 0 }]
    foreignKeys := [{ parent := "node", columns := [("node", none)], nonempty := by simp }]
    rows := [⟨1, fun _ => .integer 2⟩]
    distinct := by decide
    aliased := by simp [rowidAlias, primaryKey] }
  else if name = "edge" then some {
    name := "edge", ordinary := true, keyIndex := false
    columns := [{ name := "source", type := "INTEGER", pk := 0 },
      { name := "target", type := "INTEGER", pk := 0 }]
    foreignKeys := [{ parent := "node", columns := [("source", none)], nonempty := by simp },
      { parent := "node", columns := [("target", none)], nonempty := by simp }]
    rows := [⟨1, fun column => .integer (if column = "source" then 1 else 2)⟩]
    distinct := by decide
    aliased := by simp [rowidAlias, primaryKey] }
  else none

/-- The file of the ownership check with these tables. The keys of edges have a dense plan, those of
node properties are left to SQLite. -/
def sampleSnapshot : Snapshot where
  bytes := sampleFile
  dbstat := true
  tables := ["edge", "node_property", "node"]
  roots := [2, 9, 10]
  integrity _ := ["ok"]
  database := sampleTables
  comparison := ⟨fun _ _ => false, fun _ _ => false, fun _ _ _ => false⟩

/-- The steps that are left of a job. -/
def Phase.left : Phase → Nat
  | .before => 2
  | .check => 1
  | .behind => 0

/-- A job comes to its end. -/
theorem validationDuty_lively {s : Snapshot} {header : DatabaseHeader} {foreign table : Nat}
    {faults : Prop} :
    (validationDuty s header foreign table faults).Lively fun own => own.phase.left where
  enter := ⟨_, .done⟩
  go job own := by
    rcases hphase : own.phase with _ | _ | _
    · exact .inl ⟨_, .before hphase⟩
    · obtain ⟨result, hcheck⟩ : ∃ result, Check s header job result := by
        cases job with
        | ownership => exact ⟨_, .ownership (fun _ => 0) fun _ => 0⟩
        | foreignKeys name plan => exact ⟨_, .foreignKeys name plan⟩
        | table name => exact ⟨_, .table name⟩
      cases result with
      | ok _ => exact .inl ⟨_, .check hphase hcheck⟩
      | error failure =>
          cases failure with
          | error message => exact .inr ⟨_, .error hphase hcheck⟩
          | panic => exact .inr ⟨_, .panic hphase hcheck⟩
    · exact .inr ⟨_, .done hphase⟩
  act hact := by
    cases hact with
    | before hphase =>
        rw [hphase]
        exact Nat.lt_succ_self _
    | check hphase =>
        rw [hphase]
        exact Nat.lt_succ_self _

/-- The jobs of the sample, the ownership of the pages first. -/
theorem sample_jobs : jobsOf sampleSnapshot =
    [.ownership, .table "edge", .table "node_property",
      .foreignKeys "edge" (.dense [⟨"source", 1, 3⟩, ⟨"target", 1, 3⟩]),
      .foreignKeys "node_property" .native, .table "node", .table "sqlite_schema"] := by
  have hsorted : sortedTables sampleSnapshot = ["edge", "node_property", "node", "sqlite_schema"] :=
    List.mergeSort_of_pairwise (by decide +kernel)
  rw [jobsOf, foreignTables, hsorted]
  decide +kernel

/-- The sample passes. -/
theorem sample_passes : Passes sampleSnapshot sampleFileHeader := by
  refine ⟨⟨_, sampleFile_references, by decide⟩, fun name _ => ?_, fun name hname => ?_⟩
  · exact ⟨List.cons_ne_nil _ _, fun row hrow => List.mem_singleton.mp hrow⟩
  · have hkeys : ∀ name ∈ checkedTables sampleSnapshot,
        foreignKeyCheckTable sampleSnapshot.comparison sampleSnapshot.database name = .ok () := by
      decide +kernel
    exact foreignKeyCheckTable_holds.mp (hkeys name hname)

/-- The checks of the sample are divided. -/
theorem sample_divided : Divided sampleSnapshot sampleFileHeader (leastBudget (64 * mib)) := by
  decide

/-- The workers on that database come to an end. -/
theorem sample_over : ∃ log pool,
    ValidationRun sampleSnapshot sampleFileHeader (leastBudget (64 * mib)) 6 False log pool ∧
      pool.Over :=
  have ⟨_, pool, hrun, hover⟩ := WorkerPool.run_over validationDuty_lively .start
  ⟨_, pool, hrun, hover⟩

/-- Six workers on a sound file. -/
theorem validate_exact_sample :
    ∃ result, Validates sampleSnapshot (64 * mib) 6 False result ∧ result = .ok () := by
  obtain ⟨log, pool, hrun, hover⟩ := sample_over
  have h : Validates sampleSnapshot (64 * mib) 6 False _ :=
    .divided sampleFile_header sample_divided hrun hover
  refine ⟨_, h, (validate_exact h).2.2 id ?_⟩
  exact (sound_iff sampleFile_header).mpr (by rw [if_pos sample_divided]; exact sample_passes)

/-! ## Each check once -/

/-- At no time has a check been made twice, and a run that ends without a failure has made all of
them. -/
theorem checks_once {s : Snapshot} {header : DatabaseHeader} {budget : Nat} {parallelism : ℕ+}
    {faults : Prop} {log : List (Event Job Connection String)} {pool : Pool Job Connection String}
    (h : ValidationRun s header budget parallelism faults log pool) :
    (log.filterMap Event.job?).Subperm (checksOf s) ∧
      (pool.Over → pool.shared.failed = none → (log.filterMap Event.job?).Perm (checksOf s)) := by
  have hkeeps : (validationDuty s header (foreignCache s header budget parallelism)
      (tableCache s header budget parallelism) faults).Keeps
      (Kept s header (foreignCache s header budget parallelism)) :=
    validationDuty_keeps (Nat.min_le_left ..)
  refine ⟨(WorkerPool.ended_subperm hkeeps h).trans (jobsOf_perm s).subperm, fun hover hnone => ?_⟩
  exact ((WorkerPool.verdict hkeeps h hover (workerCount_pos s parallelism)).2 hnone).trans
    (jobsOf_perm s)

/-- Two workers that share the seven jobs of the sample. -/
theorem checks_once_sample :
    ∃ log : List (Event Job Connection String),
      (log.filterMap Event.job?).Perm (checksOf sampleSnapshot) ∧
        (checksOf sampleSnapshot).length = 7 := by
  obtain ⟨log, pool, hrun, hover⟩ := sample_over
  have hnone := no_failure_of_holds (DatabaseHeader.reads sampleFile_header) hrun hover id
    (passes_iff.mp sample_passes)
  exact ⟨log, (checks_once hrun).2 hover hnone, by decide +kernel⟩

/-! ## The caches -/

/-- The page cache of a worker that has a connection. -/
def cacheBytes : Worker Job Connection String → Nat
  | .looking own | .drawing own | .working _ _ own => own.cache * 1024
  | _ => 0

theorem cacheSize_le {bytes : Nat} (h : 16 * 1024 ≤ bytes) : cacheSize bytes * 1024 ≤ bytes := by
  rw [cacheSize]
  rcases Nat.le_total (bytes / 1024) 16 with hle | hle
  · rw [Nat.max_eq_right hle]
    exact h
  · rw [Nat.max_eq_left hle]
    exact Nat.div_mul_le_self ..

/-- The caches of six workers or fewer have room. -/
theorem foreignCache_bounds {s : Snapshot} {header : DatabaseHeader} {budget : Nat}
    (hdivided : Divided s header budget) (parallelism : ℕ+) :
    16 * 1024 ≤ foreignCache s header budget parallelism ∧
      workerCount s parallelism * foreignCache s header budget parallelism ≤
        budget - reserve header := by
  have hpos := workerCount_pos s parallelism
  have hle : workerCount s parallelism ≤ maxWorkers :=
    (Nat.min_le_left ..).trans (Nat.min_le_right ..)
  obtain ⟨-, -, -, hroom⟩ := hdivided
  rw [foreignCache]
  constructor
  · refine le_min ((Nat.le_div_iff_mul_le hpos).mpr ?_) (by decide)
    calc 16 * 1024 * workerCount s parallelism ≤ 16 * 1024 * maxWorkers :=
          Nat.mul_le_mul_left _ hle
      _ ≤ 8 * mib := by decide
      _ ≤ budget - reserve header := hroom
  · calc workerCount s parallelism *
          min ((budget - reserve header) / workerCount s parallelism) (64 * mib) ≤
          workerCount s parallelism * ((budget - reserve header) / workerCount s parallelism) :=
          Nat.mul_le_mul_left _ (Nat.min_le_left ..)
      _ ≤ budget - reserve header := Nat.mul_div_le ..

/-- At every moment the page caches of all workers fit what the reserve leaves of the budget, also
where each of them checks foreign keys. -/
theorem caches_fit {s : Snapshot} {header : DatabaseHeader} {budget : Nat} {parallelism : ℕ+}
    {faults : Prop} {log : List (Event Job Connection String)} {pool : Pool Job Connection String}
    (hdivided : Divided s header budget)
    (h : ValidationRun s header budget parallelism faults log pool) :
    (pool.workers.map cacheBytes).sum + reserve header ≤ budget := by
  obtain ⟨hleast, hmost⟩ := foreignCache_bounds hdivided parallelism
  have hworkers : ∀ bytes ∈ pool.workers.map cacheBytes,
      bytes ≤ foreignCache s header budget parallelism := by
    intro bytes hbytes
    obtain ⟨w, hw, rfl⟩ := List.mem_map.mp hbytes
    have hheld := (validationRun_kept h).1 w hw
    have hsize := cacheSize_le hleast
    cases w with
    | looking own | drawing own => exact (Nat.mul_le_mul_right _ hheld).trans hsize
    | working index job own => exact (Nat.mul_le_mul_right _ hheld.2.1).trans hsize
    | entering | failing | stopped | panicked => exact Nat.zero_le _
  have hsum := List.sum_le_card_nsmul _ _ hworkers
  rw [List.length_map, nsmul_eq_mul, Nat.cast_id, WorkerPool.length_workers h] at hsum
  have hroom := hdivided.2.2.2
  have hmib : 0 < 8 * mib := by decide
  omega

section prepare

variable {s : Snapshot} {header : DatabaseHeader} {budget : Nat} {parallelism : ℕ+} {faults : Prop}
  {log : List (Event Job Connection String)} {next joined : Nat}
  {back : List (Worker Job Connection String)} {job : Job}

/-- A worker sets up, draws a job and sets the cache for its check. -/
theorem ValidationRun.prepare (front : List (Worker Job Connection String))
    (h : ValidationRun s header budget parallelism faults log
      ⟨⟨next, none⟩, front ++ .entering :: back, joined⟩)
    (hjob : (jobsOf s)[next]? = some job) :
    ValidationRun s header budget parallelism faults
      (log ++ [.entered (.done ⟨cacheSize (tableCache s header budget parallelism), .before⟩)])
      ⟨⟨next + 1, none⟩, front ++ .working next job
        ⟨jobCache (foreignCache s header budget parallelism)
          (tableCache s header budget parallelism)
          ⟨cacheSize (tableCache s header budget parallelism), .before⟩ job, .check⟩ :: back,
        joined⟩ := by
  have hentered := Run.step h (Step.worker (.enter Enter.done))
  have hlooked := Run.step hentered (Step.worker (.look rfl))
  have hdrawn := Run.step hlooked (Step.worker (.draw hjob))
  have hprepared := Run.step hdrawn (Step.worker (.act (Act.before rfl)))
  simp only [Option.toList_none, List.append_nil] at hprepared
  exact hprepared


end prepare

/-- Five of six workers are at their checks, the last of them with the large cache for SQLite's own
check of foreign keys. -/
theorem caches_fit_sample :
    ∃ log pool,
      ValidationRun sampleSnapshot sampleFileHeader (leastBudget (64 * mib)) 6 False log pool ∧
      pool.workers[4]?.map Worker.index? = some (some 4) ∧
      (jobsOf sampleSnapshot)[4]? = some (.foreignKeys "node_property" .native) ∧
      pool.workers.map cacheBytes = [16384, 4194304, 4194304, 4194304, 9779200, 0] ∧
      (pool.workers.map cacheBytes).sum + reserve sampleFileHeader ≤ leastBudget (64 * mib) := by
  have hcount : workerCount sampleSnapshot 6 = 6 := by
    rw [workerCount, sample_jobs]
    rfl
  have hstart : ValidationRun sampleSnapshot sampleFileHeader (leastBudget (64 * mib)) 6 False []
      ⟨⟨0, none⟩, List.replicate 6 .entering, 0⟩ := by
    rw [ValidationRun, hcount]
    exact .start
  have hfirst := hstart.prepare [] (by rw [sample_jobs]; rfl)
  have hsecond := hfirst.prepare [_] (by rw [sample_jobs]; rfl)
  have hthird := hsecond.prepare [_, _] (by rw [sample_jobs]; rfl)
  have hfourth := hthird.prepare [_, _, _] (by rw [sample_jobs]; rfl)
  have hfifth := hfourth.prepare [_, _, _, _] (by rw [sample_jobs]; rfl)
  have hforeign : foreignCache sampleSnapshot sampleFileHeader (leastBudget (64 * mib)) 6 =
      9779880 := by
    rw [foreignCache, hcount]
    decide +kernel
  have htable : tableCache sampleSnapshot sampleFileHeader (leastBudget (64 * mib)) 6 =
      4 * mib := by
    rw [tableCache, hforeign]
    decide +kernel
  refine ⟨_, _, hfifth, rfl, by rw [sample_jobs]; rfl, ?_, caches_fit sample_divided hfifth⟩
  rw [hforeign, htable]
  decide +kernel

/-! ## The end -/

/-- The workers cannot take steps for ever, and whatever they have done they can go on until all
have been waited for: nobody waits for a lock or a job that does not come. -/
theorem validation_ends (s : Snapshot) (header : DatabaseHeader) (budget : Nat) (parallelism : ℕ+)
    (faults : Prop) :
    (WellFounded fun pool' pool => ∃ event,
      ValidationStep s header budget parallelism faults pool event pool') ∧
    ∀ log pool, ValidationRun s header budget parallelism faults log pool →
      ∃ log' pool', ValidationRun s header budget parallelism faults (log ++ log') pool' ∧
        pool'.Over :=
  ⟨WorkerPool.wellFounded_step validationDuty_lively, fun _ _ h =>
    WorkerPool.run_over validationDuty_lively h⟩

end Velr.Validation
