import Mathlib.Data.List.Basic
import Mathlib.Data.List.Perm.Subperm
import Mathlib.Data.List.Range
import Mathlib.Order.WellFounded
import Velr.Common.Concurrency

/-!
# Workers that share their jobs

Workers draw the next job from a shared counter until there is none or one of them has failed, and
the first failure is kept; whoever started them waits for each in turn. Every read or write of what
is shared is a step of its own, and the steps of the workers interleave in any order. What a worker
does with a job is a parameter (`Duty`). Every job is drawn by one worker (`drawn_perm`), the
failure is empty at the end exactly if nothing failed, and then every job is done (`verdict`); a
pool whose workers go on comes to its end (`wellFounded_step`, `progress`).
-/

namespace WorkerPool

open Concurrency (Run)

variable {J P E : Type}

/-! ## The workers -/

/-- How setting up or a job ends; `P` is the worker's own state. -/
inductive Outcome (P E : Type) where
  | done (own : P)
  | error (e : E)
  | panic

/-- Where a worker is. -/
inductive Worker (J P E : Type) where
  | entering
  /-- before it looks at the failure -/
  | looking (own : P)
  /-- before it draws a job -/
  | drawing (own : P)
  | working (index : Nat) (job : J) (own : P)
  /-- before it records its error -/
  | failing (e : E)
  | stopped
  | panicked

/-- What workers do: how they set up, begin a job, go on with it and end it. -/
structure Duty (J P E : Type) where
  enter : Outcome P E → Prop
  begin : J → P → P
  act : J → P → P → Prop
  finish : J → P → Outcome P E → Prop

/-- What is seen of a run: the outcomes. -/
inductive Event (J P E : Type) where
  | entered (outcome : Outcome P E)
  | ended (index : Nat) (job : J) (outcome : Outcome P E)

/-- The counter and the first failure. -/
structure Shared (E : Type) where
  next : Nat
  failed : Option E

/-- A pool, and how many of its workers have been waited for. -/
structure Pool (J P E : Type) where
  shared : Shared E
  workers : List (Worker J P E)
  joined : Nat

/-- Where an outcome leaves a worker. -/
def Outcome.next : Outcome P E → Worker J P E
  | .done own => .looking own
  | .error e => .failing e
  | .panic => .panicked

/-- A failure that follows those before it. -/
def Shared.record (shared : Shared E) (e : E) : Shared E :=
  { shared with failed := shared.failed.or (some e) }

/-- A step of one worker. -/
inductive WorkerStep (d : Duty J P E) (jobs : List J) :
    Shared E → Worker J P E → Option (Event J P E) → Shared E → Worker J P E → Prop where
  | enter {shared outcome} : d.enter outcome →
      WorkerStep d jobs shared .entering (some (.entered outcome)) shared outcome.next
  | look {shared own} : shared.failed = none →
      WorkerStep d jobs shared (.looking own) none shared (.drawing own)
  | leave {shared own} : shared.failed.isSome →
      WorkerStep d jobs shared (.looking own) none shared .stopped
  | draw {shared own job} : jobs[shared.next]? = some job →
      WorkerStep d jobs shared (.drawing own) none { shared with next := shared.next + 1 }
        (.working shared.next job (d.begin job own))
  | empty {shared own} : jobs.length ≤ shared.next →
      WorkerStep d jobs shared (.drawing own) none { shared with next := shared.next + 1 } .stopped
  | act {shared index job own own'} : d.act job own own' →
      WorkerStep d jobs shared (.working index job own) none shared (.working index job own')
  | finish {shared index job own outcome} : d.finish job own outcome →
      WorkerStep d jobs shared (.working index job own) (some (.ended index job outcome)) shared
        outcome.next
  | record {shared e} : WorkerStep d jobs shared (.failing e) none (shared.record e) .stopped

/-- A step of a worker or of who waits for them; `fault` is what is kept of a panic. -/
inductive Step (d : Duty J P E) (jobs : List J) (fault : E) :
    Pool J P E → Option (Event J P E) → Pool J P E → Prop where
  | worker {shared shared' front w w' back joined event} :
      WorkerStep d jobs shared w event shared' w' →
      Step d jobs fault ⟨shared, front ++ w :: back, joined⟩ event
        ⟨shared', front ++ w' :: back, joined⟩
  | join {shared workers joined} : workers[joined]? = some .stopped →
      Step d jobs fault ⟨shared, workers, joined⟩ none ⟨shared, workers, joined + 1⟩
  | joinPanicked {shared workers joined} : workers[joined]? = some .panicked →
      Step d jobs fault ⟨shared, workers, joined⟩ none ⟨shared.record fault, workers, joined + 1⟩

/-- The pool of `count` workers before its first step. -/
def Pool.start (count : Nat) : Pool J P E where
  shared := ⟨0, none⟩
  workers := List.replicate count .entering
  joined := 0

/-- All workers have been waited for. -/
def Pool.Over (pool : Pool J P E) : Prop := pool.workers.length ≤ pool.joined

variable {d : Duty J P E} {jobs : List J} {fault : E} {count : Nat} {log : List (Event J P E)}
  {pool pool' : Pool J P E} {event : Option (Event J P E)}

/-- The pool keeps its workers. -/
theorem length_workers (h : Run (Step d jobs fault) (.start count) log pool) :
    pool.workers.length = count := by
  refine Run.invariant (I := fun _ pool => pool.workers.length = count) ?_ ?_ h
  · exact List.length_replicate
  · intro log s event s' hlength hstep
    cases hstep with
    | worker _ => simpa using hlength
    | join _ | joinPanicked _ => exact hlength

/-! ## Every job once -/

/-- The job that a worker works on. -/
def Worker.index? : Worker J P E → Option Nat
  | .working index _ _ => some index
  | _ => none

def Event.index? : Event J P E → Option Nat
  | .ended index _ _ => some index
  | .entered _ => none

def Event.job? : Event J P E → Option J
  | .ended _ job _ => some job
  | .entered _ => none

@[simp] theorem Outcome.index?_next (outcome : Outcome P E) :
    (outcome.next : Worker J P E).index? = none := by
  cases outcome <;> rfl

/-- The jobs that a worker's step ends or begins. -/
theorem WorkerStep.index? {shared shared' : Shared E} {w w' : Worker J P E}
    (h : WorkerStep d jobs shared w event shared' w') :
    (shared.next < jobs.length ∧ shared'.next = shared.next + 1 ∧ event = none ∧
      w.index? = none ∧ w'.index? = some shared.next) ∨
    (min shared'.next jobs.length = min shared.next jobs.length ∧
      w.index?.toList = (event.bind Event.index?).toList ++ w'.index?.toList) := by
  cases h with
  | enter =>
      refine .inr ⟨rfl, ?_⟩
      rw [Outcome.index?_next]
      rfl
  | draw hjob =>
      obtain ⟨hlt, -⟩ := List.getElem?_eq_some_iff.mp hjob
      exact .inl ⟨hlt, rfl, rfl, rfl, rfl⟩
  | empty hle => exact .inr ⟨by dsimp only; omega, rfl⟩
  | finish =>
      refine .inr ⟨rfl, ?_⟩
      rw [Outcome.index?_next]
      rfl
  | look | leave | act | record => exact .inr ⟨rfl, rfl⟩

/-- The jobs that have been drawn are those that have ended and those that workers work on. -/
theorem drawn_perm (h : Run (Step d jobs fault) (.start count) log pool) :
    (log.filterMap Event.index? ++ pool.workers.filterMap Worker.index?).Perm
      (List.range (min pool.shared.next jobs.length)) := by
  refine Run.invariant (I := fun log pool =>
    (log.filterMap Event.index? ++ pool.workers.filterMap Worker.index?).Perm
      (List.range (min pool.shared.next jobs.length))) ?_ ?_ h
  · simp [Pool.start, Worker.index?, List.filterMap_replicate]
  · intro log s event s' hperm hstep
    cases hstep with
    | join _ => simpa using hperm
    | joinPanicked _ => simpa [Shared.record] using hperm
    | @worker shared shared' front w w' back joined event hworker =>
        have hcons : ∀ w : Worker J P E, (front ++ w :: back).filterMap Worker.index? =
            front.filterMap Worker.index? ++ (w.index?.toList ++ back.filterMap Worker.index?) := by
          intro w
          rw [List.filterMap_append, List.filterMap_cons]
          cases w.index? <;> rfl
        have hevent : event.toList.filterMap Event.index? = (event.bind Event.index?).toList := by
          cases event with
          | none => rfl
          | some event => cases hindex : event.index? <;> simp [hindex]
        dsimp only at hperm ⊢
        rw [List.filterMap_append, hevent, hcons]
        rw [hcons] at hperm
        rcases hworker.index? with ⟨hlt, hnext, rfl, hw, hw'⟩ | ⟨hmin, hw⟩
        · rw [hw, Nat.min_eq_left hlt.le] at hperm
          rw [hw', hnext, Nat.min_eq_left hlt, List.range_succ]
          refine List.Perm.trans ?_ (hperm.append_right [shared.next])
          simp only [Option.toList_none, Option.toList_some, Option.bind_none, List.append_nil,
            List.nil_append, List.append_assoc]
          exact ((List.perm_append_comm).append_left _).append_left _
        · rw [hmin]
          refine List.Perm.trans ?_ hperm
          rw [hw]
          simp only [List.append_assoc]
          exact (List.perm_append_comm_assoc ..).append_left _

/-! ## What is kept -/

/-- What the duty keeps of a worker's own state, between jobs and in a job. -/
structure Duty.Keeps (d : Duty J P E) (kept : Option J → P → Prop) : Prop where
  enter {own} : d.enter (.done own) → kept none own
  begin {job own} : kept none own → kept (some job) (d.begin job own)
  act {job own own'} : kept (some job) own → d.act job own own' → kept (some job) own'
  finish {job own own'} : kept (some job) own → d.finish job own (.done own') → kept none own'

/-- What is kept holds of a worker, and its job is the one of its index. -/
def Worker.Holds (jobs : List J) (kept : Option J → P → Prop) : Worker J P E → Prop
  | .looking own | .drawing own => kept none own
  | .working index job own => jobs[index]? = some job ∧ kept (some job) own
  | _ => True

/-- Where an outcome comes from. -/
def Event.Comes (d : Duty J P E) (jobs : List J) (kept : Option J → P → Prop) :
    Event J P E → Prop
  | .entered outcome => d.enter outcome
  | .ended index job outcome =>
      jobs[index]? = some job ∧ ∃ own, kept (some job) own ∧ d.finish job own outcome

section

variable {kept : Option J → P → Prop}

/-- A step keeps what a worker holds of its own. -/
theorem WorkerStep.keeps (hkeeps : d.Keeps kept) {shared shared' : Shared E} {w w' : Worker J P E}
    (hholds : w.Holds jobs kept) (h : WorkerStep d jobs shared w event shared' w') :
    w'.Holds jobs kept ∧ ∀ e ∈ event, e.Comes d jobs kept := by
  cases h with
  | @enter outcome henter =>
      refine ⟨?_, by simpa [Event.Comes] using henter⟩
      cases outcome with
      | done own => exact hkeeps.enter henter
      | error e => trivial
      | panic => trivial
  | look => exact ⟨hholds, nofun⟩
  | draw hjob => exact ⟨⟨hjob, hkeeps.begin hholds⟩, nofun⟩
  | act hact => exact ⟨⟨hholds.1, hkeeps.act hholds.2 hact⟩, nofun⟩
  | @finish index job own outcome hfinish =>
      refine ⟨?_, by simpa [Event.Comes] using ⟨hholds.1, own, hholds.2, hfinish⟩⟩
      cases outcome with
      | done own => exact hkeeps.finish hholds.2 hfinish
      | error e => trivial
      | panic => trivial
  | leave | empty | record => exact ⟨trivial, nofun⟩

/-- What the duty keeps holds of all workers, and the outcomes come from states of which it
holds. -/
theorem kept_of_run (hkeeps : d.Keeps kept) (h : Run (Step d jobs fault) (.start count) log pool) :
    (∀ w ∈ pool.workers, w.Holds jobs kept) ∧ ∀ e ∈ log, e.Comes d jobs kept := by
  refine Run.invariant (I := fun log pool =>
    (∀ w ∈ pool.workers, w.Holds jobs kept) ∧ ∀ e ∈ log, e.Comes d jobs kept) ?_ ?_ h
  · refine ⟨fun w hw => ?_, nofun⟩
    rw [List.eq_of_mem_replicate hw]
    trivial
  · rintro log s event s' ⟨hworkers, hlog⟩ hstep
    cases hstep with
    | join _ | joinPanicked _ => exact ⟨hworkers, by simpa using hlog⟩
    | worker hworker =>
        dsimp only at hworkers ⊢
        rw [List.forall_mem_append, List.forall_mem_cons] at hworkers ⊢
        obtain ⟨hholds, hevent⟩ := hworker.keeps hkeeps hworkers.2.1
        refine ⟨⟨hworkers.1, hholds, hworkers.2.2⟩, ?_⟩
        rw [List.forall_mem_append]
        exact ⟨hlog, fun e he => hevent e (Option.mem_toList.mp he)⟩

end

/-! ## The failure -/

def Outcome.Fails : Outcome P E → Prop
  | .done _ => False
  | _ => True

def Event.outcome : Event J P E → Outcome P E
  | .entered outcome => outcome
  | .ended _ _ outcome => outcome

/-- A worker whose failure is not yet seen. -/
def Worker.Pending : Worker J P E → Prop
  | .failing _ | .panicked => True
  | _ => False

/-- A worker that takes no more steps. -/
def Worker.Ended (w : Worker J P E) : Prop := w = .stopped ∨ w = .panicked

/-- What a worker's step does to the failures. -/
structure WorkerStep.Failures (jobs : List J) (shared : Shared E) (w : Worker J P E)
    (event : Option (Event J P E)) (shared' : Shared E) (w' : Worker J P E) : Prop where
  running : ¬w.Ended
  failed : shared.failed.isSome → shared'.failed.isSome
  next : shared.next ≤ shared'.next
  fails : ∀ e ∈ event, e.outcome.Fails → w'.Pending
  pending : w.Pending → shared'.failed.isSome
  stopped : w' = .stopped → shared'.failed.isSome ∨ jobs.length ≤ shared'.next

/-- A recorded failure is there. -/
theorem Shared.isSome_record (shared : Shared E) (e : E) : (shared.record e).failed.isSome := by
  rw [Shared.record]
  cases shared.failed <;> rfl

theorem Outcome.pending_next {outcome : Outcome P E} (h : outcome.Fails) :
    (outcome.next : Worker J P E).Pending := by
  cases outcome with
  | done own => exact h
  | error e => trivial
  | panic => trivial

theorem Outcome.next_ne_stopped (outcome : Outcome P E) :
    (outcome.next : Worker J P E) ≠ .stopped := by
  cases outcome <;> exact nofun

/-- What a step of a worker does to the failure. -/
theorem WorkerStep.failures {shared shared' : Shared E} {w w' : Worker J P E}
    (h : WorkerStep d jobs shared w event shared' w') :
    WorkerStep.Failures jobs shared w event shared' w' := by
  cases h with
  | enter =>
      refine ⟨nofun, id, Nat.le_refl _, ?_, nofun, fun h => absurd h (Outcome.next_ne_stopped _)⟩
      rintro e ⟨⟩
      exact Outcome.pending_next
  | look => exact ⟨nofun, id, Nat.le_refl _, nofun, nofun, nofun⟩
  | leave hfailed => exact ⟨nofun, id, Nat.le_refl _, nofun, nofun, fun _ => .inl hfailed⟩
  | draw => exact ⟨nofun, id, Nat.le_succ _, nofun, nofun, nofun⟩
  | empty hle =>
      exact ⟨nofun, id, Nat.le_succ _, nofun, nofun, fun _ => .inr (by dsimp only; omega)⟩
  | act => exact ⟨nofun, id, Nat.le_refl _, nofun, nofun, nofun⟩
  | finish =>
      refine ⟨nofun, id, Nat.le_refl _, ?_, nofun, fun h => absurd h (Outcome.next_ne_stopped _)⟩
      rintro e ⟨⟩
      exact Outcome.pending_next
  | record =>
      exact ⟨nofun, fun _ => Shared.isSome_record .., Nat.le_refl _, nofun,
        fun _ => Shared.isSome_record .., fun _ => .inl (Shared.isSome_record ..)⟩

/-- A failure is recorded or a worker is about to; a worker stops after a failure or the last job;
and the failures of those that have been waited for are recorded. -/
structure Sound (jobs : List J) (log : List (Event J P E)) (pool : Pool J P E) : Prop where
  failures : ∀ e ∈ log, e.outcome.Fails →
    pool.shared.failed.isSome ∨ ∃ w ∈ pool.workers, w.Pending
  stopped : .stopped ∈ pool.workers → pool.shared.failed.isSome ∨ jobs.length ≤ pool.shared.next
  joined : ∀ i < pool.joined, ∃ w, pool.workers[i]? = some w ∧ w.Ended ∧
    (w = .panicked → pool.shared.failed.isSome)

/-- A step of a worker keeps the pool sound. -/
theorem Sound.worker {shared shared' : Shared E} {front back : List (Worker J P E)}
    {w w' : Worker J P E} {joined : Nat}
    (hsound : Sound jobs log ⟨shared, front ++ w :: back, joined⟩)
    (h : WorkerStep d jobs shared w event shared' w') :
    Sound jobs (log ++ event.toList) ⟨shared', front ++ w' :: back, joined⟩ := by
  obtain ⟨hfailures, hstopped, hjoined⟩ := hsound
  dsimp only at hfailures hstopped hjoined
  have hstep := h.failures
  refine ⟨?_, ?_, ?_⟩ <;> dsimp only
  · intro e he hfails
    rcases List.mem_append.mp he with he | he
    · rcases hfailures e he hfails with hsome | ⟨v, hv, hpending⟩
      · exact .inl (hstep.failed hsome)
      · rw [List.mem_append, List.mem_cons] at hv
        rcases hv with hv | rfl | hv
        · exact .inr ⟨v, List.mem_append_left _ hv, hpending⟩
        · exact .inl (hstep.pending hpending)
        · exact .inr ⟨v, List.mem_append_right _ (List.mem_cons_of_mem _ hv), hpending⟩
    · exact .inr ⟨w', by simp, hstep.fails e (Option.mem_toList.mp he) hfails⟩
  · intro hmem
    rw [List.mem_append, List.mem_cons] at hmem hstopped
    rcases hmem with hmem | hmem | hmem
    · exact (hstopped (.inl hmem)).imp hstep.failed fun hle => hle.trans hstep.next
    · exact hstep.stopped hmem.symm
    · exact (hstopped (.inr (.inr hmem))).imp hstep.failed fun hle => hle.trans hstep.next
  · intro i hi
    obtain ⟨v, hv, hended, hpanicked⟩ := hjoined i hi
    refine ⟨v, ?_, hended, fun h => hstep.failed (hpanicked h)⟩
    rcases Nat.lt_trichotomy i front.length with hlt | rfl | hlt
    · rwa [List.getElem?_append_left hlt] at hv ⊢
    · rw [List.getElem?_append_right (Nat.le_refl _), Nat.sub_self] at hv
      cases hv
      exact absurd hended hstep.running
    · obtain ⟨k, rfl⟩ := Nat.exists_eq_add_of_lt hlt
      rw [List.getElem?_append_right (by omega), show front.length + k + 1 - front.length = k + 1 by
        omega] at hv ⊢
      exact hv

/-- So does the joining of a worker that has ended. -/
theorem Sound.join {shared shared' : Shared E} {workers : List (Worker J P E)} {w : Worker J P E}
    {joined : Nat} (hsound : Sound jobs log ⟨shared, workers, joined⟩)
    (hw : workers[joined]? = some w) (hended : w.Ended)
    (hfailed : shared.failed.isSome → shared'.failed.isSome) (hnext : shared'.next = shared.next)
    (hpanicked : w = .panicked → shared'.failed.isSome) :
    Sound jobs log ⟨shared', workers, joined + 1⟩ := by
  obtain ⟨hfailures, hstopped, hjoined⟩ := hsound
  refine ⟨fun e he hfails => (hfailures e he hfails).imp_left hfailed,
    fun hmem => (hstopped hmem).imp hfailed fun hle => ?_, fun i hi => ?_⟩
  · dsimp only
    rwa [hnext]
  · rcases Nat.lt_succ_iff_lt_or_eq.mp hi with hlt | rfl
    · obtain ⟨v, hv, hv', hvp⟩ := hjoined i hlt
      exact ⟨v, hv, hv', fun h => hfailed (hvp h)⟩
    · exact ⟨w, hw, hended, hpanicked⟩

/-- So every pool that a run reaches is sound. -/
theorem sound_of_run (h : Run (Step d jobs fault) (.start count) log pool) :
    Sound jobs log pool := by
  refine Run.invariant (I := fun log pool => Sound jobs log pool)
    ⟨nofun, ?_, fun _ h => absurd h (Nat.not_lt_zero _)⟩ ?_ h
  · intro hmem
    cases List.eq_of_mem_replicate hmem
  · intro log s event s' hsound hstep
    cases hstep with
    | worker hworker => exact hsound.worker hworker
    | join hw =>
        rw [Option.toList_none, List.append_nil]
        exact hsound.join hw (.inl rfl) id rfl nofun
    | joinPanicked hw =>
        rw [Option.toList_none, List.append_nil]
        exact hsound.join hw (.inr rfl) (fun _ => Shared.isSome_record ..) rfl
          fun _ => Shared.isSome_record ..

/-- The failure that is kept is one that happened. -/
def Caused (fault : E) (log : List (Event J P E)) (e : E) : Prop :=
  (∃ event ∈ log, event.outcome = .error e) ∨ e = fault ∧ ∃ event ∈ log, event.outcome = .panic

/-- What a worker that failed goes by has happened. -/
def Worker.Caused (log : List (Event J P E)) : Worker J P E → Prop
  | .failing e => ∃ event ∈ log, event.outcome = .error e
  | .panicked => ∃ event ∈ log, event.outcome = .panic
  | _ => True

theorem Worker.Caused.mono {w : Worker J P E} {log' : List (Event J P E)} (h : w.Caused log) :
    w.Caused (log ++ log') := by
  cases w with
  | failing e => exact h.imp fun event h => ⟨List.mem_append_left _ h.1, h.2⟩
  | panicked => exact h.imp fun event h => ⟨List.mem_append_left _ h.1, h.2⟩
  | entering | looking | drawing | working | stopped => trivial

/-- A failure that has a cause keeps it. -/
theorem Caused.mono {e : E} {log' : List (Event J P E)} (h : Caused fault log e) :
    Caused fault (log ++ log') e :=
  h.imp (fun ⟨event, hmem, h⟩ => ⟨event, List.mem_append_left _ hmem, h⟩)
    fun ⟨heq, event, hmem, h⟩ => ⟨heq, event, List.mem_append_left _ hmem, h⟩

/-- The first failure that is recorded stays. -/
theorem Shared.record_eq_some {shared : Shared E} {e e' : E}
    (h : (shared.record e).failed = some e') : shared.failed = some e' ∨ e' = e := by
  rw [Shared.record] at h
  cases hfailed : shared.failed with
  | none =>
      rw [hfailed] at h
      cases h
      exact .inr rfl
  | some first =>
      rw [hfailed] at h
      exact .inl h

/-- A step of a worker records only what it has met. -/
theorem WorkerStep.caused {shared shared' : Shared E} {w w' : Worker J P E}
    (hw : w.Caused log) (hfailed : ∀ e, shared.failed = some e → Caused fault log e)
    (h : WorkerStep d jobs shared w event shared' w') :
    w'.Caused (log ++ event.toList) ∧
      ∀ e, shared'.failed = some e → Caused fault (log ++ event.toList) e := by
  have hnext : ∀ {e : Event J P E}, (e.outcome.next : Worker J P E).Caused (log ++ [e]) := by
    intro e
    cases houtcome : e.outcome with
    | done own => trivial
    | error problem => exact ⟨e, by simp, houtcome⟩
    | panic => exact ⟨e, by simp, houtcome⟩
  cases h with
  | enter => exact ⟨hnext (e := .entered _), fun e he => (hfailed e he).mono⟩
  | finish => exact ⟨hnext (e := .ended _ _ _), fun e he => (hfailed e he).mono⟩
  | look | leave | draw | empty | act => exact ⟨trivial, fun e he => (hfailed e he).mono⟩
  | record =>
      refine ⟨trivial, fun e he => ?_⟩
      rcases Shared.record_eq_some he with he | rfl
      · exact (hfailed e he).mono
      · exact Caused.mono (.inl hw)

/-- So every failure of a run has its cause in the log. -/
theorem caused_of_run (h : Run (Step d jobs fault) (.start count) log pool) :
    (∀ w ∈ pool.workers, w.Caused log) ∧ ∀ e, pool.shared.failed = some e → Caused fault log e := by
  refine Run.invariant (I := fun log pool => (∀ w ∈ pool.workers, w.Caused log) ∧
    ∀ e, pool.shared.failed = some e → Caused fault log e) ⟨fun w hw => ?_, fun e he => ?_⟩ ?_ h
  · rw [List.eq_of_mem_replicate hw]
    trivial
  · cases he
  · rintro log s event s' ⟨hworkers, hfailed⟩ hstep
    cases hstep with
    | worker hworker =>
        dsimp only at hworkers hfailed ⊢
        rw [List.forall_mem_append, List.forall_mem_cons] at hworkers ⊢
        obtain ⟨hcaused, hfailed'⟩ := hworker.caused hworkers.2.1 hfailed
        exact ⟨⟨fun v hv => (hworkers.1 v hv).mono, hcaused,
          fun v hv => (hworkers.2.2 v hv).mono⟩, hfailed'⟩
    | join _ =>
        rw [Option.toList_none, List.append_nil]
        exact ⟨hworkers, hfailed⟩
    | joinPanicked hw =>
        rw [Option.toList_none, List.append_nil]
        refine ⟨hworkers, fun e he => ?_⟩
        rcases Shared.record_eq_some he with he | rfl
        · exact hfailed e he
        · exact .inr ⟨rfl, hworkers .panicked (List.mem_of_getElem? hw)⟩

/-! ## The verdict -/

/-- The jobs that have ended, each by its index. -/
theorem map_index_ended {kept : Option J → P → Prop} (h : ∀ e ∈ log, e.Comes d jobs kept) :
    (log.filterMap Event.index?).filterMap (jobs[·]?) = log.filterMap Event.job? := by
  rw [List.filterMap_filterMap]
  refine List.filterMap_congr fun e he => ?_
  cases e with
  | entered outcome => rfl
  | ended index job outcome => exact (h _ he).1

theorem filterMap_getElem?_range (jobs : List J) :
    (List.range jobs.length).filterMap (jobs[·]?) = jobs := by
  induction jobs with
  | nil => rfl
  | cons job jobs ih =>
      rw [List.length_cons, List.range_succ_eq_map, List.filterMap_cons, List.getElem?_cons_zero,
        List.filterMap_map]
      exact congrArg (job :: ·) ih

/-- No job ends twice, and none that is not in the list. -/
theorem ended_subperm {kept : Option J → P → Prop} (hkeeps : d.Keeps kept)
    (h : Run (Step d jobs fault) (.start count) log pool) :
    (log.filterMap Event.job?).Subperm jobs := by
  have hended : (log.filterMap Event.index?).Subperm (List.range jobs.length) :=
    ((List.sublist_append_left ..).subperm.trans (drawn_perm h).subperm).trans
      (List.range_sublist.mpr (Nat.min_le_right ..)).subperm
  obtain ⟨indices, hperm, hsub⟩ := hended
  have hjobs := hsub.filterMap (jobs[·]?)
  rw [filterMap_getElem?_range] at hjobs
  rw [← map_index_ended (kept_of_run hkeeps h).2]
  exact ⟨_, hperm.filterMap _, hjobs⟩

/-- Where all workers have been waited for, no failure is kept exactly if nothing failed, and then
every job is done, each once. -/
theorem verdict {kept : Option J → P → Prop} (hkeeps : d.Keeps kept)
    (h : Run (Step d jobs fault) (.start count) log pool) (hover : pool.Over) (hcount : 0 < count) :
    (pool.shared.failed = none ↔ ∀ e ∈ log, ¬e.outcome.Fails) ∧
      (pool.shared.failed = none → (log.filterMap Event.job?).Perm jobs) := by
  have hsound := sound_of_run h
  have hlength := length_workers h
  have hended : ∀ w ∈ pool.workers, w.Ended ∧ (w = .panicked → pool.shared.failed.isSome) := by
    intro w hw
    obtain ⟨i, hi⟩ := List.mem_iff_getElem?.mp hw
    obtain ⟨hlt, -⟩ := List.getElem?_eq_some_iff.mp hi
    obtain ⟨v, hv, hv'⟩ := hsound.joined i (Nat.lt_of_lt_of_le hlt hover)
    rw [hi] at hv
    cases hv
    exact hv'
  have hstopped : pool.shared.failed = none → ∀ w ∈ pool.workers, w = .stopped := by
    intro hnone w hw
    obtain ⟨rfl | rfl, hpanicked⟩ := hended w hw
    · rfl
    · rw [hnone] at hpanicked
      cases hpanicked rfl
  refine ⟨⟨fun hnone e he hfails => ?_, fun hfails => ?_⟩, fun hnone => ?_⟩
  · rcases hsound.failures e he hfails with hsome | ⟨w, hw, hpending⟩
    · rw [hnone] at hsome
      cases hsome
    · rw [hstopped hnone w hw] at hpending
      exact hpending
  · cases hfailed : pool.shared.failed with
    | none => rfl
    | some e =>
        rcases (caused_of_run h).2 e hfailed with ⟨event, hevent, houtcome⟩ |
          ⟨-, event, hevent, houtcome⟩
        · exact absurd (by rw [houtcome]; trivial) (hfails event hevent)
        · exact absurd (by rw [houtcome]; trivial) (hfails event hevent)
  · have hnonempty : pool.workers ≠ [] := by
      rw [← List.length_pos_iff_ne_nil, hlength]
      exact hcount
    obtain ⟨w, hw⟩ := List.exists_mem_of_ne_nil _ hnonempty
    have hle : jobs.length ≤ pool.shared.next := by
      refine (hsound.stopped (hstopped hnone w hw ▸ hw)).resolve_left fun hsome => ?_
      rw [hnone] at hsome
      cases hsome
    have hperm := drawn_perm h
    have hidle : pool.workers.filterMap Worker.index? = [] :=
      List.filterMap_eq_nil_iff.mpr fun w hw => by rw [hstopped hnone w hw]; rfl
    rw [hidle, List.append_nil, Nat.min_eq_right hle] at hperm
    rw [← map_index_ended (kept_of_run hkeeps h).2]
    exact (hperm.filterMap _).trans (by rw [filterMap_getElem?_range])

/-! ## The end -/

/-- Workers that go on: each has a next step, and takes finitely many within a job. -/
structure Duty.Lively (d : Duty J P E) (left : P → Nat) : Prop where
  enter : ∃ outcome, d.enter outcome
  go : ∀ job own, (∃ own', d.act job own own') ∨ ∃ outcome, d.finish job own outcome
  act {job own own'} : d.act job own own' → left own' < left own

/-- What is left for a worker before it draws a job or stops. -/
def Worker.rank (left : P → Nat) : Worker J P E → Nat
  | .entering => 3
  | .looking _ => 2
  | .drawing _ | .failing _ => 1
  | .working _ _ own => 3 + left own
  | .stopped | .panicked => 0

/-- What is left in a pool: jobs, and then steps. -/
def Pool.left (left : P → Nat) (jobs : List J) (pool : Pool J P E) : Nat × Nat :=
  (jobs.length - pool.shared.next,
    (pool.workers.map (Worker.rank left)).sum + (pool.workers.length - pool.joined))

/-- An outcome leaves little to do. -/
theorem Outcome.rank_next_le (left : P → Nat) (outcome : Outcome P E) :
    (outcome.next : Worker J P E).rank left ≤ 2 := by
  cases outcome with
  | done own => exact Nat.le_refl _
  | error e => exact Nat.le_succ _
  | panic => exact Nat.zero_le _

/-- A step draws a job, or brings the worker closer to its next. -/
theorem WorkerStep.rank {left : P → Nat} (hlively : d.Lively left) {shared shared' : Shared E}
    {w w' : Worker J P E} (h : WorkerStep d jobs shared w event shared' w') :
    jobs.length - shared'.next < jobs.length - shared.next ∨
      jobs.length - shared'.next = jobs.length - shared.next ∧ w'.rank left < w.rank left := by
  cases h with
  | @enter outcome => exact .inr ⟨rfl, Nat.lt_succ_of_le (Outcome.rank_next_le left outcome)⟩
  | look | leave | record => exact .inr ⟨rfl, by simp [Worker.rank]⟩
  | draw hjob =>
      obtain ⟨hlt, -⟩ := List.getElem?_eq_some_iff.mp hjob
      exact .inl (by dsimp only; omega)
  | empty hle => exact .inr ⟨by dsimp only; omega, by simp [Worker.rank]⟩
  | act hact => exact .inr ⟨rfl, Nat.add_lt_add_left (hlively.act hact) 3⟩
  | @finish index job own outcome =>
      have hle := Outcome.rank_next_le (J := J) left outcome
      exact .inr ⟨rfl, by rw [Worker.rank]; omega⟩

/-- No pool takes steps for ever. -/
theorem wellFounded_step {left : P → Nat} (hlively : d.Lively left) :
    WellFounded fun pool' pool : Pool J P E => ∃ event, Step d jobs fault pool event pool' := by
  refine Subrelation.wf (r := InvImage (Prod.Lex (· < ·) (· < ·)) (Pool.left left jobs)) ?_
    (InvImage.wf _ (WellFounded.prod_lex wellFounded_lt wellFounded_lt))
  rintro pool' pool ⟨event, h⟩
  rw [InvImage, Prod.lex_def]
  cases h with
  | worker hworker =>
      refine (hworker.rank hlively).imp_right fun ⟨hnext, hrank⟩ => ⟨hnext, ?_⟩
      simp only [Pool.left, List.map_append, List.map_cons, List.sum_append, List.sum_cons,
        List.length_append, List.length_cons]
      omega
  | join hw | joinPanicked hw =>
      obtain ⟨hlt, -⟩ := List.getElem?_eq_some_iff.mp hw
      refine .inr ⟨rfl, ?_⟩
      simp only [Pool.left]
      omega

/-- A pool has a next step until all workers have been waited for. -/
theorem progress {left : P → Nat} (hlively : d.Lively left) (hover : ¬pool.Over) :
    ∃ event pool', Step d jobs fault pool event pool' := by
  obtain ⟨shared, workers, joined⟩ := pool
  rw [Pool.Over, Nat.not_le] at hover
  obtain ⟨w, hw⟩ : ∃ w, workers[joined]? = some w := ⟨_, List.getElem?_eq_getElem hover⟩
  obtain ⟨front, back, rfl⟩ := List.append_of_mem (List.mem_of_getElem? hw)
  cases w with
  | entering =>
      obtain ⟨outcome, houtcome⟩ := hlively.enter
      exact ⟨_, _, .worker (.enter houtcome)⟩
  | looking own =>
      cases hfailed : shared.failed with
      | none => exact ⟨_, _, .worker (.look hfailed)⟩
      | some e => exact ⟨_, _, .worker (.leave (by rw [hfailed]; rfl))⟩
  | drawing own =>
      rcases Nat.lt_or_ge shared.next jobs.length with hlt | hle
      · exact ⟨_, _, .worker (.draw (List.getElem?_eq_getElem hlt))⟩
      · exact ⟨_, _, .worker (.empty hle)⟩
  | working index job own =>
      rcases hlively.go job own with ⟨own', hact⟩ | ⟨outcome, hfinish⟩
      · exact ⟨_, _, .worker (.act hact)⟩
      · exact ⟨_, _, .worker (.finish hfinish)⟩
  | failing e => exact ⟨_, _, .worker .record⟩
  | stopped => exact ⟨_, _, .join hw⟩
  | panicked => exact ⟨_, _, .joinPanicked hw⟩

/-- Every run can go on to a verdict. -/
theorem run_over {left : P → Nat} (hlively : d.Lively left)
    (h : Run (Step d jobs fault) (.start count) log pool) :
    ∃ log' pool', Run (Step d jobs fault) (.start count) (log ++ log') pool' ∧ pool'.Over := by
  have hwf : WellFounded fun pool' pool : Pool J P E =>
      ∃ event, Step d jobs fault pool event pool' := wellFounded_step hlively
  induction pool using hwf.induction generalizing log with
  | h pool ih => ?_
  by_cases hover : pool.Over
  · exact ⟨[], pool, by rwa [List.append_nil], hover⟩
  · obtain ⟨event, pool', hstep⟩ : ∃ event pool', Step d jobs fault pool event pool' :=
      progress hlively hover
    obtain ⟨log', pool'', hrun, hover'⟩ := ih pool' ⟨event, hstep⟩ (.step h hstep)
    exact ⟨event.toList ++ log', pool'', by rwa [← List.append_assoc], hover'⟩

end WorkerPool
