import Mathlib.Tactic.Common
import Velr.Common.Results

/-!
# Publishing an import

`publish_import` of `publish.rs` on Unix: it checks the staging file and the destination, locks an
existing destination, and renames or links the staged database over it. Every system call, SQLite
statement and file-system operation is a `Step` that may fail; `publish_atomic_iff` says which
failure leaves the destination other than it was.
-/

namespace Velr.Publish

open Results

/-- SQLite's journal modes. -/
inductive Journal where
  | delete
  | truncate
  | persist
  | memory
  | off
  | wal
deriving DecidableEq

/-- A database file: its content, `PRAGMA user_version` and `PRAGMA journal_mode`. -/
structure Database (α : Type) where
  content : α
  userVersion : Int
  journal : Journal
deriving DecidableEq

/-- What a path holds. -/
inductive Entry (α : Type) where
  | absent
  | database (db : Database α)
  /-- a regular file that is not a database -/
  | other (content : α)
  | symlink
  | directory
deriving DecidableEq

/-- The staging path, the destination and what decides the checks. The content of an entry is that
of the file at its path; `sidecars` says whether the destination has any, and their content is no
part of it, nor is a sidecar beside a destination that is absent. `commits` counts the renames and
links that have replaced the destination. -/
structure World (α : Type) where
  stage : Entry α
  destination : Entry α
  samePath : Bool
  sameFilesystem : Bool
  sidecars : Bool
  /-- another connection holds a lock on the destination -/
  inUse : Bool
  commits : Nat

/-- The operations that may fail. -/
inductive Step where
  | canonicalize
  | stageMetadata
  | directoryMetadata
  | syncDirectory
  | stageSymlinkMetadata
  | openStage
  | syncStage
  | destinationMetadata
  | openGuard
  | busyTimeout
  | lockingMode
  | lock
  | userVersion
  | journalMode
  | rollback
  | leaveWal
  | relock
  | rename
  | unlock
  | restoreWal
  | link
  | removeStage
  | syncPublished
deriving DecidableEq

variable {α : Type}

/-- A failing step, with the text of its error. -/
abbrev Fault := Option (Step × String)

/-- How a step ends. -/
def attempt (fault : Fault) (step : Step) (message : String → String) : Except String Unit :=
  match fault with
  | none => .ok ()
  | some (failing, e) => if failing = step then .error (message e) else .ok ()

/-- An early return with an error. -/
def refuse (condition : Bool) (message : String) : Except String Unit :=
  if condition then .error message else .ok ()

/-- `io_error` -/
def ioError (e : String) : String := s!"cannot publish imported database: {e}"

/-- `metadata.is_file()` of the entry itself. -/
def Entry.isFile : Entry α → Bool
  | .database _ | .other _ => true
  | _ => false

/-- The checks before the destination is looked at. -/
def prepare (fault : Fault) (w : World α) : Except String Unit := do
  attempt fault .canonicalize id
  attempt fault .stageMetadata id
  refuse (w.stage matches .absent) "No such file or directory"
  attempt fault .directoryMetadata id
  refuse (!w.sameFilesystem) "import staging and destination must be on the same filesystem"
  attempt fault .syncDirectory fun e => s!"cannot sync import destination directory: {e}"
  attempt fault .stageSymlinkMetadata id
  refuse (w.stage matches .symlink) "import staging file must not be a symlink"
  refuse w.samePath "import staging and destination are identical"
  attempt fault .openStage ioError
  refuse (w.stage matches .directory) (ioError "Is a directory")
  attempt fault .syncStage ioError
  attempt fault .destinationMetadata ioError

/-- The error of the first exclusive lock. -/
def inUseError (e : String) : String :=
  s!"destination is in use; offline overwrite requires an exclusive lock: {e}"

/-- The checks of an existing destination, up to its journal mode: they end with its database under
an exclusive lock. -/
def lockExisting (fault : Fault) (overwrite : Bool) (w : World α) :
    Except String (Database α) := do
  refuse (!overwrite)
    "destination already exists; use --overwrite-destination for an offline replacement"
  refuse (!w.destination.isFile) "overwrite destination must be a regular database file"
  refuse w.sidecars
    "destination has SQLite sidecars; close all database connections and checkpoint before overwrite"
  attempt fault .openGuard fun e => s!"cannot lock overwrite destination: {e}"
  attempt fault .busyTimeout id
  attempt fault .lockingMode inUseError
  attempt fault .lock inUseError
  refuse w.inUse (inUseError "database is locked")
  match w.destination with
  | .database db => do
      attempt fault .userVersion id
      refuse (db.userVersion == 0) "overwrite destination is not a Velr database"
      attempt fault .journalMode id
      pure db
  | _ => .error (inUseError "file is not a database")

/-- `fs::rename(stage, destination)` and, should it fail, the return to WAL mode. -/
def replace (fault : Fault) (db : Database α) (w : World α) : Except String Unit × World α :=
  match attempt fault .rename id with
  | .ok () =>
      (.ok (), { w with destination := w.stage, stage := .absent, commits := w.commits + 1 })
  | .error e =>
      if db.journal = .wal then
        let restore :=
          fun restore => s!"cannot publish imported database: {e}; existing graph data " ++
          s!"preserved, but restoring WAL mode failed: {restore}"
        match attempt fault .unlock restore with
        | .error e => (.error e, w)
        | .ok () =>
            match attempt fault .restoreWal restore with
            | .error e => (.error e, w)
            | .ok () => (.error (ioError e), { w with destination := .database db })
      else (.error (ioError e), w)

/-- The switch of an existing destination out of WAL mode, and its replacement. -/
def replaceLocked (fault : Fault) (db : Database α) (w : World α) :
    Except String Unit × World α :=
  if db.journal = .wal then
    match attempt fault .rollback id with
    | .error e => (.error e, w)
    | .ok () =>
        match attempt fault .leaveWal fun e => s!"destination is not offline: {e}" with
        | .error e => (.error e, w)
        | .ok () =>
            let w := { w with destination := .database { db with journal := .delete } }
            match attempt fault .relock fun e => s!"destination is not offline: {e}" with
            | .error e => (.error e, w)
            | .ok () => replace fault db w
  else replace fault db w

/-- `fs::hard_link(stage, destination)`; the staging link that is left over may stay. -/
def linkNew (fault : Fault) (w : World α) : Except String Unit × World α :=
  match attempt fault .link ioError with
  | .error e => (.error e, w)
  | .ok () =>
      let w := { w with destination := w.stage, commits := w.commits + 1 }
      match attempt fault .removeStage id with
      | .error _ => (.ok (), w)
      | .ok () => (.ok (), { w with stage := .absent })

/-- `publish_import`. A directory that cannot be synced after the commit is only reported. -/
def publishImport (fault : Fault) (overwrite : Bool) (w : World α) :
    Except String Unit × World α :=
  match prepare fault w with
  | .error e => (.error e, w)
  | .ok () =>
      match w.destination with
      | .absent => linkNew fault w
      | _ =>
          match lockExisting fault overwrite w with
          | .error e => (.error e, w)
          | .ok db => replaceLocked fault db w

/-! ## Atomicity -/

/-- An error leaves the destination as it was and success puts the staged file there; the rename or
link is what decides. -/
def Atomic (w : World α) (result : Except String Unit × World α) : Prop :=
  match result.1 with
  | .error _ => result.2.destination = w.destination ∧ result.2.commits = w.commits
  | .ok () => result.2.destination = w.stage ∧ w.stage.isFile = true ∧
      result.2.commits = w.commits + 1

instance [DecidableEq α] (w : World α) (result : Except String Unit × World α) :
    Decidable (Atomic w result) := by
  unfold Atomic
  split <;> infer_instance

/-- Every check passes and the destination is a WAL database. -/
structure Relocks (overwrite : Bool) (w : World α) : Prop where
  stage : w.stage.isFile = true
  sameFilesystem : w.sameFilesystem = true
  samePath : w.samePath = false
  overwrite : overwrite = true
  sidecars : w.sidecars = false
  inUse : w.inUse = false
  wal : ∃ db, w.destination = .database db ∧ db.userVersion ≠ 0 ∧ db.journal = .wal

section
variable {fault : Fault} {overwrite : Bool} {w : World α} {db : Database α}

/-- A step fails only where the fault is. -/
theorem attempt_error {step : Step} {message : String → String} {e : String}
    (h : attempt fault step message = .error e) : ∃ e', fault = some (step, e') := by
  unfold attempt at h
  split at h
  · cases h
  · split at h
    · next hstep => exact ⟨_, by rw [← hstep]⟩
    · cases h

theorem attempt_of_ne {step failing : Step} {message : String → String} {e : String}
    (h : failing ≠ step) : attempt (some (failing, e)) step message = .ok () := if_neg h

theorem refuse_ok {condition : Bool} {message : String} {u : Unit}
    (h : refuse condition message = .ok u) : condition = false := by
  cases condition with
  | false => rfl
  | true => cases h

/-- What the first checks establish. -/
theorem prepare_ok (h : prepare fault w = .ok ()) :
    w.stage.isFile = true ∧ w.sameFilesystem = true ∧ w.samePath = false := by
  unfold prepare at h
  obtain ⟨_, _, h⟩ := bind_eq_ok_iff.mp h
  obtain ⟨_, _, h⟩ := bind_eq_ok_iff.mp h
  obtain ⟨_, habsent, h⟩ := bind_eq_ok_iff.mp h
  obtain ⟨_, _, h⟩ := bind_eq_ok_iff.mp h
  obtain ⟨_, hfilesystem, h⟩ := bind_eq_ok_iff.mp h
  obtain ⟨_, _, h⟩ := bind_eq_ok_iff.mp h
  obtain ⟨_, _, h⟩ := bind_eq_ok_iff.mp h
  obtain ⟨_, hsymlink, h⟩ := bind_eq_ok_iff.mp h
  obtain ⟨_, hpath, h⟩ := bind_eq_ok_iff.mp h
  obtain ⟨_, _, h⟩ := bind_eq_ok_iff.mp h
  obtain ⟨_, hdirectory, _⟩ := bind_eq_ok_iff.mp h
  refine ⟨?_, by simpa using refuse_ok hfilesystem, refuse_ok hpath⟩
  have habsent := refuse_ok habsent
  have hsymlink := refuse_ok hsymlink
  have hdirectory := refuse_ok hdirectory
  cases hstage : w.stage <;> simp_all [Entry.isFile]

/-- What the checks of an existing destination establish. -/
theorem lockExisting_ok (h : lockExisting fault overwrite w = .ok db) :
    overwrite = true ∧ w.sidecars = false ∧ w.inUse = false ∧ w.destination = .database db ∧
      db.userVersion ≠ 0 := by
  unfold lockExisting at h
  obtain ⟨_, hoverwrite, h⟩ := bind_eq_ok_iff.mp h
  obtain ⟨_, _, h⟩ := bind_eq_ok_iff.mp h
  obtain ⟨_, hsidecars, h⟩ := bind_eq_ok_iff.mp h
  obtain ⟨_, _, h⟩ := bind_eq_ok_iff.mp h
  obtain ⟨_, _, h⟩ := bind_eq_ok_iff.mp h
  obtain ⟨_, _, h⟩ := bind_eq_ok_iff.mp h
  obtain ⟨_, _, h⟩ := bind_eq_ok_iff.mp h
  obtain ⟨_, hinUse, h⟩ := bind_eq_ok_iff.mp h
  refine ⟨by simpa using refuse_ok hoverwrite, refuse_ok hsidecars, refuse_ok hinUse, ?_⟩
  split at h
  · next db' hdestination =>
      obtain ⟨_, _, h⟩ := bind_eq_ok_iff.mp h
      obtain ⟨_, hversion, h⟩ := bind_eq_ok_iff.mp h
      obtain ⟨_, _, h⟩ := bind_eq_ok_iff.mp h
      cases h
      exact ⟨hdestination, by simpa using refuse_ok hversion⟩
  · cases h

/-- Where every check passes, a failing second lock is reached. -/
theorem publishImport_relock {e : String} (h : Relocks overwrite w) :
    ∃ db, w.destination = .database db ∧ db.journal = .wal ∧
      publishImport (some (.relock, e)) overwrite w =
        (.error s!"destination is not offline: {e}",
          { w with destination := .database { db with journal := .delete } }) := by
  obtain ⟨hstage, hfilesystem, hpath, hoverwrite, hsidecars, hinUse, db, hdestination, hversion,
    hwal⟩ := h
  have hprepare : prepare (some (.relock, e)) w = .ok () := by
    cases hentry : w.stage <;> simp [hentry, Entry.isFile] at hstage <;>
      simp [prepare, attempt, refuse, hentry, hfilesystem, hpath, bind, Except.bind]
  have hlock : lockExisting (some (.relock, e)) overwrite w = .ok db := by
    simp [lockExisting, attempt, refuse, hoverwrite, hdestination, Entry.isFile, hsidecars, hinUse,
      hversion, bind, Except.bind, pure, Except.pure]
  refine ⟨db, hdestination, hwal, ?_⟩
  simp [publishImport, hprepare, hlock, hdestination, replaceLocked, attempt, hwal]

/-- The rename replaces the destination, or leaves it in its journal mode. -/
theorem replace_atomic {w' : World α} (hfile : w.stage.isFile = true)
    (hdestination : w.destination = .database db) (hstage : w'.stage = w.stage)
    (hcommits : w'.commits = w.commits) (hkept : db.journal ≠ .wal → w' = w) :
    Atomic w (replace fault db w') := by
  unfold replace
  split
  · exact ⟨hstage, hfile, by simp only [hcommits]⟩
  · next e he =>
      obtain ⟨e', rfl⟩ := attempt_error he
      split
      · have hunlock : ∀ message, attempt (some (.rename, e')) .unlock message = .ok () :=
          fun _ => attempt_of_ne (by decide)
        have hrestore : ∀ message, attempt (some (.rename, e')) .restoreWal message = .ok () :=
          fun _ => attempt_of_ne (by decide)
        simp only [hunlock, hrestore]
        exact ⟨hdestination.symm, hcommits⟩
      · next hwal => rw [hkept hwal]; exact ⟨rfl, rfl⟩

/-- Publishing is atomic exactly when the failing step is not the second lock of a WAL destination
that passes every check: there the switch to the rollback journal has happened and is not undone. -/
theorem publish_atomic_iff (fault : Fault) (overwrite : Bool) (w : World α) :
    Atomic w (publishImport fault overwrite w) ↔
      ¬ ((∃ e, fault = some (.relock, e)) ∧ Relocks overwrite w) := by
  constructor
  · intro hatomic hdefect
    obtain ⟨⟨e, rfl⟩, hrelocks⟩ := hdefect
    obtain ⟨db, hdestination, hwal, hpublish⟩ := publishImport_relock (e := e) hrelocks
    rw [hpublish] at hatomic
    have hsame := hatomic.1
    rw [hdestination] at hsame
    simp only [Entry.database.injEq] at hsame
    rw [← hsame] at hwal
    cases hwal
  · intro hsafe
    unfold publishImport
    split
    · exact ⟨rfl, rfl⟩
    · next hprepare =>
        obtain ⟨hstage, hfilesystem, hpath⟩ := prepare_ok hprepare
        split
        · unfold linkNew
          split
          · exact ⟨rfl, rfl⟩
          · simp only
            split <;> exact ⟨rfl, hstage, rfl⟩
        · split
          · exact ⟨rfl, rfl⟩
          · next db hlock =>
              obtain ⟨hoverwrite, hsidecars, hinUse, hdestination, hversion⟩ :=
                lockExisting_ok hlock
              have hfault : db.journal = .wal → ∀ e, fault ≠ some (.relock, e) :=
                fun hwal e hrelock => hsafe ⟨⟨e, hrelock⟩, hstage, hfilesystem, hpath, hoverwrite,
                  hsidecars, hinUse, db, hdestination, hversion, hwal⟩
              unfold replaceLocked
              split
              · next hwal =>
                  split
                  · exact ⟨rfl, rfl⟩
                  · split
                    · exact ⟨rfl, rfl⟩
                    · simp only
                      split
                      · next e he =>
                          obtain ⟨e', hrelock⟩ := attempt_error he
                          exact absurd hrelock (hfault hwal e')
                      · exact replace_atomic hstage hdestination rfl rfl fun hne => absurd hwal hne
              · next hwal => exact replace_atomic hstage hdestination rfl rfl fun _ => rfl

end

/-- A WAL database at the destination. -/
def walWorld : World Nat where
  stage := .database { content := 2, userVersion := 1, journal := .delete }
  destination := .database { content := 1, userVersion := 1, journal := .wal }
  samePath := false
  sameFilesystem := true
  sidecars := false
  inUse := false
  commits := 0

/-- The second lock fails: the import is refused and the destination has left WAL mode. -/
theorem relock_not_atomic :
    ¬ Atomic walWorld (publishImport (some (.relock, "disk I/O error")) true walWorld) := by
  decide

end Velr.Publish
