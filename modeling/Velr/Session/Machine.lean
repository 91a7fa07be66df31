import Mathlib.Logic.Relation
import Mathlib.Logic.Function.Basic
import Velr.PageWriter.Dynamic

/-!
# Writers that share an allocator

A session: one coordinator, any number of workers forked from it, the block allocator they share
and the database file. Every agent owns its writer; a call of one of the writer's methods is a
program over atomic accesses, and a step of the session performs one access of one agent, so the
calls of different agents interleave in every order. The compare-and-swap loop of
`BlockAllocator::grant` is taken apart into its loads and exchanges.

Agent `0` is the coordinator. Rust's borrows show in two guards: `fork_dynamic` borrows the
coordinator, so it starts while the coordinator is idle, and any other call of the coordinator
starts when no fork is in progress.
-/

namespace Velr.Session

open ByteString Interleaving

/-- A page written as a whole. A write that fails leaves its page unspecified and is not listed. -/
structure Write where
  agent : Nat
  /-- The page was written by `finish`. -/
  finishing : Bool
  page : Nat
  bytes : Bytes

/-- The shared part of `BlockAllocator`, and the file. -/
structure Shared where
  next : Nat
  active : Int
  failed : Bool
  /-- `roots`, each with the agent that claimed it. -/
  claims : List (Nat × Nat)
  /-- `free_output` with the ranges of the spool, `None` once it was taken. -/
  freeOutput : Option (List (Nat × Nat))
  freeCount : Nat
  /-- The pages written, oldest first. -/
  file : List Write
  /-- The database header, once `finish` has written it. -/
  header : Option Bytes

/-- The loop of `return_tail`. The buffer of the spool holds whole ranges, so what an error leaves
behind are the ranges in front of it. -/
def Shared.spool (s : Shared) (ranges done : List (Nat × Nat)) : Shared :=
  { s with
    freeOutput := some (ranges ++ done)
    freeCount := (s.freeCount + (rangePages done).length) % 4294967296 }

/-- `agent` performs the access `i`, which is answered with `answer`. Every file operation may
fail. A grant is not one access; `Step` performs it. -/
def Shared.Performs (agent : Nat) (finishing : Bool) (s : Shared) (i : Access) (answer : i.Answer)
    (s' : Shared) : Prop :=
  match i, answer with
  | .claimRoot root, .ok () =>
      root ∉ s.claims.map Prod.snd ∧ s' = { s with claims := (agent, root) :: s.claims }
  | .free ranges, .ok () =>
      ∃ spool, s.freeOutput = some spool ∧ s' = s.spool spool ranges
  | .free ranges, .error fault =>
      fault.isPanic = false ∧ (s' = s ∨
        ∃ spool done, s.freeOutput = some spool ∧ done <+: ranges ∧ s' = s.spool spool done)
  | .write page bytes, .ok () => s' = { s with file := s.file ++ [⟨agent, finishing, page, bytes⟩] }
  | .storeFailed, () => s' = { s with failed := true }
  | .enter, () => s' = { s with active := s.active + 1 }
  | .leave, () => s' = { s with active := s.active - 1 }
  | .loadFailed, failed => failed = s.failed ∧ s' = s
  | .loadActive, active => active = s.active ∧ s' = s
  | .loadNext, next => next = s.next ∧ s' = s
  | .loadFreeCount, count => count = s.freeCount ∧ s' = s
  | .closeFree, .ok ranges => s.freeOutput = some ranges ∧ s' = { s with freeOutput := none }
  | .closeFree, .error fault => fault.isPanic = false ∧ s' = { s with freeOutput := none }
  | .writeHeader bytes, .ok () => s' = { s with header := some bytes }
  | .writeHeader _, .error fault => fault.isPanic = false ∧ ∃ header, s' = { s with header }
  | .grant _ _, _ => False
  | .flush, .ok () | .scratch, .ok () | .setLen _, .ok () => s' = s
  | .claimRoot _, .error fault | .write _ _, .error fault | .flush, .error fault
  | .scratch, .error fault | .setLen _, .error fault => fault.isPanic = false ∧ s' = s

/-! ## Agents -/

/-- A call of a method of the agent's writer. -/
inductive Call where
  | tree (root : Nat) (kind : Kind) (records : List (Except Fault Record))
  | complete
  | finish
  | drop

/-- The call, with the drop of the writer where the call takes it by value or panics. -/
def Call.program : Call → WriterM Unit
  | .tree root kind records => do
      let result ← Method.attempt (Writer.treeFrom root kind records)
      match result with
      | .ok () => pure ()
      | .error (.error message) => Method.throw (.error message)
      | .error (.panic message) => do
          Writer.drop
          Method.throw (.panic message)
  | .complete => Writer.consuming Writer.complete
  | .finish => Writer.consuming Writer.finish
  | .drop => Writer.drop

/-- The writer survives the call: a tree that was written, or that failed without a panic. -/
def Call.keeps : Call → Except Fault Unit → Bool
  | .tree _ _ _, .ok () => true
  | .tree _ _ _, .error fault => !fault.isPanic
  | _, _ => false

inductive Phase where
  | absent
  /-- `fork_dynamic` is making the worker. -/
  | forking (root : Nat) (program : Prog Access Access.Answer (Except Fault Writer × Writer))
  | idle (writer : Writer)
  /-- In a call; `loaded` is the local `start` of the loop in `grant`. -/
  | calling (call : Call) (loaded : Option Nat)
      (program : Prog Access Access.Answer (Except Fault Unit × Writer))
  | gone

inductive Event where
  | forked (agent root : Nat)
  | started (agent : Nat) (call : Call)
  | returned (agent : Nat) (call : Call) (result : Except Fault Unit)

structure State where
  shared : Shared
  agents : Nat → Phase
  /-- The agents so far have smaller numbers. -/
  count : Nat
  /-- What has happened, the latest first. -/
  log : List Event

/-- The state in which the coordinator `w` has just enabled dynamic allocation. -/
def initial (w : Writer) : State where
  shared :=
    { next := w.nextPage
      active := 0
      failed := false
      claims := []
      freeOutput := some []
      freeCount := 0
      file := []
      header := none }
  agents := Function.update (fun _ => .absent) 0 (.idle w)
  count := 1
  log := []

/-- The state with the phase of one agent replaced. -/
def State.put (s : State) (agent : Nat) (phase : Phase) : State :=
  { s with agents := Function.update s.agents agent phase }

/-- Go on with a call. It returns in the step of its last access, as what follows is local. -/
def State.resume (s : State) (agent : Nat) (call : Call) :
    Prog Access Access.Answer (Except Fault Unit × Writer) → State
  | .ret (result, w) =>
      { s with log := .returned agent call result :: s.log }.put agent
        (if call.keeps result then .idle w else .gone)
  | .access i k => s.put agent (.calling call none (.access i k))

/-- Go on with a fork. -/
def State.resumeFork (s : State) (agent root : Nat) :
    Prog Access Access.Answer (Except Fault Writer × Writer) → State
  | .ret (.ok worker, _) => { s with log := .forked agent root :: s.log }.put agent (.idle worker)
  | .ret (.error _, _) => s.put agent .gone
  | .access i k => s.put agent (.forking root (.access i k))

def isFinish : Call → Bool
  | .finish => true
  | _ => false

/-- No call of `fork_dynamic` is in progress. -/
def State.Unforked (s : State) : Prop := ∀ agent root program,
  s.agents agent ≠ .forking root program

inductive Step : State → State → Prop where
  | fork {s : State} {w : Writer} (root : Nat) : s.agents 0 = .idle w →
      Step s ({ s with count := s.count + 1 }.resumeFork s.count root (Writer.forkDynamic root w))
  | start {s : State} {agent : Nat} {w : Writer} (call : Call) : s.agents agent = .idle w →
      (agent = 0 → s.Unforked) →
      Step s ({ s with log := .started agent call :: s.log }.resume agent call (call.program w))
  | forkAccess {s : State} {agent root : Nat} {i : Access}
      {k : i.Answer → Prog Access Access.Answer (Except Fault Writer × Writer)} {answer : i.Answer}
      {shared : Shared} : s.agents agent = .forking root (.access i k) →
      s.shared.Performs agent false i answer shared →
      Step s ({ s with shared }.resumeFork agent root (k answer))
  | access {s : State} {agent : Nat} {call : Call} {loaded : Option Nat} {i : Access}
      {k : i.Answer → Prog Access Access.Answer (Except Fault Unit × Writer)} {answer : i.Answer}
      {shared : Shared} : s.agents agent = .calling call loaded (.access i k) →
      s.shared.Performs agent (isFinish call) i answer shared →
      Step s ({ s with shared }.resume agent call (k answer))
  /-- The load in front of the loop, or an exchange that failed, possibly without a reason. -/
  | load {s : State} {agent : Nat} {call : Call} {loaded : Option Nat} {allocator : Allocator}
      {pages : Nat}
      {k : Except Fault (Nat × Nat) → Prog Access Access.Answer (Except Fault Unit × Writer)} :
      s.agents agent = .calling call loaded (.access (.grant allocator pages) k) →
      Step s (s.put agent (.calling call (some s.shared.next) (.access (.grant allocator pages) k)))
  /-- The page numbers behind the value loaded are used up. -/
  | overflow {s : State} {agent : Nat} {call : Call} {start : Nat} {allocator : Allocator}
      {pages : Nat} {fault : Fault}
      {k : Except Fault (Nat × Nat) → Prog Access Access.Answer (Except Fault Unit × Writer)} :
      s.agents agent = .calling call (some start) (.access (.grant allocator pages) k) →
      allocator.grantEnd pages start = .error fault →
      Step s (s.resume agent call (k (.error fault)))
  | exchange {s : State} {agent : Nat} {call : Call} {start stop : Nat} {allocator : Allocator}
      {pages : Nat}
      {k : Except Fault (Nat × Nat) → Prog Access Access.Answer (Except Fault Unit × Writer)} :
      s.agents agent = .calling call (some start) (.access (.grant allocator pages) k) →
      allocator.grantEnd pages start = .ok stop → s.shared.next = start →
      Step s ({ s with shared := { s.shared with next := stop } }.resume agent call
        (k (.ok (start, stop))))

abbrev Steps : State → State → Prop := Relation.ReflTransGen Step

/-- `w` is the coordinator of a session on a file of `length` bytes that starts with `header`. -/
def Opens (header : Bytes) (length blockBytes : Nat) (w : Writer) : Prop :=
  ∃ opened, Writer.openFile header length = .ok opened ∧
    Prog.Exec ⟨fun _ _ => True, fun _ _ _ _ => True⟩ (Writer.enableDynamic blockBytes opened) ()
      (.ok (), w) ()

/-- A file that is opened for dynamic workers has its coordinator. -/
theorem Opens.coordinates {header : Bytes} {length blockBytes : Nat} {w : Writer}
    (h : Opens header length blockBytes w) : ∃ blockPages, w.Coordinates header blockPages := by
  obtain ⟨opened, hopen, hrun⟩ := h
  exact Prog.Safe.exec (Writer.enableDynamic_coordinates hopen fun _ _ => trivial) hrun

end Velr.Session
