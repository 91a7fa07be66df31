import Velr.PageWriter.Tree
import Velr.Session.Poison

/-!
# Runs of one agent at a time

A schedule in which every call runs to its end before the next one starts, on a file whose
operations succeed. Each such run is a run of the session (`State.call_steps`, `State.fork_steps`);
concrete sessions are evaluated with them.
-/

namespace Velr.Session

open ByteString Interleaving Method Writer

/-- The answer of an access when no file operation fails and no other agent acts. -/
def Shared.serve (agent : Nat) (finishing : Bool) (s : Shared) : (i : Access) → i.Answer × Shared
  | .claimRoot root =>
      if root ∈ s.claims.map Prod.snd then (.error claimedRoot, s)
      else (.ok (), { s with claims := (agent, root) :: s.claims })
  | .grant allocator pages =>
      match allocator.grantEnd pages s.next with
      | .ok stop => (.ok (s.next, stop), { s with next := stop })
      | .error fault => (.error fault, s)
  | .free ranges =>
      match s.freeOutput with
      | some spool => (.ok (), s.spool spool ranges)
      | none => (.error (invalid "free-page spool is closed"), s)
  | .write page bytes => (.ok (), { s with file := s.file ++ [⟨agent, finishing, page, bytes⟩] })
  | .storeFailed => ((), { s with failed := true })
  | .enter => ((), { s with active := s.active + 1 })
  | .leave => ((), { s with active := s.active - 1 })
  | .loadFailed => (s.failed, s)
  | .loadActive => (s.active, s)
  | .loadNext => (s.next, s)
  | .loadFreeCount => (s.freeCount, s)
  | .closeFree =>
      match s.freeOutput with
      | some ranges => (.ok ranges, { s with freeOutput := none })
      | none => (.error (invalid "free-page spool is closed"), { s with freeOutput := none })
  | .writeHeader bytes => (.ok (), { s with header := some bytes })
  | .flush | .scratch | .setLen _ => (.ok (), s)

/-- What `serve` answers is an answer of the machine, but for a grant. -/
theorem Shared.serve_performs (agent : Nat) (finishing : Bool) (s : Shared) (i : Access)
    (hgrant : ∀ allocator pages, i ≠ .grant allocator pages) :
    s.Performs agent finishing i (s.serve agent finishing i).1 (s.serve agent finishing i).2 := by
  cases i with
  | claimRoot root =>
      by_cases hclaimed : root ∈ s.claims.map Prod.snd
      · rw [show s.serve agent finishing (.claimRoot root) = (.error claimedRoot, s) from
          if_pos hclaimed]
        exact ⟨rfl, rfl⟩
      · rw [show s.serve agent finishing (.claimRoot root)
          = (.ok (), { s with claims := (agent, root) :: s.claims }) from if_neg hclaimed]
        exact ⟨hclaimed, rfl⟩
  | grant allocator pages => exact absurd rfl (hgrant allocator pages)
  | free ranges =>
      simp only [serve]
      cases hfree : s.freeOutput with
      | some spool => exact ⟨spool, hfree, rfl⟩
      | none => exact ⟨rfl, .inl rfl⟩
  | closeFree =>
      simp only [serve]
      cases hfree : s.freeOutput with
      | some ranges => exact ⟨hfree, rfl⟩
      | none => exact ⟨rfl, rfl⟩
  | loadFailed | loadActive | loadNext | loadFreeCount => exact ⟨rfl, rfl⟩
  | write | storeFailed | enter | leave | writeHeader | flush | scratch | setLen => rfl

@[simp] theorem State.put_put (s : State) (agent : Nat) (a b : Phase) :
    (s.put agent a).put agent b = s.put agent b := by
  simp [put]

theorem State.resume_put (s : State) (agent : Nat) (phase : Phase) (call : Call)
    (p : Prog Access Access.Answer (Except Fault Unit × Writer)) :
    (s.put agent phase).resume agent call p = s.resume agent call p := by
  match p with
  | .access i k => exact s.put_put agent _ _
  | .ret (result, w) => simp [resume, put]

theorem State.resumeFork_put (s : State) (agent root : Nat) (phase : Phase)
    (p : Prog Access Access.Answer (Except Fault Writer × Writer)) :
    (s.put agent phase).resumeFork agent root p = s.resumeFork agent root p := by
  match p with
  | .access i k => exact s.put_put agent _ _
  | .ret (.ok worker, w) => simp [resumeFork, put]
  | .ret (.error fault, w) => exact s.put_put agent _ _

theorem State.put_self (s : State) (agent : Nat) (phase : Phase) :
    (s.put agent phase).agents agent = phase := Function.update_self _ _ _

/-- One access of a call, answered as `serve` does. -/
theorem Steps.served {s : State} {agent : Nat} {call : Call} {i : Access}
    {k : i.Answer → Prog Access Access.Answer (Except Fault Unit × Writer)}
    (hcalling : s.agents agent = .calling call none (.access i k)) :
    Steps s ({ s with shared := (s.shared.serve agent (isFinish call) i).2 }.resume agent call
      (k (s.shared.serve agent (isFinish call) i).1)) := by
  by_cases hgrant : ∀ allocator pages, i ≠ .grant allocator pages
  · exact .single (Step.access hcalling (s.shared.serve_performs agent (isFinish call) i hgrant))
  · simp only [ne_eq, not_forall, not_not] at hgrant
    obtain ⟨allocator, pages, rfl⟩ := hgrant
    refine .head (Step.load hcalling) ?_
    have hloaded := s.put_self agent
      (.calling call (some s.shared.next) (.access (.grant allocator pages) k))
    rw [← State.resume_put _ agent
      (.calling call (some s.shared.next) (.access (.grant allocator pages) k))]
    simp only [Shared.serve]
    cases hstop : allocator.grantEnd pages s.shared.next with
    | ok stop => exact .single (Step.exchange hloaded hstop rfl)
    | error fault => exact .single (Step.overflow hloaded hstop)

/-- The first access of what is left of a call. -/
theorem State.resume_served (s : State) (agent : Nat) (call : Call) (i : Access)
    (k : i.Answer → Prog Access Access.Answer (Except Fault Unit × Writer)) :
    Steps (s.resume agent call (.access i k))
      ({ s with shared := (s.shared.serve agent (isFinish call) i).2 }.resume agent call
        (k (s.shared.serve agent (isFinish call) i).1)) := by
  have hserved := Steps.served (s.put_self agent (.calling call none (.access i k)))
  have hput :=
    State.resume_put { s with shared := (s.shared.serve agent (isFinish call) i).2 } agent
    (.calling call none (.access i k)) call (k (s.shared.serve agent (isFinish call) i).1)
  rw [← hput]
  exact hserved

/-- A call runs to its end. -/
theorem State.resume_steps (agent : Nat) (call : Call) :
    ∀ (p : Prog Access Access.Answer (Except Fault Unit × Writer)) (s : State),
      Steps (s.resume agent call p)
        ({ s with shared := (p.run (Shared.serve agent (isFinish call)) s.shared).2 }.resume agent
          call (.ret (p.run (Shared.serve agent (isFinish call)) s.shared).1))
  | .ret _, _ => .refl
  | .access i k, s =>
      (s.resume_served agent call i k).trans
        (State.resume_steps agent call (k (s.shared.serve agent (isFinish call) i).1)
          { s with shared := (s.shared.serve agent (isFinish call) i).2 })

/-- Any accesses but grants. -/
def grantless : Protocol Access Access.Answer Unit where
  allowed _ i := ∀ allocator pages, i ≠ .grant allocator pages
  answers _ _ _ _ := True

/-- A fork runs to its end. -/
theorem State.resumeFork_steps (agent root : Nat) :
    ∀ (p : Prog Access Access.Answer (Except Fault Writer × Writer)) (s : State),
      Prog.Safe grantless p (fun _ _ => True) () →
      Steps (s.resumeFork agent root p)
        ({ s with shared := (p.run (Shared.serve agent false) s.shared).2 }.resumeFork agent root
          (.ret (p.run (Shared.serve agent false) s.shared).1))
  | .ret r, s, _ => .refl
  | .access i k, s, hgrant => by
      refine .head (Step.forkAccess (s.put_self agent (.forking root (.access i k)))
        (s.shared.serve_performs agent false i hgrant.1)) ?_
      have hrest := State.resumeFork_steps agent root (k (s.shared.serve agent false i).1)
        { s with shared := (s.shared.serve agent false i).2 } (hgrant.2 _ () trivial)
      rw [← State.resumeFork_put _ agent root (.forking root (.access i k))] at hrest
      exact hrest

/-! ## Schedules -/

/-- `agent` makes a call. -/
def State.call (s : State) (agent : Nat) (call : Call) : State :=
  match s.agents agent with
  | .idle w =>
      let r := (call.program w).run (Shared.serve agent (isFinish call)) s.shared
      { s with shared := r.2, log := .started agent call :: s.log }.resume agent call (.ret r.1)
  | _ => s

/-- The coordinator forks a worker. -/
def State.fork (s : State) (root : Nat) : State :=
  match s.agents 0 with
  | .idle w =>
      let r := (forkDynamic root w).run (Shared.serve s.count false) s.shared
      { s with shared := r.2, count := s.count + 1 }.resumeFork s.count root (.ret r.1)
  | _ => s

/-- A call that is run to its end is steps of the machine. -/
theorem State.call_steps (s : State) (agent : Nat) (call : Call)
    (hunforked : agent = 0 → s.Unforked) : Steps s (s.call agent call) := by
  unfold State.call
  split
  · rename_i w hidle
    refine .head (Step.start call hidle hunforked) ?_
    exact State.resume_steps agent call (call.program w)
      { s with log := .started agent call :: s.log }
  · exact .refl

/-- A fork asks for no pages. -/
theorem forkDynamic_grantless (root : Nat) (w : Writer) :
    Prog.Safe grantless (forkDynamic root w) (fun _ _ => True) () := by
  have h : Ensures grantless (forkDynamic root) w () (fun _ _ _ => True) (fun _ _ _ => True) := by
    simp only [forkDynamic, ensures_bind, ensures_get]
    cases w.allocator with
    | none => trivial
    | some allocator =>
        simp only
        split
        · trivial
        · simp only [scratch, claimRoot, ensures_bind, ensures_call, ensures_ofExcept, ensures_pure]
          refine ⟨by simp [grantless], fun _ _ _ => ⟨fun _ _ => ?_, fun _ _ => trivial⟩⟩
          split
          · trivial
          · simp [ensures_bind, grantless]
  refine Prog.Safe.mono (fun _ _ _ => trivial) h

/-- So is a fork. -/
theorem State.fork_steps (s : State) (root : Nat) : Steps s (s.fork root) := by
  unfold State.fork
  split
  · rename_i w hidle
    refine .head (Step.fork root hidle) ?_
    exact State.resumeFork_steps s.count root (forkDynamic root w) { s with count := s.count + 1 }
      (forkDynamic_grantless root w)
  · exact .refl

theorem State.Unforked.put {s : State} (h : s.Unforked) (agent : Nat) {phase : Phase}
    (hphase : ∀ root p, phase ≠ .forking root p) : (s.put agent phase).Unforked := by
  intro a root p
  by_cases ha : a = agent
  · subst ha
    rw [State.put_self]
    exact hphase root p
  · simp only [State.put, Function.update_of_ne ha]
    exact h a root p

/-- A call that has run to its end leaves no fork in progress. -/
theorem State.Unforked.call {s : State} (h : s.Unforked) (agent : Nat) (call : Call) :
    (s.call agent call).Unforked := by
  unfold State.call
  split
  · refine State.Unforked.put (fun a root p => h a root p) agent fun root p => ?_
    split <;> simp
  · exact h

theorem State.Unforked.fork {s : State} (h : s.Unforked) (root : Nat) : (s.fork root).Unforked := by
  unfold State.fork
  split
  · rename_i w _
    simp only
    rcases (forkDynamic root w).run (Shared.serve s.count false) s.shared with
      ⟨⟨fault | worker, w'⟩, shared⟩
    · exact State.Unforked.put (fun a root p => h a root p) _ (by simp)
    · exact State.Unforked.put (fun a root p => h a root p) _ (by simp)
  · exact h

/-- Every file that `open` accepts starts a session. -/
theorem opens_of_openFile {header : Bytes} {length blockBytes : Nat} {w : Writer}
    (hopen : openFile header length = .ok w)
    (hblock : max (blockBytes / w.pageSize.bytes) 1 ≤ u32Max) :
    Opens header length blockBytes
      { w with
        allocator := some (w.freshAllocator (max (blockBytes / w.pageSize.bytes) 1))
        rangeEnd := some w.nextPage } := by
  refine ⟨w, hopen, ?_⟩
  obtain ⟨_, _, hw⟩ := openFile_eq hopen
  have hnone : ¬ (w.rangeEnd.isSome = true ∨ w.allocator.isSome = true) := by rw [hw]; simp
  have hensures : Ensures (protocol False) (enableDynamic blockBytes) w (.opened w)
      (fun _ w' _ => w' = { w with
        allocator := some (w.freshAllocator (max (blockBytes / w.pageSize.bytes) 1))
        rangeEnd := some w.nextPage }) (fun _ _ _ => False) := by
    simp only [enableDynamic, ensures_bind, ensures_get, if_neg hnone]
    refine ensures_flush ?_ fun _ hf => hf.elim
    rw [if_neg (by omega), ensures_bind]
    exact ensures_scratch rfl fun _ hf => hf.elim
  obtain ⟨l', hrun⟩ := Prog.exec_run (fun _ _ => True) (fun l u i _ => quiet_follows l u i)
    (enableDynamic blockBytes w) (l := .opened w) (m := ()) trivial
  have hresult := Prog.Safe.exec hensures hrun
  generalize hr : (Prog.run quiet (enableDynamic blockBytes w) ()).1 = r at hrun hresult
  obtain ⟨result, w'⟩ := r
  cases result with
  | error fault => exact hresult.elim
  | ok u =>
      obtain rfl : w' = _ := hresult
      exact hrun.forget

/-- The agent starts a call and performs the first access of it. -/
def State.begin (s : State) (agent : Nat) (call : Call) : State :=
  match s.agents agent with
  | .idle w =>
      match call.program w with
      | .access i k =>
          let r := s.shared.serve agent (isFinish call) i
          { s with shared := r.2, log := .started agent call :: s.log }.resume agent call (k r.1)
      | .ret r => { s with log := .started agent call :: s.log }.resume agent call (.ret r)
  | _ => s

/-- The call that the agent is in runs to its end. -/
def State.conclude (s : State) (agent : Nat) : State :=
  match s.agents agent with
  | .calling call none (.access i k) =>
      let r := (Prog.access i k).run (Shared.serve agent (isFinish call)) s.shared
      { s with shared := r.2 }.resume agent call (.ret r.1)
  | _ => s

/-- So is a call that has begun. -/
theorem State.begin_steps (s : State) (agent : Nat) (call : Call)
    (hunforked : agent = 0 → s.Unforked) : Steps s (s.begin agent call) := by
  unfold State.begin
  split
  · rename_i w hidle
    refine .head (Step.start call hidle hunforked) ?_
    cases hprogram : call.program w with
    | ret r => exact .refl
    | access i k =>
        exact State.resume_served { s with log := .started agent call :: s.log } agent call i k
  · exact .refl

/-- So is the rest of a call that has begun. -/
theorem State.conclude_steps (s : State) (agent : Nat) : Steps s (s.conclude agent) := by
  unfold State.conclude
  split
  · rename_i call i k hcalling
    have hself : s.resume agent call (.access i k) = s := by
      simp [State.resume, State.put, ← hcalling]
    have hrest := State.resume_steps agent call (.access i k) s
    rw [hself] at hrest
    exact hrest
  · exact .refl

/-! ## Two workers -/

/-- The header of a bootstrap database with pages of 512 bytes and no free pages. -/
def sampleHeader : Bytes := magic ++ [2, 0] ++ List.replicate 82 0

/-- The writer of a bootstrap database of three pages. -/
def sampleOpened : Writer where
  header := sampleHeader
  pageSize := smallWriter.pageSize
  nextPage := 4
  rangeEnd := none
  assignedRoot := none
  allocator := none
  dynamicWorker := false
  dynamicCompleted := false
  position := 3

/-- The coordinator on this database, with blocks of four pages. -/
def sampleWriter : Writer :=
  { sampleOpened with
    allocator := some (sampleOpened.freshAllocator 4)
    rangeEnd := some 4 }

/-- The sample file opens. -/
theorem sampleWriter_opens : Opens sampleHeader 1536 2048 sampleWriter := by
  have hbytes : ofBE (slice sampleHeader 16 2) = 512 := by decide +kernel
  have hopen : openFile sampleHeader 1536 = .ok sampleOpened := by
    unfold openFile
    rw [if_neg (by decide +kernel), if_neg (by decide +kernel), hbytes,
      show PageSize.check 512 = some sampleOpened.pageSize from rfl]
    simp only
    rw [if_neg (by decide +kernel), if_neg (by decide +kernel), if_neg (by decide +kernel)]
    rfl
  exact opens_of_openFile hopen (by decide)

/-- Three records of 200 bytes, which take two leaves. -/
def sampleRecords (first : Int64) : List (Except Fault Record) :=
  [first, first + 1, first + 2].map fun rowid => .ok (rowid, List.replicate 200 7)

/-- Two workers, with the pages 2 and 3 as roots. -/
def forkedSession : State := ((initial sampleWriter).fork 2).fork 3

/-- The workers have written a tree each and have completed. -/
def workedSession : State :=
  (((forkedSession.call 1 (.tree 2 .table (sampleRecords 1))).call 2
    (.tree 3 .table (sampleRecords 10))).call 1 .complete).call 2 .complete

def finishedSession : State := workedSession.call 0 .finish

/-- The second worker has loaded `failed` in `complete` when the tree of the first one fails, and
returns after that. -/
def overtakenSession : State :=
  (((forkedSession.call 2 (.tree 3 .table (sampleRecords 1))).begin 2 .complete).call 1
    (.tree 2 .table (sampleRecords 1 ++ [.error (invalid "record")]))).conclude 2

theorem unforked_initial (w : Writer) : (initial w).Unforked := by
  intro agent root p
  by_cases ha : agent = 0
  · subst ha
    simp [initial]
  · simp [initial, ha]

theorem forkedSession_unforked : forkedSession.Unforked :=
  ((unforked_initial sampleWriter).fork 2).fork 3

/-- Two workers are forked. -/
theorem forkedSession_steps : Steps (initial sampleWriter) forkedSession :=
  (State.fork_steps _ 2).trans (State.fork_steps _ 3)

/-- Each worker writes a tree and completes. -/
theorem workedSession_steps : Steps (initial sampleWriter) workedSession :=
  forkedSession_steps.trans ((State.call_steps _ 1 _ (by simp)).trans
    ((State.call_steps _ 2 _ (by simp)).trans ((State.call_steps _ 1 _ (by simp)).trans
      (State.call_steps _ 2 _ (by simp)))))

/-- The coordinator finishes. -/
theorem finishedSession_steps : Steps (initial sampleWriter) finishedSession :=
  workedSession_steps.trans (State.call_steps _ 0 _ fun _ =>
    (((forkedSession_unforked.call 1 _).call 2 _).call 1 _).call 2 _)

/-- A worker has begun to complete when the other one fails. -/
theorem overtakenSession_steps : Steps (initial sampleWriter) overtakenSession :=
  forkedSession_steps.trans ((State.call_steps _ 2 _ (by simp)).trans
    ((State.begin_steps _ 2 _ (by simp)).trans ((State.call_steps _ 1 _ (by simp)).trans
      (State.conclude_steps _ 2))))

/-- The finished session has published its header; in the other one nobody has begun to complete
behind the failure. -/
theorem failure_never_published_small :
    finishedSession.shared.header ≠ none ∧ Published finishedSession ∧
      overtakenSession.shared.failed = true ∧ Prompt overtakenSession.log := by
  have hheader : finishedSession.shared.header.isSome = true := by decide +kernel
  have hsome : finishedSession.shared.header ≠ none := by
    intro hnone
    rw [hnone] at hheader
    cases hheader
  exact ⟨hsome, (failure_never_published sampleWriter_opens finishedSession_steps).1 (.inl hsome),
    by decide +kernel, (failure_never_published sampleWriter_opens overtakenSession_steps).2.1⟩

instance Event.decidableFailure : DecidablePred Event.Failure
  | .returned _ (.tree _ _ _) (.error (.error _)) => isTrue trivial
  | .returned agent (.tree _ _ _) (.error (.panic _)) => inferInstanceAs (Decidable (agent ≠ 0))
  | .returned agent .complete (.error _) => inferInstanceAs (Decidable (agent ≠ 0))
  | .returned agent .finish (.error _) => inferInstanceAs (Decidable (agent ≠ 0))
  | .returned agent .drop _ => inferInstanceAs (Decidable (agent ≠ 0))
  | .returned _ (.tree _ _ _) (.ok _) | .returned _ .complete (.ok _)
  | .returned _ .finish (.ok _) | .forked _ _ | .started _ _ => isFalse id

def Event.isCompleted : Event → Bool
  | .returned _ .complete (.ok ()) => true
  | _ => false

/-- A worker can complete behind a failure, when it has begun to before it. -/
theorem completed_behind_failure : ¬ ∀ (header : Bytes) (length blockBytes : Nat) (w : Writer)
    (s : State), Opens header length blockBytes w → Steps (initial w) s →
    ∀ agent earlier, s.log = .returned agent .complete (.ok ()) :: earlier →
      ∀ e ∈ earlier, ¬ e.Failure := by
  intro h
  have hcompleted : ∃ agent,
      overtakenSession.log.head? = some (.returned agent .complete (.ok ())) := by
    have hlast : overtakenSession.log.head?.any Event.isCompleted = true := by decide +kernel
    obtain ⟨last, hhead, hlast⟩ := (Option.any_eq_true _ _).mp hlast
    unfold Event.isCompleted at hlast
    split at hlast
    · exact ⟨_, hhead⟩
    · cases hlast
  obtain ⟨agent, hhead⟩ := hcompleted
  obtain ⟨earlier, hlog⟩ := List.head?_eq_some_iff.mp hhead
  have hfailed : ∃ e ∈ overtakenSession.log.tail, e.Failure := by decide +kernel
  obtain ⟨e, he, hfailed⟩ := hfailed
  rw [hlog, List.tail_cons] at he
  exact h sampleHeader 1536 2048 sampleWriter overtakenSession sampleWriter_opens
    overtakenSession_steps agent earlier hlog e he hfailed

end Velr.Session
