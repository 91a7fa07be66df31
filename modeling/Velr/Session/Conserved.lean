import Velr.PageWriter.Finish
import Velr.PageWriter.Tree
import Velr.Session.Places
import Velr.Session.Run

/-!
# No page is lost or shared

The ledgers of all agents over whole sessions. As long as nothing has failed, every agent follows
`protocol` from a ledger of its own, and `Places` says of every page behind the bootstrap file where
it is. A call begins with a ledger that forgets the pages written before it, so what the ledger
holds at the end of the call is what the call has written.

Behind a failure a writer may still be used, and its block may overlap with the spool. Nothing is
claimed then: the failure stays in `failed`, and `finish` will not succeed.
-/

namespace Velr.Session

open ByteString Interleaving Format Method Writer

/-! ## What a call leaves behind -/

/-- The records of a tree are byte vectors. -/
def Call.Sized : Call → Prop
  | .tree _ _ records => ∀ record, .ok record ∈ records → record.2.length < 2 ^ 63
  | _ => True

/-- The ledger of an agent that has no page and no root. -/
def blank : Ledger where
  owned _ := False
  holes _ := False
  roots _ := False
  written := []

/-- The ledger at the start of a call. -/
def renewed (l : Ledger) (roots : Nat → Prop) : Ledger where
  owned := l.owned
  holes := l.holes
  roots := roots
  written := []

/-- What the ledger and the writer are when a call that began with `w` and `l` returns. -/
def Leaves (w : Writer) (l : Ledger) (call : Call) (result : Except Fault Unit) (w' : Writer)
    (l' : Ledger) : Prop :=
  match call, result with
  | .tree _ _ _, .ok () => w'.Ready l' ∧ w.Same w'
  | .complete, .ok () => ∀ page, ¬ l'.owned page
  | .finish, .ok () => ∃ ranges next count header, w.Finished l l' ranges next count header
  | _, _ => True

/-- The writer works on the file that begins with `header`. -/
def Based (header : Bytes) (size : PageSize) (w : Writer) : Prop :=
  w.header = header ∧ w.pageSize = size

/-- What the ledger of a worker is when it is made. -/
def ForkLeaves (header : Bytes) (size : PageSize) (result : Except Fault Writer) (l' : Ledger) :
    Prop :=
  match result with
  | .ok worker => worker.Ready l' ∧ Based header size worker
  | .error _ => ∀ page, ¬ l'.owned page

section
variable {w : Writer} {l : Ledger}

/-- A writer is ready on its renewed ledger. -/
theorem renewed_ready (h : w.Ready l) {roots : Nat → Prop}
    (hroots : ∀ root, roots root → ¬ l.owned root ∧ ¬ l.holes root) :
    w.Ready (renewed l roots) where
  wf :=
    { owned := by simp [renewed]
      holes := by simp [renewed]
      roots := by simp [renewed]
      apart := fun page hp hr => (hroots page hr).1 hp
      holes_apart := fun page hp => ⟨(h.wf.holes_apart page hp).1, fun hr => (hroots page hr).2 hp⟩
      nodup := by simp [renewed] }
  pending := h.pending
  range := h.range
  block := h.block
  exact := h.exact
  position := h.position
  unread := ⟨rfl, rfl, rfl⟩

/-- A tree, whether it fails or not, leaves the writer ready. -/
theorem tree_leaves {root : Nat} {kind : Kind} {records : List (Except Fault Record)}
    (h : w.Ready l) (hroot : w.Startable l root)
    (hsized : ∀ record, .ok record ∈ records → record.2.length < 2 ^ 63) :
    Ensures (protocol True) (Call.program (.tree root kind records)) w l
      (fun _ w' l' => w'.Ready l' ∧ w.Same w') (fun _ _ _ => True) := by
  simp only [Call.program, treeFrom, ensures_bind, ensures_attempt]
  refine (tree_ensures h hroot fun record hmem => ⟨hsized record hmem, .inl trivial⟩).mono ?_ ?_
  · rintro ⟨⟩ w' l' ⟨_, l₀, _, _, _, hroot₀, ⟨l₁, bytes, hadv, rfl⟩, _, _⟩
    exact ⟨hadv.ready.write_root (hadv.roots ▸ hroot₀), hadv.same⟩
  · rintro (message | message) w₁ l₁ _
    · simp only [ensures_bind, ensures_get]
      split
      · simp only [ensures_bind, ensures_call]
        exact ⟨trivial, fun _ _ _ => trivial⟩
      · trivial
    · simp only [ensures_throw, ensures_bind]
      exact (Writer.drop_ensures (Q := fun _ => True) trivial).mono (fun _ _ _ _ => trivial)
        fun _ _ _ hf => hf.elim

/-- Every call follows the protocol of the ledger. -/
theorem call_leaves (h : w.Ready l) (ha : w.allocator.isSome) (hheader : w.header.length = 100)
    (call : Call) (hroot : ∀ root, w.Startable l root) (hsized : call.Sized) :
    Prog.Safe (protocol True) (call.program w) (fun r l' => Leaves w l call r.1 r.2 l') l := by
  cases call with
  | tree root kind records =>
      have htree : Ensures (protocol True) (Call.program (.tree root kind records)) w l _ _ :=
        tree_leaves h (hroot root) hsized
      refine Prog.Safe.mono ?_ htree
      rintro ⟨result, w'⟩ l' hr
      cases result <;> exact hr
  | complete =>
      have hcomplete : Ensures (protocol True) Writer.complete w l
          (fun _ _ l' => ∀ page, ¬ l'.owned page) (fun _ _ _ => True) :=
        (Writer.complete_ensures h ha).mono (fun _ _ _ hok => hok) fun _ _ _ _ => trivial
      refine Prog.Safe.mono ?_ (Writer.consuming_ensures hcomplete)
      rintro ⟨result, w'⟩ l' hr
      cases result <;> exact hr
  | finish =>
      have hfinish : Ensures (protocol True) Writer.finish w l
          (fun _ _ l' => ∃ ranges next count header, w.Finished l l' ranges next count header)
          (fun _ _ _ => True) :=
        (Writer.finish_ensures h ha hheader).mono (fun _ _ _ hok => hok) fun _ _ _ _ => trivial
      refine Prog.Safe.mono ?_ (Writer.consuming_ensures hfinish)
      rintro ⟨result, w'⟩ l' hr
      cases result <;> exact hr
  | drop =>
      have hdrop : Ensures (protocol True) Writer.drop w l (fun _ _ _ => True)
          (fun _ _ _ => False) :=
        Writer.drop_ensures (Q := fun _ => True) trivial
      refine Prog.Safe.mono ?_ hdrop
      rintro ⟨result, w'⟩ l' _
      cases result <;> trivial

/-- A worker begins without a block. -/
theorem fork_leaves {A : Allocator} {header : Bytes} {size : PageSize}
    (ha : w.allocator = some A) (hpending : A.pending = pendingPage w.pageSize.bytes)
    (hbased : Based header size w) (root : Nat) :
    Prog.Safe (protocol True) (forkDynamic root w)
      (fun r l' => ForkLeaves header size r.1 l') blank := by
  have hensures : Ensures (protocol True) (forkDynamic root) w blank
      (fun worker _ l' => worker.Ready l' ∧ Based header size worker)
      (fun _ _ l' => ∀ page, ¬ l'.owned page) := by
    simp only [forkDynamic, ensures_bind, ensures_get, ha]
    split
    · exact fun _ hp => hp
    · simp only [ensures_bind]
      refine ensures_scratch ?_ fun _ _ _ _ hp => hp
      unfold claimRoot
      split
      · exact fun _ hp => hp
      · refine ensures_bind.mpr ((ensures_call _).mpr ⟨trivial, ?_⟩)
        rintro (fault | ⟨⟩) l₁ hanswer
        · obtain rfl := hanswer.2
          exact fun _ hp => hp
        · obtain ⟨hfresh, rfl⟩ := hanswer
          simp only [Method.ofExcept, ensures_pure, ensures_call]
          refine ⟨trivial, ?_⟩
          rintro ⟨⟩ l₂ rfl
          have hblank : blank.Wf := by
            constructor <;> simp [blank]
          refine ⟨?_, hbased⟩
          exact
            { wf := hblank.claim hfresh
              pending := fun allocator hallocator => by
                obtain rfl : A = allocator := Option.some.inj (ha.symm.trans hallocator)
                exact ⟨hpending, 0, rfl⟩
              range := by
                rintro _ ⟨⟩
                exact Nat.le_refl _
              block := fun page _ hlt => absurd (hlt 0 rfl) (Nat.not_lt_zero _)
              exact := fun _ _ hp => hp.elim
              position := fun he => by simp [exhausted, worker] at he
              unread := ⟨rfl, rfl, rfl⟩ }
  refine Prog.Safe.mono ?_ hensures
  rintro ⟨result, w'⟩ l' hr
  cases result <;> exact hr

end

/-! ## The whole state -/

/-- The ledger of an agent fits what it is doing, and its program follows the protocol from it. -/
def Keeps (header : Bytes) (size : PageSize) (agent : Nat) (l : Ledger) : Phase → Prop
  | .absent => l = blank
  | .forking _ p => Prog.Safe (protocol True) p (fun r l' => ForkLeaves header size r.1 l') l
  | .idle w => w.Ready l ∧ Based header size w
  | .calling call _ p => ∃ w l₀, Based header size w ∧ l₀.written = [] ∧
      Prog.Safe (protocol True) p (fun r l' => Leaves w l₀ call r.1 r.2 l') l
  | .gone => agent ≠ 0 → ∀ page, ¬ l.owned page

/-- The coordinator has finished with this ledger. -/
def Concluded (header : Bytes) (size : PageSize) (l : Ledger) : Prop :=
  ∃ w l₀ ranges next count header', Based header size w ∧ l₀.written = [] ∧
    w.Finished l₀ l ranges next count header'

structure Tracked (A : Allocator) (header : Bytes) (size : PageSize) (s : State) (f : Nat → Flags)
    (ls : Nat → Ledger) (place : Nat → Place) : Prop where
  places : Places A s.shared ls place
  closing : Closing A s.shared (ls 0) place
  /-- Only behind the checks of `finish` the coordinator reads or takes over anything. -/
  quiet : (f 0).standing ≠ .clean →
    (ls 0).next = none ∧ (ls 0).header = none ∧ (ls 0).closed = none
  agents : ∀ a, Keeps header size a (ls a) (s.agents a)
  finished : ∀ a, .returned a .finish (.ok ()) ∈ s.log → Concluded header size (ls 0)

/-- Something has failed, or every page is where the ledgers say. -/
def Conserved (A : Allocator) (header : Bytes) (size : PageSize) (s : State) (f : Nat → Flags) :
    Prop :=
  s.shared.failed = true ∨ ∃ ls place, Tracked A header size s f ls place

section
variable {A : Allocator} {header : Bytes} {size : PageSize} {s s' : State} {f f' : Nat → Flags}
  {C : Finset Nat} {ls : Nat → Ledger} {place place' : Nat → Place} {agent : Nat} {l' : Ledger}

/-! ## One agent moves -/

/-- An agent changes its ledger and its phase. -/
theorem Tracked.move (h : Tracked A header size s f ls place) (hg : Guarded A s f C) {agent : Nat}
    (l' : Ledger) (place' : Nat → Place) (events : List Event) {phase : Phase}
    (hagents : s'.agents = Function.update s.agents agent phase)
    (hlog : s'.log = events ++ s.log) (hacting : s.agents agent ≠ .gone)
    (hplaces : Places A s'.shared (Function.update ls agent l') place')
    (hclosing : agent = 0 → Closing A s'.shared l' place')
    (hquiet : agent = 0 → (f 0).standing ≠ .clean → l'.next = (ls 0).next ∧
      l'.header = (ls 0).header ∧ l'.closed = (ls 0).closed)
    (hzero : agent ≠ 0 → (f 0).standing ≠ .clean)
    (hclean : (f 0).standing = .clean → (f' 0).standing = .clean)
    (hphase : Keeps header size agent l' phase)
    (hfinished : ∀ a, .returned a .finish (.ok ()) ∈ events →
      agent = 0 ∧ Concluded header size l') :
    Tracked A header size s' f' (Function.update ls agent l') place' where
  places := hplaces
  closing := by
    by_cases hagent : agent = 0
    · subst hagent
      rw [Function.update_self]
      exact hclosing rfl
    · rw [Function.update_of_ne (Ne.symm hagent)]
      obtain ⟨hnext, hheader, hclosed⟩ := h.quiet (hzero hagent)
      exact .early hnext hheader hclosed
  quiet hne := by
    have hne' : (f 0).standing ≠ .clean := fun hc => hne (hclean hc)
    by_cases hagent : agent = 0
    · subst hagent
      rw [Function.update_self]
      obtain ⟨hnext, hheader, hclosed⟩ := hquiet rfl hne'
      obtain ⟨hnext', hheader', hclosed'⟩ := h.quiet hne'
      exact ⟨hnext.trans hnext', hheader.trans hheader', hclosed.trans hclosed'⟩
    · rw [Function.update_of_ne (Ne.symm hagent)]
      exact h.quiet hne'
  agents a := by
    rw [hagents]
    by_cases ha : a = agent
    · subst ha
      rw [Function.update_self, Function.update_self]
      exact hphase
    · rw [Function.update_of_ne ha, Function.update_of_ne ha]
      exact h.agents a
  finished a he := by
    rw [hlog] at he
    rcases List.mem_append.mp he with he | he
    · obtain ⟨rfl, hconcluded⟩ := hfinished a he
      rw [Function.update_self]
      exact hconcluded
    · have hne : 0 ≠ agent := by
        rintro rfl
        exact hacting (hg.history.finished a he).2.1
      rw [Function.update_of_ne hne]
      exact h.finished a he

/-- While another agent acts, the coordinator is not past its checks. -/
theorem Guarded.not_clean (hg : Guarded A s f C) (hagent : agent ≠ 0)
    (hlive : (s.agents agent).Live) : (f 0).standing ≠ .clean := by
  intro hclean
  have hmem := hg.counted_of_live hagent hlive
  rw [hg.shares.alone (by rw [hclean]; simp)] at hmem
  simp at hmem

/-- A coordinator between two calls has not finished. -/
theorem Guarded.not_clean_idle (hg : Guarded A s f C) {w : Writer} (hidle : s.agents 0 = .idle w) :
    (f 0).standing ≠ .clean := by
  have hagent := hg.agents 0
  rw [hidle] at hagent
  rw [hagent.standing]
  simp

/-- A call goes on, or returns. -/
theorem Tracked.resume (h : Tracked A header size s f ls place) (hg : Guarded A s f C)
    (shared : Shared) (l' : Ledger) (place' : Nat → Place) (events : List Event) {call : Call}
    {w : Writer} {l₀ : Ledger}
    {p : Prog Access Access.Answer (Except Fault Unit × Writer)}
    (hg' : ∃ C', Guarded A ({ s with shared, log := events ++ s.log }.resume agent call p) f' C')
    (hlive : (s.agents agent).Live) (hevents : ∀ e ∈ events, e = .started agent call)
    (hplaces : Places A shared (Function.update ls agent l') place')
    (hclosing : agent = 0 → Closing A shared l' place')
    (hquiet : agent = 0 → (f 0).standing ≠ .clean → l'.next = (ls 0).next ∧
      l'.header = (ls 0).header ∧ l'.closed = (ls 0).closed)
    (hclean : (f 0).standing = .clean → (f' 0).standing = .clean)
    (hbased : Based header size w) (hwritten : l₀.written = [])
    (hsafe : Prog.Safe (protocol True) p (fun r l' => Leaves w l₀ call r.1 r.2 l') l') :
    Conserved A header size ({ s with shared, log := events ++ s.log }.resume agent call p) f' := by
  obtain ⟨C', hg'⟩ := hg'
  have hstarted : ∀ {e : Event}, (∀ a call, e ≠ .started a call) → e ∉ events :=
    fun hne he => hne _ _ (hevents _ he)
  have hzero : agent ≠ 0 → (f 0).standing ≠ .clean := fun hagent => hg.not_clean hagent hlive
  match p with
  | .access i k =>
      exact .inr ⟨_, _, h.move hg l' place' events rfl rfl hlive.ne_gone hplaces hclosing hquiet
        hzero hclean ⟨w, l₀, hbased, hwritten, hsafe⟩ fun _ he => absurd he (hstarted (by simp))⟩
  | .ret (result, w') =>
      have hleaves : Leaves w l₀ call result w' l' := hsafe
      -- A call that ends in a failure has poisoned the allocator.
      by_cases hfailure : (Event.returned agent call result).Failure
      · exact .inl (hg'.history.failures _ List.mem_cons_self hfailure)
      refine .inr ⟨_, _, h.move hg l' place' (.returned agent call result :: events) rfl rfl
        hlive.ne_gone hplaces hclosing hquiet hzero hclean ?_ ?_⟩
      · cases hkeeps : call.keeps result with
        | true =>
            rw [if_pos rfl]
            cases call with
            | tree root kind records =>
                rcases result with (message | message) | ⟨⟩
                · exact absurd trivial hfailure
                · cases hkeeps
                · obtain ⟨hready, hsame⟩ := hleaves
                  exact ⟨hready, hsame.header.trans hbased.1, hsame.pageSize.trans hbased.2⟩
            | complete | finish | drop => cases hkeeps
        | false =>
            rw [if_neg Bool.false_ne_true]
            intro hagent
            have hfinish : call ≠ .finish ∨ result ≠ .ok () := by
              by_contra hboth
              obtain ⟨rfl, rfl⟩ : call = .finish ∧ result = .ok () := by simpa [not_or] using hboth
              exact hagent (hg'.history.finished agent List.mem_cons_self).1
            rcases released_cases hkeeps hagent hfinish with hdone | hdone
            · obtain ⟨rfl, rfl⟩ : call = .complete ∧ result = .ok () := by
                injection hdone with _ hcall hresult
                exact ⟨hcall, hresult⟩
              exact hleaves
            · exact absurd hdone hfailure
      · intro a he
        rcases List.mem_cons.mp he with he | he
        · injection he with ha hcall hresult
          subst hcall hresult ha
          obtain ⟨ranges, next, count, header', hfinished⟩ := hleaves
          exact ⟨(hg'.history.finished a List.mem_cons_self).1, w, l₀, ranges, next, count, header',
            hbased, hwritten, hfinished⟩
        · exact absurd he (hstarted (by simp))

/-- A fork goes on, or returns. -/
theorem Tracked.resumeFork (h : Tracked A header size s f ls place) (hg : Guarded A s f C)
    (place' : Nat → Place) {shared : Shared} {count root : Nat}
    {p : Prog Access Access.Answer (Except Fault Writer × Writer)}
    (hacting : s.agents agent ≠ .gone) {w : Writer} (hidle : s.agents 0 = .idle w)
    (hagent : agent ≠ 0)
    (hplaces : Places A shared (Function.update ls agent l') place')
    (hclean : (f 0).standing = .clean → (f' 0).standing = .clean)
    (hsafe : Prog.Safe (protocol True) p (fun r l' => ForkLeaves header size r.1 l') l') :
    Conserved A header size ({ s with shared, count }.resumeFork agent root p) f' := by
  have hzero : agent ≠ 0 → (f 0).standing ≠ .clean := fun _ => hg.not_clean_idle hidle
  have hmove : ∀ (events : List Event) (phase : Phase), Keeps header size agent l' phase →
      (∀ e ∈ events, e = .forked agent root) →
      Tracked A header size ({ s with shared, count, log := events ++ s.log }.put agent phase) f'
        (Function.update ls agent l') place' := by
    intro events phase hphase hevents
    refine h.move hg l' place' events rfl rfl hacting hplaces (fun hz => absurd hz hagent)
      (fun hz => absurd hz hagent) hzero hclean hphase fun a he => ?_
    have := hevents _ he
    cases this
  match p with
  | .access i k => exact .inr ⟨_, _, hmove [] (.forking root (.access i k)) hsafe (by simp)⟩
  | .ret (.error fault, w') => exact .inr ⟨_, _, hmove [] .gone (fun _ => hsafe) (by simp)⟩
  | .ret (.ok worker, w') =>
      exact .inr ⟨_, _, hmove [.forked agent root] (.idle worker) hsafe (by simp)⟩

/-! ## Every step -/

/-- A failure stays. -/
theorem Shared.Performs.failed {shared shared' : Shared} {finishing : Bool} {i : Access}
    {answer : i.Answer} (h : shared.Performs agent finishing i answer shared')
    (hfailed : shared.failed = true) : shared'.failed = true := by
  cases i with
  | claimRoot root =>
      cases answer with
      | error fault => obtain ⟨_, rfl⟩ := h; exact hfailed
      | ok u => obtain ⟨_, rfl⟩ := h; exact hfailed
  | grant allocator pages => exact h.elim
  | free ranges =>
      cases answer with
      | error fault => obtain ⟨_, rfl | ⟨_, _, _, _, rfl⟩⟩ := h <;> exact hfailed
      | ok u => obtain ⟨_, _, rfl⟩ := h; exact hfailed
  | write | flush | scratch | setLen =>
      cases answer with
      | error fault => obtain ⟨_, rfl⟩ := h; exact hfailed
      | ok u => obtain rfl := h; exact hfailed
  | storeFailed => obtain rfl := h; rfl
  | enter | leave => obtain rfl := h; exact hfailed
  | loadFailed | loadActive | loadNext | loadFreeCount => obtain ⟨_, rfl⟩ := h; exact hfailed
  | closeFree =>
      cases answer with
      | error fault => obtain ⟨_, rfl⟩ := h; exact hfailed
      | ok ranges => obtain ⟨_, rfl⟩ := h; exact hfailed
  | writeHeader bytes =>
      cases answer with
      | error fault => obtain ⟨_, _, rfl⟩ := h; exact hfailed
      | ok u => obtain rfl := h; exact hfailed

theorem State.resume_failed {call : Call}
    {p : Prog Access Access.Answer (Except Fault Unit × Writer)} :
    (s.resume agent call p).shared = s.shared := by
  match p with
  | .access i k => rfl
  | .ret (result, w) => rfl

theorem State.resumeFork_failed {root : Nat}
    {p : Prog Access Access.Answer (Except Fault Writer × Writer)} :
    (s.resumeFork agent root p).shared = s.shared := by
  match p with
  | .access i k => rfl
  | .ret (.ok worker, w) => rfl
  | .ret (.error fault, w) => rfl

/-- A failure stays. -/
theorem Step.failed (h : Step s s') (hfailed : s.shared.failed = true) :
    s'.shared.failed = true := by
  cases h with
  | fork root hidle => rw [State.resumeFork_failed]; exact hfailed
  | start call hidle hunforked => rw [State.resume_failed]; exact hfailed
  | forkAccess hphase hperforms => rw [State.resumeFork_failed]; exact hperforms.failed hfailed
  | access hphase hperforms => rw [State.resume_failed]; exact hperforms.failed hfailed
  | load hphase => exact hfailed
  | overflow hphase hover => rw [State.resume_failed]; exact hfailed
  | exchange hphase hgrant hnext => rw [State.resume_failed]; exact hfailed

/-- The ledger an agent begins a call with. -/
theorem Places.renew (h : Places A s.shared ls place) {w : Writer} (hready : w.Ready (ls agent)) :
    Places A s.shared (Function.update ls agent
      (renewed (ls agent) fun root => (agent, root) ∈ s.shared.claims)) place ∧
      w.Ready (renewed (ls agent) fun root => (agent, root) ∈ s.shared.claims) := by
  have hnew : w.Ready (renewed (ls agent) fun root => (agent, root) ∈ s.shared.claims) := by
    refine renewed_ready hready fun root hroot => ?_
    have hbare := (h.claimed hroot).2
    rw [h.owned, h.holes, hbare]
    simp
  exact ⟨h.same hnew.wf rfl rfl (fun _ hp => hp) (by simp [renewed]), hnew⟩

/-- The root of a tree can be claimed, or the worker has claimed it, or it is refused. -/
theorem startable {w : Writer} (hsits : Sits A agent w (f agent)) (hshares : Shares A s.shared f C)
    {l : Ledger} (hroots : ∀ root, (agent, root) ∈ s.shared.claims → l.roots root) (root : Nat) :
    w.Startable l root := by
  have hsome : w.allocator.isSome = true := by rw [hsits.allocator]; rfl
  by_cases hagent : agent = 0
  · exact .inl ⟨hsome, by rw [hsits.worker]; simpa using hagent⟩
  · cases hassigned : w.assignedRoot with
    | none => exact absurd (hsits.unassigned hassigned) hagent
    | some assigned =>
        by_cases hroot : assigned = root
        · subst hroot
          exact .inr (.inl (hroots assigned
            (hshares.roots agent assigned (hsits.assigned assigned hassigned))))
        · exact .inr (.inr ⟨hsome, by simpa [hassigned] using hroot⟩)

/-- A grant fails only where the space is exhausted. -/
theorem grantEnd_error {allocator : Allocator} {pages start : Nat} {fault : Fault}
    (h : allocator.grantEnd pages start = .error fault) : fault = exhaustedSpace := by
  simp only [Allocator.grantEnd] at h
  split at h
  · cases h; rfl
  · split at h
    · split at h
      · cases h; rfl
      · cases h
    · cases h

/-- The trees of a session have records that fit in memory. -/
def Sized (log : List Event) : Prop := ∀ agent call, .started agent call ∈ log → call.Sized

/-- One step keeps every page in its place, or something has failed. -/
theorem Conserved.step (h : Conserved A header size s f) (hg : Guarded A s f C)
    (hheader : header.length = 100) (hpending : A.pending = pendingPage size.bytes)
    (hstep : Step s s') (hg' : ∃ C', Guarded A s' f' C')
    (hclean : (f 0).standing = .clean → (f' 0).standing = .clean) (hsized : Sized s'.log) :
    Conserved A header size s' f' := by
  rcases h with hfailed | ⟨ls, place, h⟩
  · exact .inl (hstep.failed hfailed)
  cases hstep with
  | @fork w root hidle =>
      have habsent := hg.fresh s.count (Nat.le_refl _)
      have hblank := h.agents s.count
      have hcoordinator := h.agents 0
      have hstands := hg.agents s.count
      have hsits := hg.agents 0
      rw [habsent] at hblank hstands
      rw [hidle] at hcoordinator hsits
      have hbased : Based header size w := hcoordinator.2
      have hblank' : ls s.count = blank := hblank
      refine h.resumeFork hg place (by rw [habsent]; simp) hidle hstands.1 ?_ hclean
        (fork_leaves hsits.allocator (by rw [hbased.2]; exact hpending) hbased root)
      rw [← hblank', Function.update_eq_self]
      exact h.places
  | @start agent w call hphase hunforked =>
      have hkeeps := h.agents agent
      have hsits := hg.agents agent
      rw [hphase] at hkeeps hsits
      obtain ⟨hready, hbased⟩ := hkeeps
      obtain ⟨hplaces, hready'⟩ := Places.renew h.places hready
      have hsome : w.allocator.isSome = true := by rw [hsits.allocator]; rfl
      refine h.resume hg _ _ place [.started agent call] hg' (by rw [hphase]; trivial) (by simp)
        hplaces (fun _ => .early rfl rfl rfl) ?_ hclean hbased rfl
        (call_leaves hready' hsome (by rw [hbased.1]; exact hheader) call
          (fun root => startable hsits hg.shares (fun _ hc => hc) root) ?_)
      · rintro rfl hne
        obtain ⟨hnext, hheader, hclosed⟩ := h.quiet hne
        exact ⟨hnext.symm, hheader.symm, hclosed.symm⟩
      · refine hsized agent call ?_
        cases call.program w with
        | ret r => exact List.mem_cons_of_mem _ List.mem_cons_self
        | access i k => exact List.mem_cons_self
  | @forkAccess agent root i k answer shared hphase hperforms =>
      obtain ⟨w, hidle⟩ := hg.idle hphase
      have hkeeps := h.agents agent
      have hstands := hg.agents agent
      rw [hphase] at hkeeps hstands
      obtain ⟨hallowed, hsafe⟩ := hkeeps
      obtain ⟨hagent, _, hflags, _⟩ := hstands
      obtain ⟨l', place', hanswered⟩ := h.places.performs hg.shares hflags hallowed hperforms
      exact h.resumeFork hg place' (by rw [hphase]; simp) hidle hagent hanswered.places hclean
        (hsafe answer l' hanswered.answers)
  | @access agent call loaded i k answer shared hphase hperforms =>
      have hkeeps := h.agents agent
      have hstands := hg.agents agent
      rw [hphase] at hkeeps hstands
      obtain ⟨w, l₀, hbased, hwritten, hallowed, hsafe⟩ := hkeeps
      obtain ⟨_, _, f₀, ⟨hflags, _⟩, _⟩ := hstands
      obtain ⟨l', place', hanswered⟩ := h.places.performs hg.shares hflags hallowed hperforms
      refine h.resume hg shared l' place' [] hg' (by rw [hphase]; trivial) (by simp)
        hanswered.places (fun hzero => hanswered.closing hzero h.closing) ?_ hclean hbased hwritten
        (hsafe answer l' hanswered.answers)
      rintro rfl hne
      exact hanswered.quiet hne
  | @load agent call loaded allocator pages k hphase =>
      have hkeeps := h.agents agent
      rw [hphase] at hkeeps
      have hlive : (s.agents agent).Live := by rw [hphase]; trivial
      refine .inr ⟨_, place, h.move hg (ls agent) place [] rfl rfl hlive.ne_gone
        ?_ ?_ ?_ (fun hagent => hg.not_clean hagent hlive) hclean hkeeps (by simp)⟩
      · rw [Function.update_eq_self]
        exact h.places
      · rintro rfl
        exact h.closing
      · rintro rfl _
        exact ⟨rfl, rfl, rfl⟩
  | @overflow agent call start allocator pages fault k hphase hover =>
      have hkeeps := h.agents agent
      rw [hphase] at hkeeps
      obtain ⟨w, l₀, hbased, hwritten, hallowed, hsafe⟩ := hkeeps
      refine h.resume hg s.shared (ls agent) place [] hg' (by rw [hphase]; trivial) (by simp) ?_ ?_
        ?_ hclean hbased hwritten (hsafe (.error fault) (ls agent) ⟨grantEnd_error hover, rfl⟩)
      · rw [Function.update_eq_self]
        exact h.places
      · rintro rfl
        exact h.closing
      · rintro rfl _
        exact ⟨rfl, rfl, rfl⟩
  | @exchange agent call start stop allocator pages k hphase hgrant hnext =>
      have hkeeps := h.agents agent
      have hstands := hg.agents agent
      rw [hphase] at hkeeps hstands
      obtain ⟨w, l₀, hbased, hwritten, _, hsafe⟩ := hkeeps
      obtain ⟨_, _, f₀, ⟨⟨_, rfl, hne⟩, _⟩, _⟩ := hstands
      subst hnext
      obtain ⟨hanswers, hplaces⟩ := h.places.exchange agent hgrant
      refine h.resume hg _ _ _ [] hg' (by rw [hphase]; trivial) (by simp) hplaces ?_ ?_ hclean
        hbased hwritten (hsafe _ _ hanswers)
      · rintro rfl
        obtain ⟨hnext, hheader, hclosed⟩ := h.quiet hne
        exact .early hnext hheader hclosed
      · rintro rfl _
        exact ⟨rfl, rfl, rfl⟩

/-! ## Whole runs -/

/-- The log keeps its events. -/
theorem Step.log (h : Step s s') {e : Event} (he : e ∈ s.log) : e ∈ s'.log := by
  have hresume : ∀ {s : State} {agent : Nat} {call : Call}
      (p : Prog Access Access.Answer (Except Fault Unit × Writer)), e ∈ s.log →
      e ∈ (s.resume agent call p).log := by
    rintro s agent call (⟨result, w⟩ | ⟨i, k⟩) he
    · exact List.mem_cons_of_mem _ he
    · exact he
  have hfork : ∀ {s : State} {agent root : Nat}
      (p : Prog Access Access.Answer (Except Fault Writer × Writer)), e ∈ s.log →
      e ∈ (s.resumeFork agent root p).log := by
    rintro s agent root (⟨fault | worker, w⟩ | ⟨i, k⟩) he
    · exact he
    · exact List.mem_cons_of_mem _ he
    · exact he
  cases h with
  | fork root hidle => exact hfork _ he
  | start call hidle hunforked => exact hresume _ (List.mem_cons_of_mem _ he)
  | forkAccess hphase hperforms => exact hfork _ he
  | access hphase hperforms => exact hresume _ he
  | load hphase => exact he
  | overflow hphase hover => exact hresume _ he
  | exchange hphase hgrant hnext => exact hresume _ he

/-- No block is granted yet, and the spool is empty. -/
theorem conserved_initial {w : Writer} {blockPages : Nat} (hw : w.Coordinates header blockPages) :
    Conserved (w.freshAllocator blockPages) header w.pageSize (initial w) f := by
  have hnone : ∀ a, Keeps header w.pageSize a blank ((initial w).agents a) := by
    intro a
    by_cases ha : a = 0
    · subst ha
      have hready : w.Ready blank :=
        { wf := by constructor <;> simp [blank]
          pending := fun allocator hallocator => by
            rw [hw.allocator] at hallocator
            cases hallocator
            exact ⟨rfl, w.nextPage, hw.rangeEnd⟩
          range := fun stop hstop => by
            rw [hw.rangeEnd] at hstop
            exact (Option.some.inj hstop).le
          block := fun page hle hlt => absurd (hlt _ hw.rangeEnd) (Nat.not_lt.mpr hle)
          exact := fun _ _ hp => hp.elim
          position := fun _ => hw.position
          unread := ⟨rfl, rfl, rfl⟩ }
      exact ⟨hready, hw.header, rfl⟩
    · simp only [initial, Function.update_of_ne ha]
      rfl
  refine .inr ⟨fun _ => blank, fun _ => .bare, ?_⟩
  exact
    { places :=
        { start := hw.nextPage.1
          next := ⟨Nat.le_refl _, hw.nextPage.2⟩
          bare := fun page => by
            simp only [initial, freshAllocator, true_iff]
            omega
          wf := fun _ => by constructor <;> simp [blank]
          owned := fun _ _ => by simp [blank]
          holes := fun _ _ => by simp [blank]
          roots := fun _ _ hp => hp.elim
          written := fun _ _ hw => by simp [blank] at hw
          claims := by simp [initial]
          planted := by simp [initial]
          hole := by simp
          usable := by simp
          file := by simp [initial]
          nodup := by simp [initial]
          zeros := by simp [initial]
          spool := by
            rintro _ ⟨⟩
            exact ⟨⟨by simp, by simp [rangePages]⟩, by simp [rangePages], rfl⟩
          closed := by simp
          lost := by simp }
      closing := .early rfl rfl rfl
      quiet := fun _ => ⟨rfl, rfl, rfl⟩
      agents := hnone
      finished := by simp [initial] }

/-- In every state that a session reaches, the pages are in their places, or something has
failed. -/
theorem conserved_steps {w : Writer} {blockPages : Nat} (hw : w.Coordinates header blockPages)
    (hs : Steps (initial w) s) (hsized : Sized s.log) :
    ∃ f C, Guarded (w.freshAllocator blockPages) s f C ∧
      Conserved (w.freshAllocator blockPages) header w.pageSize s f := by
  induction hs with
  | refl => exact ⟨_, _, guarded_initial hw, conserved_initial hw⟩
  | tail _ hstep ih =>
      obtain ⟨f, C, hg, h⟩ := ih fun agent call he => hsized agent call (hstep.log he)
      obtain ⟨f', C', hg', hclean⟩ := hg.step hstep
      exact ⟨f', C', hg', h.step hg hw.length rfl hstep ⟨C', hg'⟩ hclean hsized⟩

/-! ## Behind the checks of `finish` -/

/-- All workers have completed, so none holds a page. -/
theorem Tracked.held_eq (h : Tracked A header size s f ls place) (hg : Guarded A s f C)
    (hclean : (f 0).standing = .clean) {a page : Nat} (hheld : place page = .held a) : a = 0 := by
  by_contra ha
  have howned := (h.places.owned a page).mpr hheld
  have hkeeps := h.agents a
  rcases (hg.published hclean).settled a ha with habsent | hdone
  · rw [habsent] at hkeeps
    rw [show ls a = blank from hkeeps] at howned
    exact howned
  · rw [hdone] at hkeeps
    exact hkeeps ha page howned

/-- When the coordinator holds nothing but the free pages, every page is written or free. -/
theorem Tracked.accounted (h : Tracked A header size s f ls place) (hg : Guarded A s f C)
    (hclean : (f 0).standing = .clean) {ranges : List (Nat × Nat)}
    (hclosed : Closed A s.shared (ls 0) place ranges)
    (howned : ∀ page, (ls 0).owned page → page ∈ rangePages ranges) {page : Nat}
    (hle : A.bootstrapEnd ≤ page) (hlt : page < s.shared.next) (hpending : page ≠ A.pending) :
    page ∈ s.shared.file.map Write.page ∨ page ∈ rangePages ranges := by
  cases hplace : place page with
  | bare =>
      have := (h.places.bare page).mp hplace
      omega
  | held a =>
      obtain rfl := h.held_eq hg hclean hplace
      exact .inr (howned page ((h.places.owned 0 page).mpr hplace))
  | hole a => exact absurd (h.places.hole a page hplace) hpending
  | written a => exact .inl ((h.places.file page hle).mpr ⟨a, hplace⟩)
  | free => exact absurd hplace (h.places.closed hclosed.output page)
  | lost => exact absurd hplace (hclosed.kept page)

end

/-! ## The pages of a file -/

/-- Write the pages of a list over those of `view`. -/
def overlay (view : View) (writes : List Write) : View :=
  writes.foldl (fun view t => Function.update view t.page (some t.bytes)) view

/-- The pages written in a session. -/
def Shared.view (s : Shared) : View := overlay (fun _ => none) s.file

/-- The pages behind the bootstrap file that can be used, SQLite's pending-byte page left out. -/
def newPages (w : Writer) (next : Nat) : List Nat :=
  (List.range' w.nextPage (next - w.nextPage)).filter (· ≠ pendingPage w.pageSize.bytes)

/-- The pages of a list of writes, those of the bootstrap file and the pending-byte page left
out. -/
def appended (w : Writer) (writes : List Write) : List Nat :=
  (writes.map Write.page).filter fun page =>
    w.nextPage ≤ page ∧ page ≠ pendingPage w.pageSize.bytes

/-- The new pages: from the end of the bootstrap file on, without the pending-byte page. -/
theorem mem_newPages {w : Writer} {next page : Nat} :
    page ∈ newPages w next ↔
      (w.nextPage ≤ page ∧ page < next) ∧ page ≠ pendingPage w.pageSize.bytes := by
  rw [newPages, List.mem_filter, List.mem_range'_1, decide_eq_true_eq]
  exact and_congr_left fun _ => by omega

/-- The pages that were appended: those written behind the bootstrap file. -/
theorem mem_appended {w : Writer} {writes : List Write} {page : Nat} :
    page ∈ appended w writes ↔ page ∈ writes.map Write.page ∧
      w.nextPage ≤ page ∧ page ≠ pendingPage w.pageSize.bytes := by
  rw [appended, List.mem_filter, decide_eq_true_eq]

/-- When every new page is written or free, and no page is both but the trunks, then the pages of
the trees and the free pages are the new pages, each of them once. -/
theorem appended_perm {w : Writer} {next : Nat} {trees trunks : List Write} {free : List Nat}
    (hnodup : (((trees ++ trunks).map Write.page).filter (w.nextPage ≤ ·)).Nodup)
    (hfree : free.Nodup) (htrees : ∀ t ∈ trees, t.page ∉ free ∧ t.page < next)
    (htrunks : ∀ t ∈ trunks, t.page ∈ free) (hnew : ∀ page ∈ free, page ∈ newPages w next)
    (hall : ∀ page ∈ newPages w next, page ∈ (trees ++ trunks).map Write.page ∨ page ∈ free) :
    (appended w trees ++ free).Perm (newPages w next) := by
  have happended : (appended w trees).Nodup := by
    rw [List.map_append, List.filter_append] at hnodup
    refine (List.nodup_append.mp hnodup).1.sublist (List.monotone_filter_right _ fun page hp => ?_)
    simp only [decide_eq_true_eq] at hp
    exact decide_eq_true hp.1
  refine (List.perm_ext_iff_of_nodup ?_ ((List.nodup_range').filter _)).mpr fun page => ?_
  · refine List.nodup_append.mpr ⟨happended, hfree, ?_⟩
    rintro a ha b hb rfl
    obtain ⟨t, ht, rfl⟩ := List.mem_map.mp (mem_appended.mp ha).1
    exact (htrees t ht).1 hb
  · rw [List.mem_append, mem_appended]
    constructor
    · rintro (⟨hp, hle, hne⟩ | hp)
      · obtain ⟨t, ht, rfl⟩ := List.mem_map.mp hp
        exact mem_newPages.mpr ⟨⟨hle, (htrees t ht).2⟩, hne⟩
      · exact hnew page hp
    · intro hp
      obtain ⟨⟨hle, _⟩, hne⟩ := mem_newPages.mp hp
      rcases hall page hp with hwritten | hpage
      · rw [List.map_append, List.mem_append] at hwritten
        rcases hwritten with hwritten | hwritten
        · exact .inl ⟨hwritten, hle, hne⟩
        · obtain ⟨t, ht, rfl⟩ := List.mem_map.mp hwritten
          exact .inr (htrunks t ht)
      · exact .inr hpage

/-- A page that is not written is as it was. -/
theorem overlay_of_notMem {view : View} {writes : List Write} {page : Nat}
    (h : page ∉ writes.map Write.page) : overlay view writes page = view page := by
  induction writes generalizing view with
  | nil => rfl
  | cons t writes ih =>
      simp only [List.map_cons, List.mem_cons, not_or] at h
      rw [overlay, List.foldl_cons]
      exact (ih h.2).trans (Function.update_of_ne h.1 _ _)

/-- A page that is written in one way only reads back. -/
theorem overlay_of_mem {view : View} {writes : List Write} {t : Write} (ht : t ∈ writes)
    (hsame : ∀ u ∈ writes, u.page = t.page → u.bytes = t.bytes) :
    overlay view writes t.page = some t.bytes := by
  induction writes generalizing view t with
  | nil => simp at ht
  | cons u writes ih =>
      by_cases hlater : t.page ∈ writes.map Write.page
      · obtain ⟨v, hv, hpage⟩ := List.mem_map.mp hlater
        have hbytes := hsame v (List.mem_cons_of_mem _ hv) hpage
        rw [← hpage, ← hbytes]
        exact ih hv fun x hx hxp => (hsame x (List.mem_cons_of_mem _ hx) (hxp.trans hpage)).trans
          hbytes.symm
      · rw [overlay, List.foldl_cons]
        refine (overlay_of_notMem hlater).trans ?_
        rcases List.mem_cons.mp ht with rfl | ht
        · exact Function.update_self _ _ _
        · exact absurd (List.mem_map_of_mem ht) hlater

section
variable {A : Allocator} {s : Shared} {ls : Nat → Ledger} {place : Nat → Place}

/-- Every write is below the page that comes next. -/
theorem Places.file_lt (h : Places A s ls place) {t : Write} (ht : t ∈ s.file) :
    t.page < s.next := by
  by_cases hle : A.bootstrapEnd ≤ t.page
  · obtain ⟨a, hplace⟩ := (h.file t.page hle).mp (List.mem_map_of_mem ht)
    exact (h.bounds_at hplace (by simp)).2
  · have := h.next.1
    omega

/-- A page behind the bootstrap file is written in one way only. -/
theorem Places.same_bytes (h : Places A s ls place) {t u : Write} (ht : t ∈ s.file)
    (hu : u ∈ s.file) (hle : A.bootstrapEnd ≤ t.page) (hpage : u.page = t.page) :
    u.bytes = t.bytes := by
  have hnodup := h.nodup
  rw [List.filter_map] at hnodup
  have hmem : ∀ x ∈ s.file, x.page = t.page →
      x ∈ s.file.filter ((fun page => decide (A.bootstrapEnd ≤ page)) ∘ Write.page) :=
    fun x hx hxp => List.mem_filter.mpr ⟨hx, by simpa [hxp] using hle⟩
  rw [List.inj_on_of_nodup_map hnodup (hmem u hu hpage) (hmem t ht rfl) hpage]

/-- What a ledger has written behind the bootstrap file is what the file holds. -/
theorem Places.view_within (h : Places A s ls place) {a : Nat}
    (hbehind : ∀ page ∈ (ls a).written.map Prod.fst, A.bootstrapEnd ≤ page) :
    (ls a).view.Within s.view := by
  intro page bytes hview
  have hmem : (page, bytes) ∈ (ls a).written := by
    obtain ⟨before, after, hw, _⟩ := List.lookup_eq_some_iff.mp hview
    rw [hw]
    simp
  obtain ⟨_, t, ht, rfl, rfl⟩ := h.written a _ hmem
  have hle := hbehind t.page (List.mem_map_of_mem hmem)
  exact overlay_of_mem ht fun u hu hpage => h.same_bytes ht hu hle hpage

end

/-! ## The results -/

/-- As long as nothing has failed: no page behind the bootstrap file is written twice, a page of the
bootstrap file is written only by the agent that has claimed it as a root, and the spool lists, each
once, pages that are granted and not written. -/
theorem pages_apart {header : Bytes} {length blockBytes : Nat} {w : Writer} {s : State}
    (hw : Opens header length blockBytes w) (hs : Steps (initial w) s) (hsized : Sized s.log)
    (hfailed : s.shared.failed = false) :
    ((s.shared.file.map Write.page).filter (w.nextPage ≤ ·)).Nodup ∧
    (∀ t ∈ s.shared.file, t.page < s.shared.next ∧
      (t.page < w.nextPage → (t.agent, t.page) ∈ s.shared.claims)) ∧
    ∀ ranges, s.shared.freeOutput = some ranges →
      (rangePages ranges).Nodup ∧ s.shared.freeCount = (rangePages ranges).length ∧
      ∀ page ∈ rangePages ranges, page ∈ newPages w s.shared.next ∧
        page ∉ s.shared.file.map Write.page := by
  obtain ⟨blockPages, hcoordinates⟩ := hw.coordinates
  obtain ⟨f, C, _, hfailed' | ⟨ls, place, h⟩⟩ := conserved_steps hcoordinates hs hsized
  · rw [hfailed] at hfailed'
    cases hfailed'
  have hplaces := h.places
  refine ⟨hplaces.nodup, fun t ht => ⟨hplaces.file_lt ht, hplaces.planted t ht⟩,
    fun ranges hr => ?_⟩
  obtain ⟨hreturnable, hmem, hcount⟩ := hplaces.spool ranges hr
  refine ⟨hreturnable.nodup, hcount, fun page hp => ?_⟩
  have hplace := (hmem page).mp hp
  have hbounds := hplaces.bounds_at hplace (by simp)
  refine ⟨mem_newPages.mpr ⟨hbounds, hplaces.usable page (.inl hplace)⟩, fun hwritten => ?_⟩
  obtain ⟨a, hother⟩ := (hplaces.file page hbounds.1).mp hwritten
  rw [hplace] at hother
  cases hother

/-- When `finish` has succeeded, no page is lost and none is shared: every page behind the bootstrap
file but the pending-byte page is a page that was appended once, or it is once in the freelist that
`finish` has put in front of the old one; the pages written last are trunks of that list. -/
theorem pages_conserved {header : Bytes} {length blockBytes : Nat} {w : Writer} {s : State}
    (hw : Opens header length blockBytes w) (hs : Steps (initial w) s) (hsized : Sized s.log)
    (hfinished : ∃ agent, .returned agent .finish (.ok ()) ∈ s.log) :
    ∃ trees trunks free header', s.shared.file = trees ++ trunks ∧ s.shared.header = some header' ∧
      (appended w trees ++ free).Perm (newPages w s.shared.next) ∧
      ((s.shared.file.map Write.page).filter (w.nextPage ≤ ·)).Nodup ∧
      (∀ t ∈ trunks, t.page ∈ free) ∧
      (∀ t ∈ s.shared.file, w.nextPage ≤ t.page → t.page = pendingPage w.pageSize.bytes →
        t.bytes = List.replicate t.bytes.length 0) ∧
      Listed w.pageSize.bytes s.shared.view header header' free ∧
      ofBE (slice header' 28 4) = s.shared.next - 1 := by
  obtain ⟨blockPages, hcoordinates⟩ := hw.coordinates
  obtain ⟨f, C, hg, hconserved⟩ := conserved_steps hcoordinates hs hsized
  obtain ⟨agent, hfinished⟩ := hfinished
  obtain ⟨rfl, _, hclean⟩ := hg.history.finished agent hfinished
  obtain hfailed | ⟨ls, place, h⟩ := hconserved
  · rw [hg.shares.clean hclean] at hfailed
    cases hfailed
  have hplaces := h.places
  obtain ⟨w₀, l₀, ranges, next, count, header', ⟨hheader₀, hsize₀⟩, hwritten₀, hf⟩ :=
    h.finished 0 hfinished
  obtain ⟨hlisted, ⟨new, hnew, hnewPages⟩, howned, hclosed, hnext, hcount, hheader⟩ := hf
  have hspool := h.closing.closed ranges hclosed
  obtain ⟨trees, trunks, hfile, htrunks, htrees⟩ := hspool.file
  obtain rfl := h.closing.next next hnext
  -- The last call has written trunks only.
  have hwritten : ∀ page ∈ (ls 0).written.map Prod.fst, page ∈ rangePages ranges := by
    rw [hnew, hwritten₀, List.nil_append]
    exact hnewPages
  have hfree : ∀ page ∈ rangePages ranges, page ∈ newPages w s.shared.next := by
    intro page hp
    obtain ⟨hne, hplace | hplace⟩ := hspool.pages page hp
    · exact mem_newPages.mpr ⟨hplaces.bounds_at hplace (by simp), hne⟩
    · exact mem_newPages.mpr ⟨hplaces.bounds_at hplace (by simp), hne⟩
  have htrunks' : ∀ t ∈ trunks, t.page ∈ rangePages ranges := fun t ht =>
    hwritten t.page (List.mem_map_of_mem (htrunks t ht))
  have hperm : (appended w trees ++ rangePages ranges).Perm (newPages w s.shared.next) := by
    refine appended_perm (hfile ▸ hplaces.nodup) hspool.nodup (fun t ht => ⟨htrees t ht, ?_⟩)
      htrunks' hfree fun page hp => ?_
    · exact hplaces.file_lt (hfile ▸ List.mem_append_left _ ht)
    · obtain ⟨⟨hle, hlt⟩, hne⟩ := mem_newPages.mp hp
      exact hfile ▸ h.accounted hg hclean hspool howned hle hlt hne
  have hmax := hplaces.next
  simp only [freshAllocator, u32Max] at hmax
  obtain ⟨hlist, hlength⟩ := hlisted ((hspool.loaded count hcount).trans hspool.count) (by omega)
  rw [hheader₀, hsize₀] at hlist
  have hwithin : (ls 0).view.Within s.shared.view :=
    hplaces.view_within fun page hp => (mem_newPages.mp (hfree page (hwritten page hp))).1.1
  exact ⟨trees, trunks, rangePages ranges, header', hfile, h.closing.header header' hheader, hperm,
    hplaces.nodup, htrunks', hplaces.zeros, hlist.within hwithin, hlength⟩

/-! ### The sessions of two workers -/

def Event.isFinished : Event → Bool
  | .returned _ .finish (.ok ()) => true
  | _ => false

theorem exists_finished {log : List Event} (h : log.any Event.isFinished = true) :
    ∃ agent, .returned agent .finish (.ok ()) ∈ log := by
  obtain ⟨e, he, hfinished⟩ := List.any_eq_true.mp h
  unfold Event.isFinished at hfinished
  split at hfinished
  · exact ⟨_, he⟩
  · cases hfinished

theorem State.call_sized {s : State} {agent : Nat} {call : Call} (h : Sized s.log)
    (hcall : call.Sized) : Sized (s.call agent call).log := by
  unfold State.call
  split
  · intro a c he
    rcases List.mem_cons.mp he with he | he
    · cases he
    rcases List.mem_cons.mp he with he | he
    · cases he
      exact hcall
    · exact h a c he
  · exact h

theorem State.fork_sized {s : State} {root : Nat} (h : Sized s.log) : Sized (s.fork root).log := by
  unfold State.fork
  split
  · rename_i w _
    intro a c he
    rcases hr : (forkDynamic root w).run (Shared.serve s.count false) s.shared with
      ⟨⟨fault | worker, w'⟩, shared⟩
    · rw [hr] at he
      exact h a c he
    · rw [hr] at he
      rcases List.mem_cons.mp he with he | he
      · cases he
      · exact h a c he
  · exact h

/-- The records of the samples are short. -/
theorem sampleRecords_sized (root : Nat) (first : Int64) :
    (Call.tree root .table (sampleRecords first)).Sized := by
  intro record hrecord
  simp only [sampleRecords, List.mem_map] at hrecord
  obtain ⟨rowid, _, hrowid⟩ := hrecord
  obtain rfl := Except.ok.inj hrowid
  rw [List.length_replicate]
  decide

/-- So is every record of the session. -/
theorem workedSession_sized : Sized workedSession.log := by
  have hforked : Sized forkedSession.log := by
    refine State.fork_sized (State.fork_sized fun a c he => ?_)
    simp [initial] at he
  exact State.call_sized (State.call_sized (State.call_sized (State.call_sized hforked
    (sampleRecords_sized 2 1)) (sampleRecords_sized 3 10)) trivial) trivial

/-- Two workers have each appended a tree and returned their tails; four pages are in the spool. -/
theorem pages_apart_small :
    workedSession.shared.file.map Write.page = [4, 5, 2, 8, 9, 3] ∧
    ((workedSession.shared.file.map Write.page).filter (4 ≤ ·)).Nodup ∧
    ∃ ranges, workedSession.shared.freeOutput = some ranges ∧
      (rangePages ranges).Nodup ∧ workedSession.shared.freeCount = (rangePages ranges).length ∧
      workedSession.shared.freeCount = 4 := by
  have hfailed : workedSession.shared.failed = false := by decide +kernel
  obtain ⟨hnodup, _, hspool⟩ :=
    pages_apart sampleWriter_opens workedSession_steps workedSession_sized hfailed
  have hopen : workedSession.shared.freeOutput.isSome = true := by decide +kernel
  obtain ⟨ranges, hranges⟩ := Option.isSome_iff_exists.mp hopen
  obtain ⟨hapart, hcount, _⟩ := hspool ranges hranges
  exact ⟨by decide +kernel, hnodup, ranges, hranges, hapart, hcount, by decide +kernel⟩

/-- Behind `finish`: seven pages written, and the eight new ones are the appended and the free. -/
theorem pages_conserved_small :
    newPages sampleWriter finishedSession.shared.next = [4, 5, 6, 7, 8, 9, 10, 11] ∧
    ∃ trees trunks free header', finishedSession.shared.file = trees ++ trunks ∧
      (finishedSession.shared.file.map Write.page = [4, 5, 2, 8, 9, 3, 6]) ∧
      finishedSession.shared.header = some header' ∧
      (appended sampleWriter trees ++ free).Perm
        (newPages sampleWriter finishedSession.shared.next) := by
  obtain ⟨trees, trunks, free, header', hfile, hheader, hpages, _⟩ :=
    pages_conserved sampleWriter_opens finishedSession_steps
      (State.call_sized workedSession_sized trivial) (exists_finished (by decide +kernel))
  exact ⟨by decide +kernel, trees, trunks, free, header', hfile, by decide +kernel, hheader, hpages⟩

end Velr.Session
