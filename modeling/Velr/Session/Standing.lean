import Velr.PageWriter.Ledger
import Velr.Session.Machine

/-!
# How an agent stands to the allocator

`flags` is the part of the protocol that keeps a header from being published too early: which
agents are counted in `active`, and what an agent knows about the flag `failed`. The specification
of each call says how it moves the agent: a worker leaves the count exactly once, when it completes
or behind its poison; a call of `finish` gets to the header only through both checks.

The methods that write pages do not touch the count or the flag (`Plain`).
-/

namespace Velr.Session

open ByteString Interleaving Method Writer

inductive Standing where
  /-- Not counted yet, or never. -/
  | outside
  /-- A worker, counted in `active`. -/
  | counted
  /-- A worker no longer counted. -/
  | left
  | coordinator
  /-- The coordinator has seen that no worker is counted. -/
  | alone
  /-- It has then seen that nothing failed. -/
  | clean
  deriving DecidableEq

structure Flags where
  standing : Standing
  /-- The flag `failed` is known to be set. -/
  poisoned : Bool
  /-- The tree roots the agent has claimed. -/
  roots : List Nat

/-- The accesses of an agent of the allocator `A`, seen from its flags. -/
def flags (A : Allocator) : Protocol Access Access.Answer Flags where
  allowed f i :=
    f.standing ≠ .left ∧
    match i with
    | .claimRoot root => 1 < root ∧ root < A.bootstrapEnd
    | .grant allocator _ => allocator = A ∧ f.standing ≠ .clean
    | .enter => f.standing = .outside
    | .leave => f.standing = .counted
    | .storeFailed => f.standing = .counted ∨ f.standing = .coordinator
    | .loadActive => f.standing = .coordinator
    | .closeFree | .loadNext | .writeHeader _ => f.standing = .clean
    | _ => True
  answers f i answer f' :=
    match i, answer with
    | .claimRoot root, .ok () => f' = { f with roots := root :: f.roots }
    | .enter, () => f' = { f with standing := .counted }
    | .leave, () => f' = { f with standing := .left }
    | .storeFailed, () => f' = { f with poisoned := true }
    | .loadActive, active => f' = if active = 0 then { f with standing := .alone } else f
    | .loadFailed, failed => (f.poisoned → failed = true) ∧
        f' = if f.standing = .alone ∧ failed = false then { f with standing := .clean } else f
    | _, _ => f' = f

variable {A : Allocator} {S : Writer → Flags → Prop} {α β : Type}

/-- A method that keeps `S`, however it ends. -/
def Plain (A : Allocator) (S : Writer → Flags → Prop) (m : WriterM α) : Prop :=
  ∀ w f, S w f → Ensures (flags A) m w f (fun _ w' f' => S w' f') fun _ w' f' => S w' f'

namespace Plain

/-- A value is plain. -/
theorem pure (a : α) : Plain A S (Pure.pure a) := fun _ _ h => h

/-- So is a fault. -/
theorem throw (fault : Fault) : Plain A S (Method.throw fault : WriterM α) := fun _ _ h => h

/-- So is a result. -/
theorem ofExcept (x : Except Fault α) : Plain A S (Method.ofExcept x) := by
  cases x with
  | ok a => exact .pure a
  | error fault => exact .throw fault

/-- So is a change of the writer that keeps `S`. -/
theorem modify {g : Writer → Writer} (hg : ∀ w f, S w f → S (g w) f) :
    Plain A S (Method.modify g) := fun w f h => hg w f h

/-- So is a sequence of plain methods. -/
theorem bind {m : WriterM α} {k : α → WriterM β} (hm : Plain A S m) (hk : ∀ a, Plain A S (k a)) :
    Plain A S (m >>= k) := by
  intro w f h
  exact (hm w f h).bind (fun a w' f' h' => hk a w' f' h') fun _ _ _ h => h

/-- So is a method that looks at the writer. -/
theorem get {k : Writer → WriterM β} (hk : ∀ w f, S w f → Plain A S (k w)) :
    Plain A S (Method.get >>= k) := by
  intro w f h
  simp only [ensures_bind, ensures_get]
  exact hk w f h w f h

/-- An access that is allowed and whose answers keep `S`. -/
theorem invoke {i : Access} {k : i.Answer → WriterM β}
    (hallowed : ∀ w f, S w f → (flags A).allowed f i)
    (hkeeps : ∀ w f answer f', S w f → (flags A).answers f i answer f' → S w f')
    (hk : ∀ answer, Plain A S (k answer)) : Plain A S (call i >>= k) := by
  intro w f h
  simp only [ensures_bind, ensures_call]
  exact ⟨hallowed w f h, fun answer f' ha => hk answer w f' (hkeeps w f answer f' h ha)⟩

/-- An access that does not touch the flags. -/
theorem look {i : Access} {k : i.Answer → WriterM β}
    (hallowed : ∀ w f, S w f → (flags A).allowed f i)
    (hsame : ∀ f answer f', (flags A).answers f i answer f' → f' = f)
    (hk : ∀ answer, Plain A S (k answer)) : Plain A S (call i >>= k) :=
  .invoke hallowed (fun _ f answer f' h ha => hsame f answer f' ha ▸ h) hk

end Plain

/-- What the methods that write pages need of `S` and keep. -/
structure Frame (A : Allocator) (S : Writer → Flags → Prop) : Prop where
  allocator : ∀ w f, S w f → w.allocator = some A
  standing : ∀ w f, S w f → f.standing ≠ .left
  same : ∀ w w' f, w.Same w' → S w f → S w' f
  claim : ∀ w f root, S w f → S w { f with roots := root :: f.roots }

/-- What the methods that may need a new block require. -/
structure Granting (A : Allocator) (S : Writer → Flags → Prop) : Prop extends Frame A S where
  grants : ∀ w f, S w f → f.standing ≠ .clean

/-- Assignments to the fields that move a writer through its pages. -/
theorem Plain.move (hS : Frame A S) {g : Writer → Writer} (hg : ∀ w : Writer, w.Same (g w)) :
    Plain A S (Method.modify g) := .modify fun w f h => hS.same w (g w) f (hg w) h

/-! ## The methods that write pages -/

section
variable (hS : Frame A S)
include hS

theorem flush_plain : Plain A S flush :=
  .look (fun _ f h => ⟨hS.standing _ f h, trivial⟩) (fun _ _ _ h => h) .ofExcept

theorem scratch_plain : Plain A S scratch :=
  .look (fun _ f h => ⟨hS.standing _ f h, trivial⟩) (fun _ _ _ h => h) .ofExcept

theorem writeAll_plain (page : Bytes) : Plain A S (writeAll page) :=
  .get fun _ _ _ =>
    .look (fun _ f h => ⟨hS.standing _ f h, trivial⟩) (fun _ _ _ h => h) fun answer =>
    (Plain.ofExcept answer).bind fun _ => .move hS fun _ => ⟨rfl, rfl, rfl, rfl, rfl, rfl⟩

/-- A return of a tail is plain. -/
theorem returnTail_plain (start stop : Nat) : Plain A S (returnTail A start stop) := by
  unfold returnTail
  split
  · exact .pure _
  · exact .look (fun _ f h => ⟨hS.standing _ f h, trivial⟩) (fun _ _ _ h => h) .ofExcept

end

section
variable (hS : Granting A S)
include hS

/-- So is a grant. -/
theorem grant_plain (needed : Nat) : Plain A S (grant A needed) := by
  unfold grant
  simp only
  split
  · exact .throw _
  · exact .look (fun _ f h => ⟨hS.standing _ f h, rfl, hS.grants _ f h⟩)
      (fun _ _ _ h => h) .ofExcept

/-- So is `ensure_contiguous`. -/
theorem ensureContiguous_plain (pages : Nat) : Plain A S (ensureContiguous pages) := by
  refine .get fun w f h => ?_
  rw [hS.allocator w f h]
  cases w.rangeEnd with
  | none => exact .throw _
  | some stop =>
      simp only
      split
      · exact .pure _
      · refine (flush_plain hS.toFrame).bind fun _ =>
          (returnTail_plain hS.toFrame _ _).bind fun _ => .bind ?_ fun _ =>
          (grant_plain hS _).bind fun _ => .bind ?_ fun _ => ?_ <;>
        exact .move hS.toFrame fun _ => ⟨rfl, rfl, rfl, rfl, rfl, rfl⟩

/-- So is `append`. -/
theorem append_plain (page : Bytes) : Plain A S (append page) := by
  refine .get fun w _ _ => ?_
  split
  · exact .throw _
  · refine (ensureContiguous_plain hS 1).bind fun _ => .get fun w _ _ => ?_
    split
    · exact .throw _
    · refine .bind (.get fun w _ _ => ?_) fun _ => .get fun w _ _ => ?_
      · split
        · exact (writeAll_plain hS.toFrame _).bind fun _ => .move hS.toFrame fun _ =>
            ⟨rfl, rfl, rfl, rfl, rfl, rfl⟩
        · exact .pure _
      · split
        · exact .throw _
        · split
          · exact .throw _
          · exact .bind (.move hS.toFrame fun _ => ⟨rfl, rfl, rfl, rfl, rfl, rfl⟩) fun _ =>
              (writeAll_plain hS.toFrame _).bind fun _ => .pure _

/-- So is `root`. -/
theorem root_plain (root : Nat) (bytes : Bytes) : Plain A S (Writer.root root bytes) := by
  refine .get fun w _ _ => ?_
  simp only
  split
  · exact .throw _
  · split
    · exact .throw _
    · exact (flush_plain hS.toFrame).bind fun _ =>
        .bind (.move hS.toFrame fun _ => ⟨rfl, rfl, rfl, rfl, rfl, rfl⟩)
        fun _ => (writeAll_plain hS.toFrame _).bind fun _ => (flush_plain hS.toFrame).bind fun _ =>
          .move hS.toFrame fun _ => ⟨rfl, rfl, rfl, rfl, rfl, rfl⟩

/-- So is the writing of an overflow chain. -/
theorem overflow_plain : ∀ (fuel : Nat) (remaining : Bytes), Plain A S (overflow fuel remaining)
  | 0, remaining => by
      unfold overflow
      split
      · exact .pure _
      · exact .throw _
  | fuel + 1, remaining => by
      unfold overflow
      split
      · exact .pure _
      · exact .get fun _ _ _ => (append_plain hS _).bind fun _ => overflow_plain fuel _

/-- So is `cell`. -/
theorem cell_plain (kind : Kind) (rowid : Int64) (record : Bytes) :
    Plain A S (cell kind rowid record) := by
  refine .get fun w _ _ => ?_
  simp only
  split
  · split
    · exact .throw _
    · exact (ensureContiguous_plain hS _).bind fun _ => .get fun _ _ _ =>
        (overflow_plain hS _ _).bind fun _ => .pure _
  · exact .pure _

/-- So is the closing of a leaf. -/
theorem closeLeaf_plain (kind : Kind) (page : Page) (previous : Option Int64) :
    Plain A S (closeLeaf kind page previous) :=
  (Plain.ofExcept _).bind fun _ => (append_plain hS _).bind fun _ =>
    (scratch_plain hS.toFrame).bind fun _ =>
    .pure _

/-- So is the cell of a leaf. -/
theorem leafCell_plain (kind : Kind) (rowid : Int64) (record : Bytes) :
    Plain A S (leafCell kind rowid record) := by
  refine .get fun w _ _ => ?_
  split
  · exact .pure _
  · exact (cell_plain hS _ _ _).bind fun _ => .pure _

/-- So are the leaves of a tree. -/
theorem leaves_plain (kind : Kind) : ∀ (records : List (Except Fault Record)) (page : Page)
    (children : List Child) (previous : Option Int64),
    Plain A S (leaves kind records page children previous)
  | [], page, children, _ => .pure (page, children)
  | .error fault :: _, _, _, _ => .throw fault
  | .ok (rowid, record) :: records, page, children, previous => by
      unfold leaves
      split
      · exact .throw _
      · refine (leafCell_plain hS _ _ _).bind fun ⟨cell, payload⟩ => ?_
        simp only
        split
        · exact (Plain.ofExcept _).bind fun _ => leaves_plain kind records _ _ _
        · exact (closeLeaf_plain hS _ _ _).bind fun ⟨_, _⟩ => (Plain.ofExcept _).bind fun _ =>
            leaves_plain kind records _ _ _

/-- So is `parent`. -/
theorem parent_plain (atRoot : Option Nat) (kind : Kind) (group : List Child) :
    Plain A S (parent atRoot kind group) := by
  refine .get fun w _ _ => (Plain.ofExcept _).bind fun page => ?_
  split
  · exact .throw _
  · cases atRoot with
    | some page => exact (root_plain hS _ _).bind fun _ => .bind (.pure _) fun _ => .pure _
    | none => exact (append_plain hS _).bind fun _ => .pure _

/-- So are the groups of a level. -/
theorem groups_plain (kind : Kind) : ∀ (rest : List Child) (previous : Option (List Child))
    (group : List Child) (used : Nat) (next : List Child),
    Plain A S (groups kind rest previous group used next)
  | [], previous, group, _, next => .pure (previous, group, next)
  | child :: rest, previous, group, used, next => by
      unfold groups
      refine .get fun w _ _ => ?_
      split
      · cases previous with
        | some previous =>
            exact (parent_plain hS _ _ _).bind fun _ => (scratch_plain hS.toFrame).bind fun _ =>
              .bind (.pure _) fun _ => groups_plain kind rest _ _ _ _
        | none => exact .bind (.pure _) fun _ => groups_plain kind rest _ _ _ _
      · exact groups_plain kind rest _ _ _ _

/-- So is `level`. -/
theorem level_plain (root : Nat) (kind : Kind) (children : List Child) :
    Plain A S (level root kind children) := by
  refine (scratch_plain hS.toFrame).bind fun _ => (scratch_plain hS.toFrame).bind fun _ =>
    (groups_plain hS _ _ _ _ _ _).bind fun ⟨previous, group, next⟩ => ?_
  cases previous with
  | some previous =>
      exact (Plain.ofExcept _).bind fun ⟨_, _⟩ => (parent_plain hS _ _ _).bind fun _ =>
        (scratch_plain hS.toFrame).bind fun _ => (parent_plain hS _ _ _).bind fun _ =>
          (scratch_plain hS.toFrame).bind fun _ =>
          .pure _
  | none => exact (parent_plain hS _ _ _).bind fun _ => .pure _

/-- So are the levels of a tree. -/
theorem levels_plain (root : Nat) (kind : Kind) : ∀ (rounds : Nat) (children : List Child),
    Plain A S (levels root kind rounds children)
  | 0, _ => .throw _
  | rounds + 1, children => by
      refine (level_plain hS _ _ _).bind fun next => ?_
      cases next with
      | none => exact .pure _
      | some next => exact levels_plain root kind rounds next

/-- The end of `tree`, behind the last record. -/
theorem pages_plain (root : Nat) (kind : Kind) (page : Page) (children : List Child) :
    Plain A S (if children.length = 0 then Writer.root root (page.image 0)
      else do
        let id ← append (page.image 0)
        scratch
        let children := children ++ [⟨id, []⟩]
        levels root kind children.length children) := by
  split
  · exact root_plain hS _ _
  · exact (append_plain hS _).bind fun _ => (scratch_plain hS.toFrame).bind fun _ =>
      levels_plain hS _ _ _ _

end

/-! ## Calls -/

/-- How an idle agent stands. -/
structure Sits (A : Allocator) (agent : Nat) (w : Writer) (f : Flags) : Prop where
  allocator : w.allocator = some A
  assigned : ∀ root, w.assignedRoot = some root → root ∈ f.roots
  unassigned : w.assignedRoot = none → agent = 0
  worker : w.dynamicWorker = decide (agent ≠ 0)
  completed : w.dynamicCompleted = false
  standing : f.standing = if agent = 0 then .coordinator else .counted

/-- A worker whose writer was dropped has left behind its poison. -/
def Ended (agent : Nat) (f : Flags) : Prop :=
  agent ≠ 0 → f.standing = .left ∧ f.poisoned = true

/-- How a call that started with the flags `f` leaves the agent. -/
def Meets (A : Allocator) (agent : Nat) (call : Call) (f : Flags) (result : Except Fault Unit)
    (w' : Writer) (f' : Flags) : Prop :=
  match call, result with
  | .tree root _ _, .ok () => Sits A agent w' f' ∧ root ∈ f'.roots
  | .tree _ _ _, .error (.error _) => Sits A agent w' f' ∧ f'.poisoned = true
  | .tree _ _ _, .error (.panic _) => Ended agent f' ∧ (agent = 0 → f'.standing = .coordinator)
  | .complete, .ok () => agent ≠ 0 ∧ f'.standing = .left ∧ f.poisoned = false
  | .finish, .ok () => agent = 0 ∧ f'.standing = .clean
  | _, _ => Ended agent f'

section
variable {agent : Nat} {w : Writer} {f : Flags}

/-- An agent that sits has not left. -/
theorem Sits.ne_left (h : Sits A agent w f) : f.standing ≠ .left := by
  rw [h.standing]
  split <;> simp

/-- An access leaves an agent sitting. -/
theorem sits_frame : Granting A (Sits A agent) where
  grants _ f h := by
    rw [h.standing]
    split <;> simp
  allocator _ _ h := h.allocator
  standing _ _ h := h.ne_left
  same _ _ _ hs h := ⟨hs.allocator.trans h.allocator, hs.assignedRoot ▸ h.assigned,
    hs.assignedRoot ▸ h.unassigned, hs.dynamicWorker.trans h.worker,
    hs.dynamicCompleted.trans h.completed, h.standing⟩
  claim _ _ _ h := ⟨h.allocator, fun root hr => List.mem_cons_of_mem _ (h.assigned root hr),
    h.unassigned, h.worker, h.completed, h.standing⟩

/-- Dropping a worker stores the poison before it leaves the count. -/
theorem drop_ensures (ha : w.allocator = some A) (hworker : w.dynamicWorker = decide (agent ≠ 0))
    (hcompleted : w.dynamicCompleted = false) (hstanding : agent ≠ 0 → f.standing = .counted) :
    Ensures (flags A) drop w f (fun _ _ f' => Ended agent f' ∧ (agent = 0 → f' = f))
      (fun _ _ _ => False) := by
  simp only [drop, ensures_bind, ensures_get, hworker, hcompleted, ha]
  by_cases hagent : agent = 0
  · simp [hagent, Ended]
  · have hs := hstanding hagent
    simp only [ne_eq, hagent, not_false_eq_true, decide_true, Option.isSome_some, and_self, if_true,
      ensures_bind, ensures_call]
    refine ⟨⟨by simp [hs], .inl hs⟩, ?_⟩
    rintro ⟨⟩ f₁ rfl
    refine ⟨⟨by simp [hs], hs⟩, ?_⟩
    rintro ⟨⟩ f₂ rfl
    exact ⟨fun _ => ⟨rfl, rfl⟩, fun hzero => hzero.elim⟩

/-- A drop ends the agent; the coordinator keeps its flags. -/
theorem Sits.drop_ensures (h : Sits A agent w f) :
    Ensures (flags A) drop w f (fun _ _ f' => Ended agent f' ∧ (agent = 0 → f' = f))
      (fun _ _ _ => False) :=
  Session.drop_ensures h.allocator h.worker h.completed fun hne => by rw [h.standing, if_neg hne]

/-- A worker's tree has the root it was forked for, and a coordinator claims the root. -/
theorem claimTree_sits (h : Sits A agent w f) (root : Nat) :
    Ensures (flags A) (claimTree root) w f
      (fun _ w' f' => Sits A agent w' f' ∧ root ∈ f'.roots)
        (fun _ w' f' => Sits A agent w' f') := by
  simp only [claimTree, ensures_bind, ensures_get, h.allocator, h.worker]
  split
  · exact h
  · rename_i hassigned
    split
    · rename_i hagent
      refine ⟨h, ?_⟩
      cases hroot : w.assignedRoot with
      | none => exact absurd (h.unassigned hroot) (by simpa using hagent)
      | some assigned =>
          obtain rfl : assigned = root := by simpa [hroot] using hassigned
          exact h.assigned assigned hroot
    · unfold claimRoot
      split
      · exact h
      · refine ensures_bind.mpr ((ensures_call _).mpr ⟨⟨h.ne_left, by simp only; omega⟩, ?_⟩)
        rintro (fault | ⟨⟩) f' rfl
        · exact h
        · exact ⟨sits_frame.claim w f root h, List.mem_cons_self⟩

/-- A tree is written at a root its writer has claimed. -/
theorem tree_sits (h : Sits A agent w f) (root : Nat) (kind : Kind)
    (records : List (Except Fault Record)) :
    Ensures (flags A) (tree root kind records) w f
      (fun _ w' f' => Sits A agent w' f' ∧ root ∈ f'.roots)
        (fun _ w' f' => Sits A agent w' f') := by
  have hframe : Granting A fun w f => Sits A agent w f ∧ root ∈ f.roots :=
    { grants := fun _ _ h => sits_frame.grants _ _ h.1
      allocator := fun _ _ h => h.1.allocator
      standing := fun _ _ h => h.1.ne_left
      same := fun _ _ _ hs h => ⟨sits_frame.same _ _ _ hs h.1, h.2⟩
      claim := fun _ _ _ h => ⟨sits_frame.claim _ _ _ h.1, List.mem_cons_of_mem _ h.2⟩ }
  refine (claimTree_sits h root).bind ?_ fun _ _ _ he => he
  rintro ⟨⟩ w₁ f₁ h₁
  have hrest : ∀ m : WriterM Unit, Plain A (fun w f => Sits A agent w f ∧ root ∈ f.roots) m →
      Ensures (flags A) m w₁ f₁ (fun _ w' f' => Sits A agent w' f' ∧ root ∈ f'.roots)
        (fun _ w' f' => Sits A agent w' f') :=
    fun m hm => Ensures.mono (hm w₁ f₁ h₁) (fun _ _ _ h => h) fun _ _ _ h => h.1
  exact hrest _ ((scratch_plain hframe.toFrame).bind fun _ => .get fun w _ _ =>
    (leaves_plain hframe _ _ _ _ _).bind fun ⟨page, children⟩ =>
      pages_plain hframe root kind page children)

/-- A tree that fails with an error poisons the allocator, one that panics drops the writer. -/
theorem tree_meets (h : Sits A agent w f) (root : Nat) (kind : Kind)
    (records : List (Except Fault Record)) :
    Ensures (flags A) (Call.program (.tree root kind records)) w f
      (fun _ w' f' => Sits A agent w' f' ∧ root ∈ f'.roots)
      (fun fault w' f' => Meets A agent (.tree root kind records) f (.error fault) w' f') := by
  simp only [Call.program, treeFrom, ensures_bind, ensures_attempt]
  refine (tree_sits h root kind records).mono (fun _ _ _ h₁ => h₁) ?_
  · rintro (message | message) w₁ f₁ h₁
    · simp only [ensures_bind, ensures_get, h₁.allocator, Option.isSome_some, if_true, ensures_call,
        ensures_throw]
      refine ⟨⟨h₁.ne_left, ?_⟩, ?_⟩
      · simp only [h₁.standing]
        split
        · exact .inr rfl
        · exact .inl rfl
      · rintro ⟨⟩ f₂ rfl
        exact ⟨⟨h₁.allocator, h₁.assigned, h₁.unassigned, h₁.worker, h₁.completed, h₁.standing⟩,
          rfl⟩
    · simp only [ensures_throw, ensures_bind]
      refine h₁.drop_ensures.mono (fun _ _ _ he => ⟨he.1, fun hzero => ?_⟩) fun _ _ _ hf => hf.elim
      rw [he.2 hzero, h₁.standing, if_pos hzero]

/-- A worker leaves the count without poison only if it knew of none. -/
theorem complete_ensures (h : Sits A agent w f) :
    Ensures (flags A) complete w f
      (fun _ w' f' => w'.dynamicCompleted = true ∧ agent ≠ 0 ∧ f'.standing = .left ∧
        f.poisoned = false)
      (fun _ w' f' => Sits A agent w' f') := by
  simp only [complete, ensures_bind, ensures_get, h.allocator, h.worker]
  by_cases hagent : agent = 0
  · simp only [hagent, ne_eq, not_true_eq_false, decide_false, if_true, ensures_throw]
    exact hagent ▸ h
  · have hs : f.standing = .counted := by rw [h.standing, if_neg hagent]
    simp only [ne_eq, hagent, not_false_eq_true, decide_true, Bool.true_eq_false, if_false,
      ensures_bind, ensures_call]
    refine ⟨⟨h.ne_left, trivial⟩, ?_⟩
    rintro failed f₁ ⟨hpoisoned, hf₁⟩
    obtain rfl : f₁ = f := by simpa [hs] using hf₁
    cases failed with
    | true => exact h
    | false =>
        simp only [Bool.false_eq_true, if_false, ensures_bind]
        refine Ensures.mono (flush_plain sits_frame.toFrame w f₁ h) ?_ fun _ _ _ he => he
        rintro ⟨⟩ w₁ f₂ h₁
        cases w.rangeEnd with
        | none => exact h₁
        | some stop =>
            simp only [ensures_bind]
            refine Ensures.mono (returnTail_plain sits_frame.toFrame w.nextPage stop w₁ f₂ h₁) ?_
              fun _ _ _ he => he
            rintro ⟨⟩ w₂ f₃ h₂
            simp only [ensures_modify, ensures_call]
            refine ⟨⟨h₂.ne_left, by rw [h₂.standing, if_neg hagent]⟩, ?_⟩
            rintro ⟨⟩ f₄ rfl
            refine ⟨trivial, trivial, rfl, ?_⟩
            cases hp : f₁.poisoned with
            | true => exact absurd (hpoisoned hp) (by simp)
            | false => rfl

/-! ### `finish` -/

/-- The coordinator behind the checks of `finish`. -/
structure Checked (A : Allocator) (w : Writer) (f : Flags) : Prop where
  allocator : w.allocator = some A
  worker : w.dynamicWorker = false
  standing : f.standing = .clean

/-- An access leaves what `finish` has checked. -/
theorem checked_frame : Frame A (Checked A) where
  allocator _ _ h := h.allocator
  standing _ _ h := by rw [h.standing]; simp
  same _ _ _ hs h := ⟨hs.allocator.trans h.allocator, hs.dynamicWorker.trans h.worker, h.standing⟩
  claim _ _ _ h := ⟨h.allocator, h.worker, h.standing⟩

/-- Assignments to the header, the next page and the position. -/
theorem Checked.move {g : Writer → Writer}
    (hg : ∀ w : Writer, (g w).allocator = w.allocator ∧ (g w).dynamicWorker = w.dynamicWorker) :
    Plain A (Checked A) (Method.modify g) :=
  .modify fun w _ h => ⟨(hg w).1.trans h.allocator, (hg w).2.trans h.worker, h.standing⟩

theorem nextFree_plain (free : FreeReader) : Plain A (Checked A) (nextFree free) := by
  unfold nextFree
  split
  · refine (scratch_plain checked_frame).bind fun _ => ?_
    cases free.input with
    | nil => exact .pure _
    | cons range input =>
        simp only
        split
        · exact .throw _
        · exact .pure _
  · exact .pure _

/-- Filling a trunk is plain. -/
theorem trunkLeaves_plain : ∀ (capacity leaves : Nat) (page : Bytes) (free : FreeReader),
    Plain A (Checked A) (trunkLeaves capacity leaves page free)
  | 0, leaves, page, free => .pure (page, leaves, free)
  | capacity + 1, leaves, page, free => by
      refine (nextFree_plain free).bind fun ⟨leaf, free⟩ => ?_
      cases leaf with
      | none => exact .pure _
      | some leaf => exact trunkLeaves_plain capacity _ _ _

/-- So is writing the trunks. -/
theorem trunks_plain (oldTrunk : Nat) : ∀ (rounds trunk counted : Nat) (free : FreeReader),
    Plain A (Checked A) (trunks oldTrunk rounds trunk counted free)
  | 0, _, _, _ => .throw _
  | rounds + 1, trunk, counted, free => by
      refine .get fun w _ _ => (trunkLeaves_plain _ _ _ _).bind fun ⟨page, leaves, free⟩ =>
        (nextFree_plain free).bind fun ⟨next, free⟩ => ?_
      simp only
      split
      · exact .throw _
      · refine .bind (Checked.move fun _ => ⟨rfl, rfl⟩) fun _ =>
          (writeAll_plain checked_frame _).bind fun _ => ?_
        cases next with
        | some next => exact trunks_plain oldTrunk rounds _ _ _
        | none => exact .pure _

/-- So is `write_freelist`. -/
theorem writeFreelist_plain (freeCount : Nat) (ranges : List (Nat × Nat)) :
    Plain A (Checked A) (writeFreelist freeCount ranges) := by
  refine .get fun w _ _ => (scratch_plain checked_frame).bind fun _ =>
    (nextFree_plain _).bind fun ⟨first, free⟩ => ?_
  cases first with
  | none => exact .throw _
  | some first =>
      refine (trunks_plain _ _ _ _ _).bind fun _ => ?_
      split
      · exact .throw _
      · refine .bind (Checked.move fun _ => ⟨rfl, rfl⟩) fun _ => ?_
        split
        · exact .throw _
        · exact Checked.move fun _ => ⟨rfl, rfl⟩

/-- So is the writing of the header. -/
theorem publish_plain : Plain A (Checked A) publish :=
  .bind (Checked.move fun _ => ⟨rfl, rfl⟩) fun _ => .get fun _ _ _ =>
    .look (fun _ _ h => ⟨checked_frame.standing _ _ h, h.standing⟩) (fun _ _ _ h => h) fun _ =>
      (Plain.ofExcept _).bind fun _ => flush_plain checked_frame

/-- `finish` goes on only if no worker is counted and nothing has failed. -/
theorem settle_ensures (h : Sits A 0 w f) :
    Ensures (flags A) (settle A) w f (fun _ w' f' => Checked A w' f')
      (fun _ w' _ => w'.allocator = some A ∧ w'.dynamicWorker = false) := by
  have hworker : w.dynamicWorker = false := by simp [h.worker]
  have hs : f.standing = .coordinator := by simp [h.standing]
  simp only [settle, ensures_bind, ensures_call]
  refine ⟨⟨h.ne_left, hs⟩, ?_⟩
  rintro active f₁ rfl
  by_cases hactive : active = 0
  · simp only [hactive, ne_eq, not_true_eq_false, if_false, if_true, ensures_bind, ensures_call]
    refine ⟨⟨by simp, trivial⟩, ?_⟩
    rintro failed f₂ ⟨_, rfl⟩
    cases failed with
    | true => exact ⟨h.allocator, hworker⟩
    | false =>
        simp only [Bool.false_eq_true, if_false, and_self, if_true, ensures_bind, ensures_get]
        have hc : Checked A w ⟨.clean, f.poisoned, f.roots⟩ := ⟨h.allocator, hworker, rfl⟩
        cases w.rangeEnd with
        | none => exact ⟨h.allocator, hworker⟩
        | some stop =>
            have hplain : Plain A (Checked A) (do
                returnTail A w.nextPage stop
                let ranges ← ofExcept (← call .closeFree)
                let next ← call Access.loadNext
                Method.modify fun w => { w with nextPage := next }
                ofExcept (← call (.setLen (next - 1)))
                let freeCount ← call Access.loadFreeCount
                if freeCount > 0 then writeFreelist freeCount ranges else pure ()) := by
              have hS := checked_frame (A := A)
              refine (returnTail_plain hS _ _).bind fun _ =>
                .look (fun _ _ h => ⟨hS.standing _ _ h, h.standing⟩) (fun _ _ _ h => h) fun _ =>
                (Plain.ofExcept _).bind fun ranges =>
                .look (fun _ _ h => ⟨hS.standing _ _ h, h.standing⟩) (fun _ _ _ h => h) fun next =>
                .bind (Checked.move fun _ => ⟨rfl, rfl⟩) fun _ =>
                .look (fun _ _ h => ⟨hS.standing _ _ h, trivial⟩) (fun _ _ _ h => h) fun _ =>
                (Plain.ofExcept _).bind fun _ =>
                .look (fun _ _ h => ⟨hS.standing _ _ h, trivial⟩) (fun _ _ _ h => h)
                  fun freeCount => ?_
              split
              · exact writeFreelist_plain _ _
              · exact .pure _
            exact (hplain w _ hc).mono (fun _ _ _ h => h) fun _ _ _ h => ⟨h.allocator, h.worker⟩
  · simp only [ne_eq, hactive, not_false_eq_true, if_true, ensures_throw]
    exact ⟨h.allocator, hworker⟩

/-- `finish` succeeds only for the coordinator, with the flag and the count clean. -/
theorem finish_ensures (h : Sits A agent w f) :
    Ensures (flags A) finish w f
      (fun _ w' f' => agent = 0 ∧ f'.standing = .clean ∧ w'.dynamicWorker = false)
      (fun _ w' f' => Sits A agent w' f' ∨
        agent = 0 ∧ w'.allocator = some A ∧ w'.dynamicWorker = false) := by
  simp only [finish, ensures_bind, ensures_get, h.allocator, h.worker]
  by_cases hagent : agent = 0
  · subst hagent
    simp only [ne_eq, not_true_eq_false, decide_false, Bool.false_eq_true, reduceCtorEq, false_and,
      or_self, if_false, ensures_bind]
    refine Ensures.mono (flush_plain sits_frame.toFrame w f h) ?_ fun _ _ _ he => .inl he
    rintro ⟨⟩ w₁ f₁ h₁
    refine (settle_ensures h₁).mono ?_ fun _ _ _ he => Or.inr ⟨trivial, he⟩
    rintro ⟨⟩ w₂ f₂ hchecked
    exact Ensures.mono (publish_plain w₂ f₂ hchecked)
      (fun _ _ _ h => ⟨trivial, h.standing, h.worker⟩)
      fun _ _ _ h => .inr ⟨trivial, h.allocator, h.worker⟩
  · simp only [ne_eq, hagent, not_false_eq_true, decide_true, true_or, if_true, ensures_throw]
    exact .inl h

/-! ### Every call -/

/-- Dropping a coordinator or a completed worker does nothing. -/
theorem drop_skips {ok : Unit → Writer → Flags → Prop} {err : Fault → Writer → Flags → Prop}
    (h : w.dynamicWorker = false ∨ w.dynamicCompleted = true) :
    Ensures (flags A) drop w f ok err ↔ ok () w f := by
  have hskip : ¬ (w.dynamicWorker ∧ w.dynamicCompleted = false ∧ w.allocator.isSome) := by
    rcases h with h | h <;> simp [h]
  simp only [drop, ensures_bind, ensures_get, if_neg hskip, ensures_pure]

/-- Behind a call that took the writer by value. -/
theorem consuming_ensures {m : WriterM Unit} (ok : Flags → Prop)
    (h : Ensures (flags A) m w f
      (fun _ w' f' => ok f' ∧ (w'.dynamicWorker = false ∨ w'.dynamicCompleted = true))
      (fun _ w' f' => Sits A agent w' f' ∨
        agent = 0 ∧ w'.allocator = some A ∧ w'.dynamicWorker = false)) :
    Ensures (flags A) (consuming m) w f (fun _ _ f' => ok f') (fun _ _ f' => Ended agent f') := by
  simp only [consuming, ensures_bind, ensures_attempt]
  refine h.mono ?_ ?_
  · rintro ⟨⟩ w₁ f₁ ⟨hok, hno⟩
    exact (drop_skips hno).mpr hok
  · rintro fault w₁ f₁ (h₁ | ⟨rfl, _, hworker⟩)
    · exact h₁.drop_ensures.mono (fun _ _ _ he => he.1) fun _ _ _ hf => hf.elim
    · exact (drop_skips (.inl hworker)).mpr fun hne => absurd rfl hne

/-- How `fork_dynamic` leaves the agent it makes. -/
def ForkMeets (A : Allocator) (agent root : Nat) (result : Except Fault Writer) (f' : Flags) :
    Prop :=
  match result with
  | .ok worker => Sits A agent worker f' ∧ root ∈ f'.roots
  | .error _ => f'.standing = .outside

/-- A worker is counted when it exists, and not before its root is claimed. -/
theorem fork_meets {agent : Nat} {w : Writer} {f : Flags} (hagent : agent ≠ 0)
    (ha : w.allocator = some A) (hworker : w.dynamicWorker = false) (hf : f.standing = .outside)
    (root : Nat) :
    Prog.Safe (flags A) (forkDynamic root w) (fun r f' => ForkMeets A agent root r.1 f') f := by
  have hS : Frame A fun w f => w.allocator = some A ∧ f.standing = .outside :=
    { allocator := fun _ _ h => h.1
      standing := fun _ _ h => by rw [h.2]; simp
      same := fun _ _ _ hs h => ⟨hs.allocator.trans h.1, h.2⟩
      claim := fun _ _ _ h => h }
  have hensures : Ensures (flags A) (forkDynamic root) w f
      (fun worker _ f' => ForkMeets A agent root (.ok worker) f')
      (fun _ _ f' => f'.standing = .outside) := by
    simp only [forkDynamic, ensures_bind, ensures_get, ha, hworker, Bool.false_eq_true, if_false]
    refine Ensures.mono (scratch_plain hS w f ⟨ha, hf⟩) ?_ fun _ _ _ h => h.2
    rintro ⟨⟩ w₁ f₁ ⟨_, h₁⟩
    unfold claimRoot
    split
    · exact h₁
    · refine ensures_bind.mpr ((ensures_call _).mpr ⟨⟨by simp [h₁], by simp only; omega⟩, ?_⟩)
      rintro (fault | ⟨⟩) f₂ rfl
      · exact h₁
      · simp only [Method.ofExcept, ensures_pure, ensures_call]
        refine ⟨⟨by simp [h₁], h₁⟩, ?_⟩
        rintro ⟨⟩ f₃ rfl
        refine ⟨⟨ha, ?_, by simp [worker], by simp [worker, hagent], rfl, by simp [hagent]⟩,
          List.mem_cons_self⟩
        rintro _ ⟨⟩
        exact List.mem_cons_self
  refine Prog.Safe.mono ?_ hensures
  rintro ⟨result, w'⟩ f' hr
  cases result <;> exact hr

/-- Every call meets its specification. -/
theorem call_meets (h : Sits A agent w f) (call : Call) :
    Prog.Safe (flags A) (call.program w) (fun r f' => Meets A agent call f r.1 r.2 f') f := by
  cases call with
  | tree root kind records =>
      refine Prog.Safe.mono ?_ (tree_meets h root kind records)
      rintro ⟨result, w'⟩ f' hr
      cases result <;> exact hr
  | complete =>
      have hm := consuming_ensures (m := complete)
        (fun f' => agent ≠ 0 ∧ f'.standing = .left ∧ f.poisoned = false)
        ((complete_ensures h).mono (fun _ _ _ hok => ⟨hok.2, .inr hok.1⟩) fun _ _ _ he => .inl he)
      refine Prog.Safe.mono ?_ hm
      rintro ⟨result, w'⟩ f' hr
      cases result <;> exact hr
  | finish =>
      have hm := consuming_ensures (m := finish) (fun f' => agent = 0 ∧ f'.standing = .clean)
        ((finish_ensures h).mono (fun _ _ _ hok => ⟨⟨hok.1, hok.2.1⟩, .inl hok.2.2⟩)
          fun _ _ _ he => he)
      refine Prog.Safe.mono ?_ hm
      rintro ⟨result, w'⟩ f' hr
      cases result <;> exact hr
  | drop =>
      refine Prog.Safe.mono ?_ h.drop_ensures
      rintro ⟨result, w'⟩ f' hr
      cases result with
      | ok u => exact hr.1
      | error fault => exact hr.elim

end

end Velr.Session
