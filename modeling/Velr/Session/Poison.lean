import Mathlib.Data.Finset.Card
import Velr.Session.Standing

/-!
# A failure is never published

The invariant of a session that keeps half-written trees out of a published database: `active` is
the number of the workers that are still counted, an agent that knows of a failure is right, and
the coordinator gets past the checks of `finish` only when no worker is counted and nothing has
failed. It holds in every reachable state, whatever the order of the calls and of their accesses.
-/

namespace Velr.Session

open ByteString Interleaving Method Writer

/-! ## Histories -/

/-- A tree failed, or a worker was dropped without completing. -/
def Event.Failure : Event → Prop
  | .returned _ (.tree _ _ _) (.error (.error _)) => True
  | .returned agent (.tree _ _ _) (.error (.panic _)) => agent ≠ 0
  | .returned agent .complete (.error _) => agent ≠ 0
  | .returned agent .finish (.error _) => agent ≠ 0
  | .returned agent .drop _ => agent ≠ 0
  | _ => False

/-- The agent's call of `complete` began when nothing had failed. -/
def BegunClean (agent : Nat) (log : List Event) : Prop :=
  ∃ later earlier, log = later ++ .started agent .complete :: earlier ∧
    ∀ e ∈ earlier, ¬ e.Failure

/-- Every worker that completed had begun to before the first failure. -/
def Prompt (log : List Event) : Prop :=
  ∀ later earlier agent, log = later ++ .returned agent .complete (.ok ()) :: earlier →
    BegunClean agent earlier

/-- An event keeps a log prompt unless it is the completion of a worker that began behind a failure.
-/
theorem Prompt.cons {log : List Event} {e : Event} (h : Prompt log)
    (he : ∀ agent, e = .returned agent .complete (.ok ()) → BegunClean agent log) :
    Prompt (e :: log) := by
  intro later earlier agent heq
  cases later with
  | nil =>
      obtain ⟨rfl, rfl⟩ := List.cons.inj heq
      exact he agent rfl
  | cons first later =>
      obtain ⟨_, rfl⟩ := List.cons.inj heq
      exact h later earlier agent rfl

/-! ## The shared memory -/

/-- The shared memory agrees with the flags of the agents; `C` are the counted ones. -/
structure Shares (A : Allocator) (shared : Shared) (f : Nat → Flags) (C : Finset Nat) : Prop where
  active : shared.active = C.card
  counted : ∀ a, a ∈ C ↔ (f a).standing = .counted
  worker : ∀ a, a ≠ 0 → (f a).standing = .outside ∨ (f a).standing = .counted ∨
    (f a).standing = .left
  coordinator : (f 0).standing = .coordinator ∨ (f 0).standing = .alone ∨
    (f 0).standing = .clean
  poisoned : ∀ a, (f a).poisoned = true → shared.failed = true
  alone : (f 0).standing ≠ .coordinator → C = ∅
  clean : (f 0).standing = .clean → shared.failed = false
  header : shared.header ≠ none → (f 0).standing = .clean
  roots : ∀ a root, root ∈ (f a).roots → (a, root) ∈ shared.claims
  nodup : (shared.claims.map Prod.snd).Nodup

namespace Shares

variable {A : Allocator} {shared shared' : Shared} {f : Nat → Flags} {C : Finset Nat} {agent : Nat}

/-- Only agent 0 coordinates. -/
theorem agent_eq (h : Shares A shared f C)
    (hs : (f agent).standing = .coordinator ∨ (f agent).standing = .alone ∨
      (f agent).standing = .clean) : agent = 0 := by
  by_contra hne
  rcases h.worker agent hne with hw | hw | hw <;> rw [hw] at hs <;> simp at hs

/-- The count, the flag, the header and the claims are as before. -/
theorem congr (h : Shares A shared f C) (hactive : shared'.active = shared.active)
    (hfailed : shared'.failed = shared.failed) (hheader : shared'.header = shared.header)
    (hclaims : shared'.claims = shared.claims) : Shares A shared' f C where
  active := hactive.trans h.active
  counted := h.counted
  worker := h.worker
  coordinator := h.coordinator
  poisoned a hp := hfailed.trans (h.poisoned a hp)
  alone := h.alone
  clean hc := hfailed.trans (h.clean hc)
  header hh := h.header (hheader ▸ hh)
  roots a root hr := hclaims ▸ h.roots a root hr
  nodup := hclaims ▸ h.nodup

/-- Flags that differ only in what they know about `failed` and the roots. -/
theorem learn (h : Shares A shared f C) {f₁ : Flags} (hstanding : f₁.standing = (f agent).standing)
    (hpoisoned : f₁.poisoned = true → shared.failed = true)
    (hroots : ∀ root, root ∈ f₁.roots → (agent, root) ∈ shared.claims) :
    Shares A shared (Function.update f agent f₁) C := by
  have hsame : ∀ a, (Function.update f agent f₁ a).standing = (f a).standing := by
    intro a
    by_cases ha : a = agent
    · subst ha
      rw [Function.update_self, hstanding]
    · rw [Function.update_of_ne ha]
  refine ⟨h.active, ?_, ?_, ?_, ?_, ?_, ?_, ?_, ?_, h.nodup⟩
  · simpa only [hsame] using h.counted
  · simpa only [hsame] using h.worker
  · simpa only [hsame] using h.coordinator
  · intro a hp
    by_cases ha : a = agent
    · subst ha
      rw [Function.update_self] at hp
      exact hpoisoned hp
    · rw [Function.update_of_ne ha] at hp
      exact h.poisoned a hp
  · simpa only [hsame] using h.alone
  · simpa only [hsame] using h.clean
  · simpa only [hsame] using h.header
  · intro a root hr
    by_cases ha : a = agent
    · subst ha
      rw [Function.update_self] at hr
      exact hroots root hr
    · rw [Function.update_of_ne ha] at hr
      exact h.roots a root hr

/-- Claiming a new root keeps the roots apart. -/
theorem claim (h : Shares A shared f C) {root : Nat} (hnew : root ∉ shared.claims.map Prod.snd) :
    Shares A { shared with claims := (agent, root) :: shared.claims }
      (Function.update f agent { f agent with roots := root :: (f agent).roots }) C := by
  have hclaimed : Shares A { shared with claims := (agent, root) :: shared.claims } f C :=
    { h with
      roots := fun a r hr => List.mem_cons_of_mem _ (h.roots a r hr)
      nodup := List.nodup_cons.mpr ⟨hnew, h.nodup⟩ }
  refine hclaimed.learn rfl (h.poisoned agent) fun r hr => ?_
  rcases List.mem_cons.mp hr with rfl | hr
  · exact List.mem_cons_self
  · exact List.mem_cons_of_mem _ (h.roots agent r hr)

/-- The standing of one agent changes to `s₁`. -/
theorem shift (h : Shares A shared f C) {s₁ : Standing} {C' : Finset Nat} {active : Int}
    (hactive : active = C'.card)
    (hcounted : ∀ a, a ∈ C' ↔ if a = agent then s₁ = .counted else a ∈ C)
    (hworker : agent ≠ 0 → s₁ = .counted ∨ s₁ = .left)
    (hcoordinator : agent = 0 → s₁ = .alone ∧ shared.header = none ∨
      s₁ = .clean ∧ shared.failed = false)
    (halone : (if 0 = agent then s₁ else (f 0).standing) ≠ .coordinator → C' = ∅) :
    Shares A { shared with active := active }
      (Function.update f agent { f agent with standing := s₁ }) C' := by
  have hstanding : ∀ a, (Function.update f agent { f agent with standing := s₁ } a).standing
      = if a = agent then s₁ else (f a).standing := by
    intro a
    by_cases ha : a = agent
    · simp [ha]
    · simp [ha]
  refine ⟨hactive, ?_, ?_, ?_, ?_, ?_, ?_, ?_, ?_, h.nodup⟩
  · intro a
    rw [hstanding, hcounted]
    split
    · rfl
    · exact h.counted a
  · intro a hzero
    rw [hstanding]
    split
    · rename_i ha
      exact .inr (hworker (ha ▸ hzero))
    · exact h.worker a hzero
  · rw [hstanding]
    split
    · rename_i ha
      exact (hcoordinator ha.symm).elim (fun hs => .inr (.inl hs.1)) fun hs => .inr (.inr hs.1)
    · exact h.coordinator
  · intro a hp
    by_cases ha : a = agent
    · subst ha
      rw [Function.update_self] at hp
      exact h.poisoned a hp
    · rw [Function.update_of_ne ha] at hp
      exact h.poisoned a hp
  · rw [hstanding]
    exact halone
  · rw [hstanding]
    split
    · rename_i ha
      rintro rfl
      exact (hcoordinator ha.symm).elim (fun hs => absurd hs.1 (by simp)) fun hs => hs.2
    · exact h.clean
  · rw [hstanding]
    intro hh
    split
    · rename_i ha
      exact (hcoordinator ha.symm).elim (fun hs => absurd hs.2 hh) fun hs => hs.1
    · exact h.header hh
  · intro a root hr
    by_cases ha : a = agent
    · subst ha
      rw [Function.update_self] at hr
      exact h.roots a root hr
    · rw [Function.update_of_ne ha] at hr
      exact h.roots a root hr

/-- A worker that enters joins the counted ones, unless the coordinator is past the count. -/
theorem enter (h : Shares A shared f C) (hs : (f agent).standing = .outside)
    (hzero : (f 0).standing = .coordinator) :
    Shares A { shared with active := shared.active + 1 }
      (Function.update f agent { f agent with standing := .counted }) (insert agent C) := by
  have hne : 0 ≠ agent := by
    rintro rfl
    rw [hs] at hzero
    cases hzero
  have hnew : agent ∉ C := by
    rw [h.counted, hs]
    simp
  refine h.shift ?_ ?_ (fun _ => .inl rfl) (fun ha => absurd ha.symm hne) ?_
  · rw [Finset.card_insert_of_notMem hnew, h.active]
    simp
  · intro a
    by_cases ha : a = agent <;> simp [ha]
  · rw [if_neg hne, hzero]
    simp

/-- A worker that leaves is counted off. -/
theorem leave (h : Shares A shared f C) (hs : (f agent).standing = .counted) :
    Shares A { shared with active := shared.active - 1 }
      (Function.update f agent { f agent with standing := .left }) (C.erase agent) := by
  have hmem : agent ∈ C := (h.counted agent).mpr hs
  have hne : 0 ≠ agent := by
    rintro rfl
    have := h.coordinator
    rw [hs] at this
    simp at this
  refine h.shift ?_ ?_ (fun _ => .inr rfl) (fun ha => absurd ha.symm hne) ?_
  · have hcard := Finset.card_erase_add_one hmem
    rw [h.active, ← hcard]
    simp
  · intro a
    by_cases ha : a = agent <;> simp [ha]
  · rw [if_neg hne]
    intro hzero
    rw [h.alone hzero, Finset.erase_empty]

/-- The coordinator reads a count of zero. -/
theorem settle (h : Shares A shared f C) (hs : (f 0).standing = .coordinator)
    (hactive : shared.active = 0) :
    Shares A shared (Function.update f 0 { f 0 with standing := .alone }) C := by
  have hempty : C = ∅ := by
    rw [h.active] at hactive
    exact Finset.card_eq_zero.mp (by omega)
  have hheader : shared.header = none := by
    by_contra hh
    have := h.header hh
    rw [hs] at this
    cases this
  refine h.shift h.active ?_ (fun hne => absurd rfl hne) (fun _ => .inl ⟨rfl, hheader⟩)
    fun _ => hempty
  intro a
  by_cases ha : a = 0 <;> simp [ha, hempty]

/-- Alone, the coordinator reads that nothing has failed. -/
theorem clear (h : Shares A shared f C) (hs : (f 0).standing = .alone)
    (hfailed : shared.failed = false) :
    Shares A shared (Function.update f 0 { f 0 with standing := .clean }) C := by
  have hempty : C = ∅ := h.alone (by rw [hs]; simp)
  refine h.shift h.active ?_ (fun hne => absurd rfl hne) (fun _ => .inr ⟨rfl, hfailed⟩)
    fun _ => hempty
  intro a
  by_cases ha : a = 0 <;> simp [ha, hempty]

/-- A poison is stored while its agent is counted, or by a coordinator that has not begun to
finish. -/
theorem poison (h : Shares A shared f C)
    (hs : (f agent).standing = .counted ∨ (f agent).standing = .coordinator) :
    Shares A { shared with failed := true }
      (Function.update f agent { f agent with poisoned := true }) C := by
  have hnot : (f 0).standing ≠ .clean := by
    intro hclean
    rcases hs with hs | hs
    · have hmem := (h.counted agent).mpr hs
      rw [h.alone (by rw [hclean]; simp)] at hmem
      simp at hmem
    · obtain rfl := h.agent_eq (.inl hs)
      rw [hs] at hclean
      cases hclean
  have hstored : Shares A { shared with failed := true } f C :=
    { h with
      poisoned := fun _ _ => rfl
      clean := fun hclean => absurd hclean hnot }
  exact hstored.learn rfl (fun _ => rfl) (h.roots agent)

/-- One access changes the flags of the agent that performs it as the protocol says. -/
theorem performs (h : Shares A shared f C) {finishing : Bool} {i : Access} {answer : i.Answer}
    (hallowed : (flags A).allowed (f agent) i)
    (hperforms : shared.Performs agent finishing i answer shared')
    (henters : (f agent).standing = .outside → (f 0).standing = .coordinator) :
    ∃ f₁ C', (flags A).answers (f agent) i answer f₁ ∧
      Shares A shared' (Function.update f agent f₁) C' ∧
      (shared.failed = true → shared'.failed = true) := by
  have hself : Function.update f agent (f agent) = f := Function.update_eq_self agent f
  cases i with
  | claimRoot root =>
      cases answer with
      | error fault =>
          obtain ⟨_, rfl⟩ := hperforms
          exact ⟨f agent, C, rfl, hself.symm ▸ h, id⟩
      | ok u =>
          obtain ⟨hnew, rfl⟩ := hperforms
          exact ⟨_, C, rfl, h.claim hnew, id⟩
  | grant allocator pages => exact hperforms.elim
  | free ranges =>
      refine ⟨f agent, C, rfl, ?_⟩
      rw [hself]
      cases answer with
      | ok u =>
          obtain ⟨spool, _, rfl⟩ := hperforms
          exact ⟨h.congr rfl rfl rfl rfl, id⟩
      | error fault =>
          obtain ⟨_, rfl | ⟨spool, done, _, _, rfl⟩⟩ := hperforms
          · exact ⟨h, id⟩
          · exact ⟨h.congr rfl rfl rfl rfl, id⟩
  | write page bytes =>
      refine ⟨f agent, C, rfl, ?_⟩
      rw [hself]
      cases answer with
      | ok u =>
          obtain rfl := hperforms
          exact ⟨h.congr rfl rfl rfl rfl, id⟩
      | error fault =>
          obtain ⟨_, rfl⟩ := hperforms
          exact ⟨h, id⟩
  | flush | scratch | setLen =>
      refine ⟨f agent, C, rfl, ?_⟩
      rw [hself]
      cases answer with
      | ok u =>
          obtain rfl := hperforms
          exact ⟨h, id⟩
      | error fault =>
          obtain ⟨_, rfl⟩ := hperforms
          exact ⟨h, id⟩
  | loadNext | loadFreeCount =>
      obtain ⟨_, rfl⟩ := hperforms
      exact ⟨f agent, C, rfl, hself.symm ▸ h, id⟩
  | loadFailed =>
      obtain ⟨rfl, rfl⟩ := hperforms
      refine ⟨_, C, ⟨h.poisoned agent, rfl⟩, ?_⟩
      split
      · rename_i hs
        obtain rfl := h.agent_eq (.inr (.inl hs.1))
        exact ⟨h.clear hs.1 hs.2, id⟩
      · exact ⟨hself.symm ▸ h, id⟩
  | storeFailed =>
      obtain rfl := hperforms
      exact ⟨_, C, rfl, h.poison hallowed.2, fun _ => rfl⟩
  | loadActive =>
      obtain ⟨rfl, rfl⟩ := hperforms
      refine ⟨_, C, rfl, ?_⟩
      obtain rfl := h.agent_eq (.inl hallowed.2)
      split
      · rename_i hactive
        exact ⟨h.settle hallowed.2 hactive, id⟩
      · exact ⟨hself.symm ▸ h, id⟩
  | enter =>
      obtain rfl := hperforms
      exact ⟨_, _, rfl, h.enter hallowed.2 (henters hallowed.2), id⟩
  | leave =>
      obtain rfl := hperforms
      exact ⟨_, _, rfl, h.leave hallowed.2, id⟩
  | closeFree =>
      refine ⟨f agent, C, rfl, ?_⟩
      rw [hself]
      cases answer with
      | ok ranges =>
          obtain ⟨_, rfl⟩ := hperforms
          exact ⟨h.congr rfl rfl rfl rfl, id⟩
      | error fault =>
          obtain ⟨_, rfl⟩ := hperforms
          exact ⟨h.congr rfl rfl rfl rfl, id⟩
  | writeHeader bytes =>
      obtain rfl := h.agent_eq (.inr (.inr hallowed.2))
      refine ⟨f 0, C, rfl, ?_⟩
      rw [hself]
      cases answer with
      | ok u =>
          obtain rfl := hperforms
          exact ⟨{ h with header := fun _ => hallowed.2 }, id⟩
      | error fault =>
          obtain ⟨_, header, rfl⟩ := hperforms
          exact ⟨{ h with header := fun _ => hallowed.2 }, id⟩

end Shares

/-! ## The whole state -/

/-- The agent has a writer. -/
def Phase.Live : Phase → Prop
  | .idle _ | .calling _ _ _ => True
  | _ => False

/-- The call of `complete` in progress began with the flags `f₀`, which knew of every failure. -/
def Began (agent : Nat) (f₀ : Flags) (log : List Event) : Prop :=
  ∃ later earlier, log = later ++ .started agent .complete :: earlier ∧
    ((∃ e ∈ earlier, e.Failure) → f₀.poisoned = true)

/-- The flags of an agent fit what it is doing, and its program will meet its specification. -/
def Stands (A : Allocator) (log : List Event) (agent : Nat) (f : Flags) : Phase → Prop
  | .absent => agent ≠ 0 ∧ f = ⟨.outside, false, []⟩
  | .forking root p => agent ≠ 0 ∧ (∃ i k, p = .access i k) ∧
      Prog.Safe (flags A) p (fun r f' => ForkMeets A agent root r.1 f') f
  | .idle w => Sits A agent w f
  | .calling call _ p => (∃ i k, p = .access i k) ∧ f.standing ≠ .outside ∧
      ∃ f₀, Prog.Safe (flags A) p (fun r f' => Meets A agent call f₀ r.1 r.2 f') f ∧
        (call = .complete → Began agent f₀ log)
  | .gone => f.standing ≠ .counted

/-- What the log says about the flags and the phases of the agents. -/
structure History (s : State) (f : Nat → Flags) : Prop where
  failures : ∀ e ∈ s.log, e.Failure → s.shared.failed = true
  panics : ∀ root kind records message,
    .returned 0 (.tree root kind records) (.error (.panic message)) ∈ s.log →
      s.agents 0 = .gone ∧ (f 0).standing = .coordinator
  finished : ∀ a, .returned a .finish (.ok ()) ∈ s.log →
    a = 0 ∧ s.agents 0 = .gone ∧ (f 0).standing = .clean
  forked : ∀ a root, .forked a root ∈ s.log → a ≠ 0 ∧ root ∈ (f a).roots ∧
    ((s.agents a).Live ∨ .returned a .complete (.ok ()) ∈ s.log ∨ ∃ e ∈ s.log, e.Failure)
  planted : ∀ a root kind records,
    .returned a (.tree root kind records) (.ok ()) ∈ s.log → root ∈ (f a).roots
  prompt : Prompt s.log

structure Guarded (A : Allocator) (s : State) (f : Nat → Flags) (C : Finset Nat) : Prop where
  shares : Shares A s.shared f C
  agents : ∀ a, Stands A s.log a (f a) (s.agents a)
  fresh : ∀ a, s.count ≤ a → s.agents a = .absent
  unforked : (∀ w, s.agents 0 ≠ .idle w) → s.Unforked
  history : History s f

/-- What stands behind a log stands behind a longer one. -/
theorem Stands.log {A : Allocator} {log : List Event} {agent : Nat} {f : Flags} {phase : Phase}
    (h : Stands A log agent f phase) (events : List Event) :
    Stands A (events ++ log) agent f phase := by
  cases phase with
  | calling call loaded p =>
      obtain ⟨haccess, hinside, f₀, hsafe, hbegan⟩ := h
      refine ⟨haccess, hinside, f₀, hsafe, fun hcall => ?_⟩
      obtain ⟨later, earlier, rfl, hpoisoned⟩ := hbegan hcall
      exact ⟨events ++ later, earlier, by simp, hpoisoned⟩
  | absent | forking | idle | gone => exact h

/-- The agent `agent` goes from a phase to another and adds `events` to the log. -/
theorem History.step {s s' : State} {f f' : Nat → Flags} {agent : Nat} {phase : Phase}
    {events : List Event} (h : History s f)
    (hagents : s'.agents = Function.update s.agents agent phase)
    (hlog : s'.log = events ++ s.log)
    (hacting : s.agents agent ≠ .gone)
    (hothers : ∀ a, a ≠ agent → f' a = f a)
    (hroots : ∀ root, root ∈ (f agent).roots → root ∈ (f' agent).roots)
    (hfailed : s.shared.failed = true → s'.shared.failed = true)
    (hfailures : ∀ e ∈ events, e.Failure → s'.shared.failed = true)
    (hpanics : ∀ root kind records message,
      .returned 0 (.tree root kind records) (.error (.panic message)) ∈ events →
        agent = 0 ∧ phase = .gone ∧ (f' agent).standing = .coordinator)
    (hfinished : ∀ a, .returned a .finish (.ok ()) ∈ events →
      a = agent ∧ agent = 0 ∧ phase = .gone ∧ (f' agent).standing = .clean)
    (hforked : ∀ a root, .forked a root ∈ events →
      a = agent ∧ a ≠ 0 ∧ root ∈ (f' agent).roots ∧ phase.Live)
    (hlive : agent ≠ 0 → (s.agents agent).Live → phase.Live ∨
      .returned agent .complete (.ok ()) ∈ events ∨ ∃ e ∈ events, e.Failure)
    (hplanted : ∀ a root kind records,
      .returned a (.tree root kind records) (.ok ()) ∈ events → a = agent ∧ root ∈ (f' agent).roots)
    (hprompt : Prompt s'.log) : History s' f' where
  failures e he hfailure := by
    rw [hlog] at he
    rcases List.mem_append.mp he with he | he
    · exact hfailures e he hfailure
    · exact hfailed (h.failures e he hfailure)
  panics root kind records message he := by
    rw [hlog] at he
    rcases List.mem_append.mp he with he | he
    · obtain ⟨rfl, rfl, hs⟩ := hpanics root kind records message he
      exact ⟨by rw [hagents, Function.update_self], hs⟩
    · obtain ⟨hgone, hs⟩ := h.panics root kind records message he
      have hne : 0 ≠ agent := by
        rintro rfl
        exact hacting hgone
      rw [hagents, Function.update_of_ne hne, hothers 0 hne]
      exact ⟨hgone, hs⟩
  finished a he := by
    rw [hlog] at he
    rcases List.mem_append.mp he with he | he
    · obtain ⟨rfl, rfl, rfl, hs⟩ := hfinished a he
      exact ⟨rfl, by rw [hagents, Function.update_self], hs⟩
    · obtain ⟨rfl, hgone, hs⟩ := h.finished a he
      have hne : 0 ≠ agent := by
        rintro rfl
        exact hacting hgone
      rw [hagents, Function.update_of_ne hne, hothers 0 hne]
      exact ⟨rfl, hgone, hs⟩
  forked a root he := by
    rw [hlog] at he
    rw [hlog, hagents]
    rcases List.mem_append.mp he with he | he
    · obtain ⟨rfl, hzero, hroot, hphase⟩ := hforked a root he
      rw [Function.update_self]
      exact ⟨hzero, hroot, .inl hphase⟩
    · obtain ⟨hzero, hroot, hstate⟩ := h.forked a root he
      by_cases ha : a = agent
      · subst ha
        rw [Function.update_self]
        refine ⟨hzero, hroots root hroot, ?_⟩
        rcases hstate with hstate | hstate | ⟨e, hmem, hfailure⟩
        · rcases hlive hzero hstate with hphase | hdone | ⟨e, hmem, hfailure⟩
          · exact .inl hphase
          · exact .inr (.inl (List.mem_append_left _ hdone))
          · exact .inr (.inr ⟨e, List.mem_append_left _ hmem, hfailure⟩)
        · exact .inr (.inl (List.mem_append_right _ hstate))
        · exact .inr (.inr ⟨e, List.mem_append_right _ hmem, hfailure⟩)
      · rw [Function.update_of_ne ha, hothers a ha]
        refine ⟨hzero, hroot, ?_⟩
        rcases hstate with hstate | hstate | ⟨e, hmem, hfailure⟩
        · exact .inl hstate
        · exact .inr (.inl (List.mem_append_right _ hstate))
        · exact .inr (.inr ⟨e, List.mem_append_right _ hmem, hfailure⟩)
  planted a root kind records he := by
    rw [hlog] at he
    rcases List.mem_append.mp he with he | he
    · obtain ⟨rfl, hroot⟩ := hplanted a root kind records he
      exact hroot
    · have hroot := h.planted a root kind records he
      by_cases ha : a = agent
      · subst ha
        exact hroots root hroot
      · rw [hothers a ha]
        exact hroot
  prompt := hprompt

section
variable {A : Allocator} {s : State} {f : Nat → Flags} {C C' : Finset Nat} {agent : Nat}
  {f₁ : Flags} {shared' : Shared}

/-- The phases of the other agents are unchanged. -/
theorem Guarded.agents_put (h : Guarded A s f C) (events : List Event) {phase : Phase}
    (hphase : Stands A (events ++ s.log) agent f₁ phase) (a : Nat) :
    Stands A (events ++ s.log) a (Function.update f agent f₁ a)
      (Function.update s.agents agent phase a) := by
  by_cases ha : a = agent
  · subst ha
    rw [Function.update_self, Function.update_self]
    exact hphase
  · rw [Function.update_of_ne ha, Function.update_of_ne ha]
    exact (h.agents a).log events

/-- An agent that is there leaves the later ones absent. -/
theorem Guarded.fresh_put (h : Guarded A s f C) (hpresent : s.agents agent ≠ .absent)
    {phase : Phase} (a : Nat) (ha : s.count ≤ a) :
    Function.update s.agents agent phase a = .absent := by
  have hne : a ≠ agent := by
    rintro rfl
    exact hpresent (h.fresh a ha)
  rw [Function.update_of_ne hne]
  exact h.fresh a ha

/-- No fork begins in the step of another agent. -/
theorem unforked_put (h : (∀ w, s.agents 0 ≠ .idle w) → s.Unforked) {phase : Phase}
    (hunforked : agent = 0 → s.Unforked) (hphase : ∀ root p, phase ≠ .forking root p)
    (hzero : ∀ w, Function.update s.agents agent phase 0 ≠ .idle w) (a root : Nat)
    (p : Prog Access Access.Answer (Except Fault Writer × Writer)) :
    Function.update s.agents agent phase a ≠ .forking root p := by
  by_cases ha : a = agent
  · subst ha
    rw [Function.update_self]
    exact hphase root p
  · rw [Function.update_of_ne ha]
    by_cases hagent : agent = 0
    · exact hunforked hagent a root p
    · refine h (fun w => ?_) a root p
      rw [← Function.update_of_ne (Ne.symm hagent) phase s.agents]
      exact hzero w

/-- The writer that a call keeps. -/
theorem Meets.kept {call : Call} {f₀ : Flags} {result : Except Fault Unit} {w : Writer}
    (h : Meets A agent call f₀ result w f₁) (hkeeps : call.keeps result = true) :
    Sits A agent w f₁ := by
  cases call with
  | tree root kind records =>
      rcases result with (message | message) | ⟨⟩
      · exact h.1
      · cases hkeeps
      · exact h.1
  | complete | finish | drop => cases hkeeps

/-- A call that does not keep the writer of a worker ends outside the count. -/
theorem Meets.released {call : Call} {f₀ : Flags} {result : Except Fault Unit} {w : Writer}
    (h : Meets A agent call f₀ result w f₁) (hkeeps : call.keeps result = false)
    (hagent : agent ≠ 0) : f₁.standing = .left := by
  cases call with
  | tree root kind records =>
      rcases result with (message | message) | ⟨⟩
      · cases hkeeps
      · exact (h.1 hagent).1
      · cases hkeeps
  | drop => cases result <;> exact (h hagent).1
  | complete =>
      cases result with
      | error fault => exact (h hagent).1
      | ok u => exact h.2.1
  | finish =>
      cases result with
      | error fault => exact (h hagent).1
      | ok u => exact absurd h.1 hagent

/-- A call that ends in a failure leaves its agent knowing of it. -/
theorem Meets.poisoned {call : Call} {f₀ : Flags} {result : Except Fault Unit} {w : Writer}
    (h : Meets A agent call f₀ result w f₁)
    (hfailure : (Event.returned agent call result).Failure) :
    f₁.poisoned = true := by
  cases call with
  | tree root kind records =>
      rcases result with (message | message) | ⟨⟩
      · exact h.2
      · exact (h.1 hfailure).2
      · exact hfailure.elim
  | drop => cases result <;> exact (h hfailure).2
  | complete | finish =>
      cases result with
      | error fault => exact (h hfailure).2
      | ok u => exact hfailure.elim

/-- A worker that is gone behind a call has completed, or it has failed. -/
theorem released_cases {call : Call} {result : Except Fault Unit}
    (hkeeps : call.keeps result = false) (hagent : agent ≠ 0)
    (hfinish : call ≠ .finish ∨ result ≠ .ok ()) :
    Event.returned agent call result = .returned agent .complete (.ok ()) ∨
      (Event.returned agent call result).Failure := by
  cases call with
  | tree root kind records =>
      rcases result with (message | message) | ⟨⟩
      · cases hkeeps
      · exact .inr hagent
      · cases hkeeps
  | drop => cases result <;> exact .inr hagent
  | complete =>
      cases result with
      | error fault => exact .inr hagent
      | ok u => exact .inl rfl
  | finish =>
      cases result with
      | error fault => exact .inr hagent
      | ok u => simp at hfinish

/-- The start of a call keeps a log prompt. -/
theorem prompt_started {log events : List Event} {call : Call} (h : Prompt log)
    (hevents : ∀ e ∈ events, e = .started agent call) : Prompt (events ++ log) := by
  induction events with
  | nil => exact h
  | cons e events ih =>
      refine Prompt.cons (ih fun e he => hevents e (List.mem_cons_of_mem _ he)) fun a ha => ?_
      rw [hevents e List.mem_cons_self] at ha
      cases ha

theorem Phase.Live.ne_absent {phase : Phase} (h : phase.Live) : phase ≠ .absent := by
  rintro rfl
  exact h

theorem Phase.Live.ne_gone {phase : Phase} (h : phase.Live) : phase ≠ .gone := by
  rintro rfl
  exact h

/-- A call goes on. -/
theorem Guarded.hold (h : Guarded A s f C) {call : Call} {f₀ : Flags}
    (f₁ : Flags) (events : List Event)
    {loaded : Option Nat} {i : Access}
    {k : i.Answer → Prog Access Access.Answer (Except Fault Unit × Writer)}
    (hlive : (s.agents agent).Live) (hunforked : agent = 0 → s.Unforked)
    (hevents : ∀ e ∈ events, e = .started agent call)
    (hshares : Shares A shared' (Function.update f agent f₁) C')
    (hfailed : s.shared.failed = true → shared'.failed = true)
    (hroots : ∀ root, root ∈ (f agent).roots → root ∈ f₁.roots)
    (hsafe : Prog.Safe (flags A) (.access i k) (fun r f' => Meets A agent call f₀ r.1 r.2 f') f₁)
    (hinside : f₁.standing ≠ .outside)
    (hbegan : call = .complete → Began agent f₀ (events ++ s.log)) :
    Guarded A ({ s with shared := shared', log := events ++ s.log }.put agent
      (.calling call loaded (.access i k))) (Function.update f agent f₁) C' := by
  have hstarted : ∀ {e : Event}, (∀ a call, e ≠ .started a call) → e ∉ events :=
    fun hne he => hne _ _ (hevents _ he)
  refine ⟨hshares, h.agents_put events ⟨⟨i, k, rfl⟩, hinside, f₀, hsafe, hbegan⟩,
    h.fresh_put hlive.ne_absent, fun hzero => unforked_put h.unforked hunforked (by simp) hzero, ?_⟩
  refine h.history.step rfl rfl hlive.ne_gone (fun a ha => Function.update_of_ne ha _ _) ?_ hfailed
    ?_ ?_ ?_ ?_ (fun _ _ => .inl trivial) ?_ (prompt_started h.history.prompt hevents)
  · rw [Function.update_self]
    exact hroots
  · intro e he hfailure
    rw [hevents e he] at hfailure
    exact hfailure.elim
  · exact fun _ _ _ _ he => absurd he (hstarted (by simp))
  · exact fun _ he => absurd he (hstarted (by simp))
  · exact fun _ _ he => absurd he (hstarted (by simp))
  · exact fun _ _ _ _ he => absurd he (hstarted (by simp))

/-- A call goes on, or returns. -/
theorem Guarded.resume (h : Guarded A s f C) {call : Call} {f₀ : Flags}
    (f₁ : Flags) (events : List Event)
    {p : Prog Access Access.Answer (Except Fault Unit × Writer)}
    (hlive : (s.agents agent).Live) (hunforked : agent = 0 → s.Unforked)
    (hevents : ∀ e ∈ events, e = .started agent call)
    (hshares : Shares A shared' (Function.update f agent f₁) C')
    (hfailed : s.shared.failed = true → shared'.failed = true)
    (hroots : ∀ root, root ∈ (f agent).roots → root ∈ f₁.roots)
    (hsafe : Prog.Safe (flags A) p (fun r f' => Meets A agent call f₀ r.1 r.2 f') f₁)
    (hinside : f₁.standing ≠ .outside)
    (hbegan : call = .complete → Began agent f₀ (events ++ s.log)) :
    Guarded A ({ s with shared := shared', log := events ++ s.log }.resume agent call p)
      (Function.update f agent f₁) C' := by
  match p with
  | .access i k =>
      exact h.hold f₁ events hlive hunforked hevents hshares hfailed hroots hsafe hinside hbegan
  | .ret (result, w) =>
      have hmeets : Meets A agent call f₀ result w f₁ := hsafe
      have hstarted : ∀ {e : Event}, (∀ a call, e ≠ .started a call) → e ∉ events :=
        fun hne he => hne _ _ (hevents _ he)
      have hfinish : agent ≠ 0 → call ≠ .finish ∨ result ≠ .ok () := by
        intro hagent
        by_contra hboth
        obtain ⟨rfl, rfl⟩ : call = .finish ∧ result = .ok () := by simpa using hboth
        exact hagent hmeets.1
      have hphase : Stands A (.returned agent call result :: events ++ s.log) agent f₁
          (if call.keeps result then .idle w else .gone) := by
        cases hkeeps : call.keeps result with
        | true => exact hmeets.kept hkeeps
        | false =>
            show f₁.standing ≠ .counted
            by_cases hagent : agent = 0
            · subst hagent
              have := hshares.coordinator
              rw [Function.update_self] at this
              rcases this with hs | hs | hs <;> simp [hs]
            · simp [hmeets.released hkeeps hagent]
      have hnotfork : ∀ root p, (if call.keeps result then Phase.idle w else .gone)
          ≠ .forking root p := by
        intro root p
        split <;> simp
      refine ⟨hshares, h.agents_put (.returned agent call result :: events) hphase,
        h.fresh_put hlive.ne_absent,
        fun hzero => unforked_put h.unforked hunforked hnotfork hzero, ?_⟩
      refine h.history.step rfl (List.cons_append ..).symm hlive.ne_gone
        (fun a ha => Function.update_of_ne ha _ _) ?_ hfailed ?_ ?_ ?_ ?_ ?_ ?_ ?_
      · rw [Function.update_self]
        exact hroots
      · intro e he hfailure
        rcases List.mem_cons.mp he with rfl | he
        · refine hshares.poisoned agent ?_
          rw [Function.update_self]
          exact hmeets.poisoned hfailure
        · rw [hevents e he] at hfailure
          exact hfailure.elim
      · intro root kind records message he
        rcases List.mem_cons.mp he with heq | he
        · cases heq
          refine ⟨rfl, rfl, ?_⟩
          rw [Function.update_self]
          exact hmeets.2 rfl
        · exact absurd he (hstarted (by simp))
      · intro a he
        rcases List.mem_cons.mp he with heq | he
        · cases heq
          refine ⟨rfl, hmeets.1, rfl, ?_⟩
          rw [Function.update_self]
          exact hmeets.2
        · exact absurd he (hstarted (by simp))
      · intro a root he
        rcases List.mem_cons.mp he with heq | he
        · cases heq
        · exact absurd he (hstarted (by simp))
      · intro hagent _
        cases hkeeps : call.keeps result with
        | true => exact .inl trivial
        | false =>
            rcases released_cases hkeeps hagent (hfinish hagent) with heq | hfailure
            · exact .inr (.inl (heq ▸ List.mem_cons_self))
            · exact .inr (.inr ⟨_, List.mem_cons_self, hfailure⟩)
      · intro a root kind records he
        rcases List.mem_cons.mp he with heq | he
        · cases heq
          refine ⟨rfl, ?_⟩
          rw [Function.update_self]
          exact hmeets.2
        · exact absurd he (hstarted (by simp))
      · refine Prompt.cons (prompt_started h.history.prompt hevents) fun a ha => ?_
        cases ha
        obtain ⟨later, earlier, hlog, hpoisoned⟩ := hbegan rfl
        refine ⟨later, earlier, hlog, fun e he hfailure => ?_⟩
        have := hpoisoned ⟨e, he, hfailure⟩
        rw [hmeets.2.2] at this
        cases this

/-- A fork goes on, or ends. -/
theorem Guarded.resumeFork (h : Guarded A s f C) (f₁ : Flags) {root count : Nat}
    {p : Prog Access Access.Answer (Except Fault Writer × Writer)}
    (hphase : s.agents agent = .absent ∨ ∃ p, s.agents agent = .forking root p)
    (hagent : agent ≠ 0) (hidle : ∃ w, s.agents 0 = .idle w) (hcount : s.count ≤ count)
    (hlt : agent < count) (hshares : Shares A shared' (Function.update f agent f₁) C')
    (hfailed : s.shared.failed = true → shared'.failed = true)
    (hroots : ∀ root, root ∈ (f agent).roots → root ∈ f₁.roots)
    (hsafe : Prog.Safe (flags A) p (fun r f' => ForkMeets A agent root r.1 f') f₁) :
    Guarded A ({ s with shared := shared', count := count }.resumeFork agent root p)
      (Function.update f agent f₁) C' := by
  have hacting : s.agents agent ≠ .gone := by
    rcases hphase with hphase | ⟨p, hphase⟩ <;> simp [hphase]
  have hdead : ¬ (s.agents agent).Live := by
    rcases hphase with hphase | ⟨p, hphase⟩ <;> simp [hphase, Phase.Live]
  have hroots' : ∀ root, root ∈ (f agent).roots →
      root ∈ (Function.update f agent f₁ agent).roots := by
    rw [Function.update_self]
    exact hroots
  have hfresh : ∀ phase a, count ≤ a → Function.update s.agents agent phase a = .absent := by
    intro phase a ha
    rw [Function.update_of_ne (by omega)]
    exact h.fresh a (by omega)
  have hunforked : ∀ phase, (∀ w, Function.update s.agents agent phase 0 ≠ .idle w) → False := by
    intro phase hzero
    obtain ⟨w, hw⟩ := hidle
    rw [Function.update_of_ne (Ne.symm hagent)] at hzero
    exact hzero w hw
  have hstep : ∀ {s' : State} {phase : Phase} (events : List Event),
      s'.agents = Function.update s.agents agent phase → s'.log = events ++ s.log →
      s'.shared = shared' → (∀ e ∈ events, e = .forked agent root ∧ root ∈ f₁.roots ∧ phase.Live) →
      Prompt s'.log → History s' (Function.update f agent f₁) := by
    intro s' phase events hagents hlog hshared hevents hprompt
    have hforked : ∀ {e : Event}, (∀ a root, e ≠ .forked a root) → e ∉ events :=
      fun hne he => hne _ _ (hevents _ he).1
    refine h.history.step hagents hlog hacting (fun a ha => Function.update_of_ne ha _ _) hroots'
      (hshared ▸ hfailed) ?_ ?_ ?_ ?_ (fun _ hlive => absurd hlive hdead) ?_ hprompt
    · intro e he hfailure
      rw [(hevents e he).1] at hfailure
      exact hfailure.elim
    · exact fun _ _ _ _ he => absurd he (hforked (by simp))
    · exact fun _ he => absurd he (hforked (by simp))
    · intro a root' he
      obtain ⟨heq, hroot, hlive⟩ := hevents _ he
      cases heq
      rw [Function.update_self]
      exact ⟨rfl, hagent, hroot, hlive⟩
    · exact fun _ _ _ _ he => absurd he (hforked (by simp))
  match p with
  | .access i k =>
      exact ⟨hshares, h.agents_put [] ⟨hagent, ⟨i, k, rfl⟩, hsafe⟩, hfresh _,
        fun hzero => (hunforked _ hzero).elim, hstep [] rfl rfl rfl (by simp) h.history.prompt⟩
  | .ret (.error fault, w) =>
      have hs : f₁.standing = .outside := hsafe
      exact ⟨hshares, h.agents_put [] (show f₁.standing ≠ .counted by simp [hs]), hfresh _,
        fun hzero => (hunforked _ hzero).elim, hstep [] rfl rfl rfl (by simp) h.history.prompt⟩
  | .ret (.ok worker, w) =>
      obtain ⟨hsits, hroot⟩ : Sits A agent worker f₁ ∧ root ∈ f₁.roots := hsafe
      refine ⟨hshares, h.agents_put [.forked agent root] hsits, hfresh _,
        fun hzero => (hunforked _ hzero).elim, hstep [.forked agent root] rfl rfl rfl ?_ ?_⟩
      · intro e he
        rw [List.mem_singleton.mp he]
        exact ⟨rfl, hroot, trivial⟩
      · exact h.history.prompt.cons fun a ha => by cases ha

end

/-! ## Every step -/

section
variable {A : Allocator} {s s' : State} {f : Nat → Flags} {C : Finset Nat}

/-- Flags never forget a root, and never go back outside or behind the checks. -/
theorem flags_advance {f₁ f₂ : Flags} {i : Access} {answer : i.Answer}
    (hallowed : (flags A).allowed f₁ i) (h : (flags A).answers f₁ i answer f₂) :
    (∀ root, root ∈ f₁.roots → root ∈ f₂.roots) ∧
      (f₁.standing ≠ .outside → f₂.standing ≠ .outside) ∧
      (f₁.standing = .clean → f₂.standing = .clean) := by
  cases i with
  | claimRoot root =>
      cases answer with
      | error fault =>
          obtain rfl : f₂ = f₁ := h
          exact ⟨fun _ hr => hr, id, id⟩
      | ok u =>
          obtain rfl : f₂ = _ := h
          exact ⟨fun _ hr => List.mem_cons_of_mem _ hr, id, id⟩
  | enter | leave =>
      obtain rfl : f₂ = _ := h
      exact ⟨fun _ hr => hr, by simp, fun hs => by rw [hallowed.2] at hs; cases hs⟩
  | storeFailed =>
      obtain rfl : f₂ = _ := h
      exact ⟨fun _ hr => hr, id, id⟩
  | loadActive =>
      obtain rfl : f₂ = _ := h
      split
      · exact ⟨fun _ hr => hr, by simp, fun hs => by rw [hallowed.2] at hs; cases hs⟩
      · exact ⟨fun _ hr => hr, id, id⟩
  | loadFailed =>
      obtain rfl : f₂ = _ := h.2
      split
      · exact ⟨fun _ hr => hr, by simp, fun _ => rfl⟩
      · exact ⟨fun _ hr => hr, id, id⟩
  | grant | free | write | flush | scratch | loadNext | closeFree | loadFreeCount | setLen
  | writeHeader =>
      obtain rfl : f₂ = f₁ := h
      exact ⟨fun _ hr => hr, id, id⟩

/-- The coordinator that has finished stays so. -/
theorem clean_update {agent : Nat} {f₁ : Flags}
    (h : (f agent).standing = .clean → f₁.standing = .clean) (hclean : (f 0).standing = .clean) :
    (Function.update f agent f₁ 0).standing = .clean := by
  by_cases hagent : 0 = agent
  · subst hagent
    rw [Function.update_self]
    exact h hclean
  · rwa [Function.update_of_ne hagent]

/-- A fork in progress has an idle coordinator. -/
theorem Guarded.idle (h : Guarded A s f C) {agent root : Nat}
    {p : Prog Access Access.Answer (Except Fault Writer × Writer)}
    (hphase : s.agents agent = .forking root p) : ∃ w, s.agents 0 = .idle w := by
  by_contra hnone
  exact h.unforked (fun w hw => hnone ⟨w, hw⟩) agent root p hphase

/-- While the coordinator is in a call, no fork is in progress. -/
theorem Guarded.unforked_calling (h : Guarded A s f C) {agent : Nat} {call : Call}
    {loaded : Option Nat} {p : Prog Access Access.Answer (Except Fault Unit × Writer)}
    (hphase : s.agents agent = .calling call loaded p) (hagent : agent = 0) : s.Unforked := by
  subst hagent
  exact h.unforked fun w hw => by rw [hphase] at hw; cases hw

/-- One step keeps the invariant, and a coordinator behind the checks stays there. -/
theorem Guarded.step (h : Guarded A s f C) (hstep : Step s s') :
    ∃ f' C', Guarded A s' f' C' ∧ ((f 0).standing = .clean → (f' 0).standing = .clean) := by
  cases hstep with
  | @fork w root hzero =>
      have habsent := h.fresh s.count (Nat.le_refl _)
      have hagent := h.agents s.count
      rw [habsent] at hagent
      have hsits : Sits A 0 w (f 0) := by
        have := h.agents 0
        rwa [hzero] at this
      refine ⟨_, C, h.resumeFork (f s.count) (.inl habsent) hagent.1 ⟨w, hzero⟩ (Nat.le_succ _)
        (Nat.lt_succ_self _) ?_ id (fun _ hr => hr) ?_, clean_update id⟩
      · rw [Function.update_eq_self]
        exact h.shares
      · refine fork_meets hagent.1 hsits.allocator (by simp [hsits.worker]) ?_ root
        rw [hagent.2]
  | @start agent w call hphase hunforked =>
      have hsits : Sits A agent w (f agent) := by
        have := h.agents agent
        rwa [hphase] at this
      have hsits' : Sits A agent w { f agent with poisoned := s.shared.failed } :=
        ⟨hsits.allocator, hsits.assigned, hsits.unassigned, hsits.worker, hsits.completed,
          hsits.standing⟩
      refine ⟨_, C, h.resume { f agent with poisoned := s.shared.failed }
        [.started agent call] (by rw [hphase]; trivial) hunforked (by simp)
        (h.shares.learn rfl id (h.shares.roots agent)) id (fun _ hr => hr)
        (call_meets hsits' call) ?_ ?_, clean_update id⟩
      · simp only [hsits.standing]
        split <;> simp
      · rintro rfl
        exact ⟨[], s.log, rfl, fun ⟨e, he, hfailure⟩ => h.history.failures e he hfailure⟩
  | @forkAccess agent root i k answer shared hphase hperforms =>
      have hidle := h.idle hphase
      have hagent := h.agents agent
      rw [hphase] at hagent
      obtain ⟨hne, _, hallowed, hsafe⟩ := hagent
      have hzero : (f 0).standing = .coordinator := by
        obtain ⟨w, hw⟩ := hidle
        have := h.agents 0
        rw [hw] at this
        exact this.standing
      obtain ⟨f₁, C', hanswers, hshares, hfailed⟩ :=
        h.shares.performs hallowed hperforms fun _ => hzero
      have hlt : agent < s.count := by
        by_contra hge
        rw [h.fresh agent (by omega)] at hphase
        cases hphase
      obtain ⟨hroots, _, hclean⟩ := flags_advance hallowed hanswers
      exact ⟨_, C', h.resumeFork f₁ (.inr ⟨_, hphase⟩) hne hidle (Nat.le_refl _) hlt hshares hfailed
        hroots (hsafe answer f₁ hanswers), clean_update hclean⟩
  | @access agent call loaded i k answer shared hphase hperforms =>
      have hagent := h.agents agent
      rw [hphase] at hagent
      obtain ⟨_, hinside, f₀, ⟨hallowed, hsafe⟩, hbegan⟩ := hagent
      obtain ⟨f₁, C', hanswers, hshares, hfailed⟩ :=
        h.shares.performs hallowed hperforms fun hs => absurd hs hinside
      obtain ⟨hroots, hstays, hclean⟩ := flags_advance hallowed hanswers
      exact ⟨_, C', h.resume f₁ [] (by rw [hphase]; trivial) (h.unforked_calling hphase)
        (by simp) hshares hfailed hroots (hsafe answer f₁ hanswers) (hstays hinside) hbegan,
        clean_update hclean⟩
  | @load agent call loaded allocator pages k hphase =>
      have hagent := h.agents agent
      rw [hphase] at hagent
      obtain ⟨_, hinside, f₀, hsafe, hbegan⟩ := hagent
      refine ⟨_, C, h.hold (f agent) [] (by rw [hphase]; trivial)
        (h.unforked_calling hphase) (by simp) ?_ id (fun _ hr => hr) hsafe hinside hbegan,
        clean_update id⟩
      rw [Function.update_eq_self]
      exact h.shares
  | @overflow agent call start allocator pages fault k hphase hover =>
      have hagent := h.agents agent
      rw [hphase] at hagent
      obtain ⟨_, hinside, f₀, ⟨_, hsafe⟩, hbegan⟩ := hagent
      refine ⟨_, C, h.resume (f agent) [] (by rw [hphase]; trivial)
        (h.unforked_calling hphase) (by simp) ?_ id (fun _ hr => hr) (hsafe _ _ rfl) hinside hbegan,
        clean_update id⟩
      rw [Function.update_eq_self]
      exact h.shares
  | @exchange agent call start stop allocator pages k hphase hgrant hnext =>
      have hagent := h.agents agent
      rw [hphase] at hagent
      obtain ⟨_, hinside, f₀, ⟨_, hsafe⟩, hbegan⟩ := hagent
      refine ⟨_, C, h.resume (f agent) [] (by rw [hphase]; trivial)
        (h.unforked_calling hphase) (by simp) ?_ id (fun _ hr => hr) (hsafe _ _ rfl) hinside hbegan,
        clean_update id⟩
      rw [Function.update_eq_self]
      exact h.shares.congr rfl rfl rfl rfl

/-- The flags hold of the coordinator alone. -/
theorem guarded_initial {header : Bytes} {blockPages : Nat} {w : Writer}
    (hw : w.Coordinates header blockPages) :
    Guarded (w.freshAllocator blockPages) (initial w)
      (fun a => ⟨if a = 0 then .coordinator else .outside, false, []⟩) ∅ where
  shares :=
    { active := rfl
      counted := fun a => by by_cases ha : a = 0 <;> simp [ha]
      worker := fun a ha => by simp [ha]
      coordinator := by simp
      poisoned := by simp
      alone := fun _ => rfl
      clean := by simp
      header := by simp [initial]
      roots := by simp
      nodup := by simp [initial] }
  agents a := by
    by_cases ha : a = 0
    · subst ha
      exact ⟨hw.allocator, by simp [hw.assignedRoot], fun _ => rfl, by simp [hw.worker],
        hw.completed, rfl⟩
    · simp only [initial, Function.update_of_ne ha, if_neg ha]
      exact ⟨ha, rfl⟩
  fresh a ha := by
    have hne : a ≠ 0 := Nat.one_le_iff_ne_zero.mp ha
    simp only [initial, Function.update_of_ne hne]
  unforked hidle := absurd rfl (hidle w)
  history :=
    { failures := by simp [initial]
      panics := by simp [initial]
      finished := by simp [initial]
      forked := by simp [initial]
      planted := by simp [initial]
      prompt := fun later earlier agent h => by simp [initial] at h }

/-- The invariant holds in every state a session reaches. -/
theorem guarded_steps (hs : Steps s s') (h : Guarded A s f C) : ∃ f' C', Guarded A s' f' C' := by
  induction hs with
  | refl => exact ⟨f, C, h⟩
  | tail _ hstep ih =>
      obtain ⟨f', C', h'⟩ := ih
      obtain ⟨f'', C'', h'', _⟩ := h'.step hstep
      exact ⟨f'', C'', h''⟩

/-- A worker with a writer is counted. -/
theorem Guarded.counted_of_live (h : Guarded A s f C) {a : Nat} (ha : a ≠ 0)
    (hlive : (s.agents a).Live) : a ∈ C := by
  rw [h.shares.counted]
  have hagent := h.agents a
  cases hphase : s.agents a with
  | idle w =>
      rw [hphase] at hagent
      exact hagent.standing.trans (if_neg ha)
  | calling call loaded p =>
      rw [hphase] at hagent
      obtain ⟨⟨i, k, rfl⟩, hinside, f₀, ⟨hallowed, _⟩, _⟩ := hagent
      rcases h.shares.worker a ha with hs | hs | hs
      · exact absurd hs hinside
      · exact hs
      · exact absurd hs hallowed.1
  | absent | forking | gone => rw [hphase] at hlive; exact hlive.elim

/-- Only workers are counted, and those in the making. -/
theorem Guarded.live_of_counted (h : Guarded A s f C) {a : Nat} (ha : a ∈ C) :
    a ≠ 0 ∧ ((s.agents a).Live ∨ ∃ root p, s.agents a = .forking root p) := by
  rw [h.shares.counted] at ha
  have hagent := h.agents a
  refine ⟨?_, ?_⟩
  · rintro rfl
    have := h.shares.coordinator
    rw [ha] at this
    simp at this
  · cases hphase : s.agents a with
    | idle w => exact .inl trivial
    | calling call loaded p => exact .inl trivial
    | forking root p => exact .inr ⟨root, p, rfl⟩
    | absent =>
        rw [hphase] at hagent
        rw [hagent.2] at ha
        cases ha
    | gone =>
        rw [hphase] at hagent
        exact absurd ha hagent

/-- What has happened when the header is written. -/
structure Published (s : State) : Prop where
  harmless : ∀ e ∈ s.log, ¬ e.Failure
  coordinator : ∀ root kind records fault,
    .returned 0 (.tree root kind records) (.error fault) ∉ s.log
  completed : ∀ agent root, .forked agent root ∈ s.log →
    .returned agent .complete (.ok ()) ∈ s.log
  settled : ∀ agent, agent ≠ 0 → s.agents agent = .absent ∨ s.agents agent = .gone

/-- Where the coordinator has finished, nothing had failed. -/
theorem Guarded.published (h : Guarded A s f C) (hclean : (f 0).standing = .clean) :
    Published s := by
  have hempty : C = ∅ := h.shares.alone (by rw [hclean]; simp)
  have hharmless : ∀ e ∈ s.log, ¬ e.Failure := by
    intro e he hfailure
    have := h.history.failures e he hfailure
    rw [h.shares.clean hclean] at this
    cases this
  have hunforked : s.Unforked := by
    refine h.unforked fun w hw => ?_
    have hagent := h.agents 0
    rw [hw] at hagent
    have := hagent.standing
    rw [hclean] at this
    cases this
  have hdead : ∀ a, a ≠ 0 → ¬ (s.agents a).Live := by
    intro a ha hlive
    have := h.counted_of_live ha hlive
    rw [hempty] at this
    simp at this
  refine ⟨hharmless, ?_, ?_, ?_⟩
  · rintro root kind records (message | message) he
    · exact hharmless _ he trivial
    · have hs := (h.history.panics root kind records message he).2
      rw [hclean] at hs
      cases hs
  · intro a root he
    obtain ⟨hzero, _, hstate⟩ := h.history.forked a root he
    rcases hstate with hlive | hdone | ⟨e, hmem, hfailure⟩
    · exact absurd hlive (hdead a hzero)
    · exact hdone
    · exact absurd hfailure (hharmless e hmem)
  · intro a ha
    cases hphase : s.agents a with
    | absent => exact .inl rfl
    | gone => exact .inr rfl
    | forking root p => exact absurd hphase (hunforked a root p)
    | idle | calling =>
        refine absurd ?_ (hdead a ha)
        rw [hphase]
        trivial

end

/-- In every reachable state of a session: when the header is written or `finish` has succeeded,
no tree has failed, every worker that was forked has completed and none was dropped; no worker
that began to complete behind a failure has completed; `active` counts the workers that still have
a writer, so it does not underflow; and no two agents have claimed, or written a tree at, one
root. -/
theorem failure_never_published {header : Bytes} {length blockBytes : Nat} {w : Writer} {s : State}
    (hw : Opens header length blockBytes w) (hs : Steps (initial w) s) :
    ((s.shared.header ≠ none ∨ ∃ agent, .returned agent .finish (.ok ()) ∈ s.log) →
      Published s) ∧
    Prompt s.log ∧
    (∃ C : Finset Nat, s.shared.active = C.card ∧
      (∀ agent, agent ≠ 0 → (s.agents agent).Live → agent ∈ C) ∧
      ∀ agent ∈ C, agent ≠ 0 ∧
        ((s.agents agent).Live ∨ ∃ root p, s.agents agent = .forking root p)) ∧
    (s.shared.claims.map Prod.snd).Nodup ∧
    ∀ a b root ka kb ra rb, .returned a (.tree root ka ra) (.ok ()) ∈ s.log →
      .returned b (.tree root kb rb) (.ok ()) ∈ s.log → a = b := by
  obtain ⟨blockPages, hcoordinates⟩ := hw.coordinates
  obtain ⟨f, C, h⟩ := guarded_steps hs (guarded_initial hcoordinates)
  refine ⟨?_, h.history.prompt, ⟨C, h.shares.active, fun _ => h.counted_of_live,
    fun _ => h.live_of_counted⟩, h.shares.nodup, ?_⟩
  · rintro (hheader | ⟨agent, hfinished⟩)
    · exact h.published (h.shares.header hheader)
    · exact h.published (h.history.finished agent hfinished).2.2
  · intro a b root ka kb ra rb ha hb
    have hclaimed := h.shares.roots a root (h.history.planted _ _ _ _ ha)
    have hclaimed' := h.shares.roots b root (h.history.planted _ _ _ _ hb)
    have := List.inj_on_of_nodup_map h.shares.nodup hclaimed hclaimed' rfl
    exact congrArg Prod.fst this

end Velr.Session
