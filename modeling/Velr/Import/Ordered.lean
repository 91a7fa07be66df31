import Velr.Import.Pipeline
import Velr.Import.Rows

/-!
# The pipeline delivers what sequential parsing does

While the consumer is there and no error has been forwarded, what it was sent and what is still to
come are together what all sources do in declaration order (`Delivers`). No worker may panic, unless
behind an error (`Calm`): the queue of one that has looks to `produce` like that of one at its end,
and `produce` would go on to the next source.
-/

namespace Velr.Import

open Concurrency
open IdMap (Failure)

variable {ε β : Type} {workers : Nat}

/-! ## Cutting at the first error -/

/-- No panic comes before the first error. -/
def Calm : List (Except (Failure ε) β) → Prop
  | [] => True
  | .ok _ :: effects => Calm effects
  | .error (.error _) :: _ => True
  | .error .panic :: _ => False

/-- Messages without an error are not cut. -/
theorem cut_append {messages : List (Except ε β)} (h : ∀ e, .error e ∉ messages)
    (rest : List (Except (Failure ε) β)) :
    cut (messages.map sends ++ rest) = messages ++ cut rest := by
  induction messages with
  | nil => rfl
  | cons m messages ih =>
      cases m with
      | error e => exact absurd (List.mem_cons_self ..) (h e)
      | ok b =>
          rw [List.map_cons, sends_ok, List.cons_append, cut,
            ih fun e he => h e (List.mem_cons_of_mem _ he), List.cons_append]

theorem cut_of_ok {messages : List (Except ε β)} (h : ∀ e, .error e ∉ messages) :
    cut (messages.map sends) = messages := by
  have := cut_append h []
  rwa [List.append_nil, cut, List.append_nil] at this

theorem calm_append {messages : List (Except ε β)} (h : ∀ e, .error e ∉ messages)
    (rest : List (Except (Failure ε) β)) : Calm (messages.map sends ++ rest) ↔ Calm rest := by
  induction messages with
  | nil => rfl
  | cons m messages ih =>
      cases m with
      | error e => exact absurd (List.mem_cons_self ..) (h e)
      | ok b =>
          rw [List.map_cons, sends_ok, List.cons_append, Calm,
            ih fun e he => h e (List.mem_cons_of_mem _ he)]

/-- A cut without an error has cut nothing off. -/
theorem ok_of_cut {effects : List (Except (Failure ε) β)} (hcalm : Calm effects)
    (h : ∀ e, .error e ∉ cut effects) : ∀ f, .error f ∉ effects := by
  induction effects with
  | nil => simp
  | cons next effects ih =>
      rcases next with (e | _) | b
      · exact absurd (List.mem_singleton.mpr rfl) (h e)
      · exact hcalm.elim
      · intro f hf
        rcases List.mem_cons.mp hf with hf | hf
        · cases hf
        · exact ih hcalm (fun e he => h e (List.mem_cons_of_mem _ he)) f hf

/-- An error is the last message that a cut keeps. -/
theorem eq_cut {effects : List (Except (Failure ε) β)} {log : List (Except ε β)} {e : ε}
    (h : log <+: cut effects) (he : .error e ∈ log) : log = cut effects := by
  induction effects generalizing log with
  | nil =>
      rw [List.prefix_nil.mp h] at he
      cases he
  | cons next effects ih =>
      cases log with
      | nil => cases he
      | cons l log =>
          rcases next with (e' | _) | b
          · obtain ⟨rfl, hrest⟩ := List.cons_prefix_cons.mp h
            rw [List.prefix_nil.mp hrest]
            rfl
          · cases List.prefix_nil.mp h
          · obtain ⟨rfl, hrest⟩ := List.cons_prefix_cons.mp h
            rcases List.mem_cons.mp he with he | he
            · cases he
            · rw [cut, ih hrest he]

/-- The batches of a partition are the messages that are delivered. -/
theorem Partition.messages {F T : Type} {c : Conversions F T} {opts : HeaderOptions}
    {effects : List Effect} {rows : List DataRow} (h : Partition c opts effects rows) :
    Partition c opts (cut effects) rows := by
  obtain ⟨batches, groups, rfl, hgroups, hrows⟩ := h
  refine ⟨batches, groups, ?_, hgroups, hrows⟩
  have hok : ∀ e, .error e ∉ (batches.map .ok : List Message) := by simp
  have hcut := cut_of_ok hok
  rwa [List.map_map] at hcut

/-! ## What is still to come -/

/-- What a worker and its queue have for `produce`. -/
def Worker.pending (w : Worker ε β) : List (Except (Failure ε) β) :=
  w.queue.queue.map sends ++ w.todo

/-- `produce` has forwarded an error, has found the consumer gone, or has nothing left to do. -/
def Producer.stopped : Producer ε β → Bool
  | .dropping connected _ | .joining connected => !connected
  | .returned => true
  | _ => false

/-- What `produce` has still to forward, should no error come, with what the workers do and the
sources that no chunk has taken. -/
def Producer.pending (queues : List (List (Except (Failure ε) β)))
    (rest : List (Except (Failure ε) β)) : Producer ε β → List (Except (Failure ε) β)
  | .spawning chunk => queues.flatten ++ chunk.flatten ++ rest
  | .draining index => (queues.drop index).flatten ++ rest
  | .forwarding index message => sends message :: ((queues.drop index).flatten ++ rest)
  | _ => rest

def State.pending (s : State ε β) : List (Except (Failure ε) β) :=
  s.producer.pending (s.workers.map Worker.pending) s.sources.flatten

/-- The receivers of the workers' queues are alive. -/
def Producer.Listening : Producer ε β → Prop
  | .spawning _ | .draining _ | .forwarding _ _ => True
  | _ => False

/-- Only a chunk that is being drained has messages in its queues. -/
theorem Producer.pending_of_not_listening {p : Producer ε β} (h : ¬p.Listening)
    (queues : List (List (Except (Failure ε) β))) (rest : List (Except (Failure ε) β)) :
    p.pending queues rest = rest := by
  cases p with
  | spawning | draining | forwarding => exact absurd trivial h
  | _ => rfl

/-- The receiver of the worker at an index has been dropped. -/
def Producer.Deaf : Producer ε β → Nat → Prop
  | .dropping _ dropped, index => index < dropped
  | .joining _, _ => True
  | _, _ => False

/-- `produce` has received everything of the worker at an index. -/
def Producer.Drained : Producer ε β → Nat → Prop
  | .draining drained, index | .forwarding drained _, index => index < drained
  | .dropping _ _, _ | .joining _, _ => True
  | _, _ => False

/-- All workers of the last chunk have been joined. -/
def Producer.Joined : Producer ε β → Prop
  | .taking | .returned => True
  | _ => False

/-- What holds of a worker at any time. -/
structure Worker.Sound (w : Worker ε β) : Prop where
  capacity : w.queue.capacity = 1
  ended : w.ended = true → w.todo = [] ∨ ∃ todo, w.todo = .error .panic :: todo

/-- What holds of the pipeline's parts at any time. -/
structure State.Sound (s : State ε β) : Prop where
  capacity : s.output.capacity = 2
  sender : s.output.sender = false → s.producer = .returned
  workers : ∀ w ∈ s.workers, w.Sound
  listening : s.producer.Listening → ∀ w ∈ s.workers, w.queue.receiver = true
  deaf : ∀ (index : Nat) (w : Worker ε β), s.workers[index]? = some w → s.producer.Deaf index →
    w.queue.receiver = false
  joined : s.producer.Joined → ∀ w ∈ s.workers, w.ended = true

/-- No error was sent: what was, and what is still to come, is everything. -/
structure Going (all : List (Except (Failure ε) β)) (sent : List (Except ε β)) (s : State ε β) :
    Prop where
  all : sent.map sends ++ s.pending = all
  ok : ∀ e, .error e ∉ sent
  drained : ∀ (index : Nat) (w : Worker ε β), s.workers[index]? = some w →
    s.producer.Drained index → w.todo = []

/-- What was sent to the consumer against everything that the sources do. -/
def Delivers (all : List (Except (Failure ε) β)) (sent : List (Except ε β))
    (s : State ε β) : Prop :=
  if s.producer.stopped then sent = cut all else Going all sent s

/-- A producer that has stopped has delivered all there was up to the cut. -/
theorem Delivers.stopped {all : List (Except (Failure ε) β)} {sent : List (Except ε β)}
    {s : State ε β} (hp : s.producer.stopped = true) (h : sent = cut all) :
    Delivers all sent s := by
  unfold Delivers
  rwa [if_pos hp]

/-- One that has not has delivered a front of it. -/
theorem Delivers.going {all : List (Except (Failure ε) β)} {sent : List (Except ε β)}
    {s : State ε β} (hp : s.producer.stopped = false) (h : Going all sent s) :
    Delivers all sent s := by
  unfold Delivers
  rwa [if_neg (by simp [hp])]

/-- Where the producer has stopped, what was sent is all there was up to the cut. -/
theorem Delivers.eq_cut {all : List (Except (Failure ε) β)} {sent : List (Except ε β)}
    {s : State ε β} (h : Delivers all sent s) (hp : s.producer.stopped = true) :
    sent = Import.cut all := by
  unfold Delivers at h
  rwa [if_pos hp] at h

/-- Where it has not, it goes on. -/
theorem Delivers.goes {all : List (Except (Failure ε) β)} {sent : List (Except ε β)}
    {s : State ε β} (h : Delivers all sent s) (hp : s.producer.stopped = false) :
    Going all sent s := by
  unfold Delivers at h
  rwa [if_neg (by simp [hp])] at h

/-- What the consumer does with its queue changes nothing of it. -/
theorem Delivers.output {all : List (Except (Failure ε) β)} {sent : List (Except ε β)}
    {s : State ε β} (h : Delivers all sent s) (output : Channel (Except ε β)) :
    Delivers all sent { s with output } := by
  unfold Delivers at h ⊢
  split at h
  · next hp => rwa [if_pos hp]
  · next hp =>
      rw [if_neg hp]
      exact ⟨h.all, h.ok, h.drained⟩

/-- What was sent to the consumer is the beginning of what sequential parsing delivers. -/
theorem Delivers.cut {all : List (Except (Failure ε) β)} {sent : List (Except ε β)} {s : State ε β}
    (h : Delivers all sent s) : sent <+: cut all := by
  unfold Delivers at h
  split at h
  · exact h ▸ List.prefix_rfl
  · rw [← h.all, cut_append h.ok]
    exact List.prefix_append _ _

/-! ## Steps of the workers -/

/-- A step of a worker keeps it sound, and what is pending while its receiver is there. -/
theorem Worker.Sound.advance {w w' : Worker ε β} (h : w.Sound) (hw : w.advance = some w') :
    w'.Sound ∧ w'.queue.receiver = w.queue.receiver ∧
      (w.queue.receiver = true → w'.pending = w.pending) ∧ w.ended = false ∧
      (w.todo = [] → w'.todo = []) := by
  have halive {m : Except ε β} {todo} (htodo : w.todo = sends m :: todo) : w.ended = false := by
    by_contra hended
    rcases h.ended (by simpa using hended) with hnil | ⟨todo', hpanic⟩
    · rw [hnil] at htodo
      cases htodo
    · rw [hpanic] at htodo
      exact sends_ne_panic m (List.cons.inj htodo).1.symm
  have hrunning {m : Except ε β} {todo} (htodo : w.todo = sends m :: todo) :
      w.queue.sender = true := by simpa [Worker.ended] using halive htodo
  obtain ⟨htodo, hs, rfl⟩ | ⟨m, todo, htodo, hr, rfl⟩ | ⟨m, todo, htodo, hr, hroom, rfl⟩ :=
    Worker.advance_cases hw
  · exact ⟨⟨h.capacity, fun _ => htodo⟩, rfl, fun _ => rfl, by simp [Worker.ended, hs], id⟩
  · exact ⟨⟨h.capacity, fun _ => .inl rfl⟩, rfl, fun hr' => absurd hr' (by simp [hr]), halive htodo,
      fun _ => rfl⟩
  · refine ⟨⟨h.capacity, fun hended => ?_⟩, rfl, fun _ => ?_, halive htodo, fun hnil => ?_⟩
    · simp [Worker.ended, hrunning htodo] at hended
    · simp [Worker.pending, htodo]
    · rw [htodo] at hnil
      cases hnil

/-- A worker in the list after a change of one. -/
theorem mem_modify {s : State ε β} {index : Nat} {w w' : Worker ε β}
    (h : w ∈ (s.modify index w').workers) : w = w' ∨ w ∈ s.workers :=
  (List.mem_or_eq_of_mem_set h).symm

/-- Modifying a worker leaves the others. -/
theorem getElem?_modify {s : State ε β} {index i : Nat} {w v v' : Worker ε β}
    (hv : s.workers[index]? = some v) (h : (s.modify index v').workers[i]? = some w) :
    (i = index ∧ w = v') ∨ s.workers[i]? = some w := by
  rw [State.modify, List.getElem?_set] at h
  split at h
  · next heq =>
      subst heq
      rw [if_pos (List.getElem?_eq_some_iff.mp hv).1] at h
      exact .inl ⟨rfl, (Option.some.inj h).symm⟩
  · exact .inr h

/-- The queues behind a change of one worker that leaves its messages as they are. -/
theorem map_pending_modify {s : State ε β} {index : Nat} {w w' : Worker ε β}
    (hw : s.workers[index]? = some w) (h : w'.pending = w.pending) :
    (s.modify index w').workers.map Worker.pending = s.workers.map Worker.pending := by
  rw [State.modify, List.map_set, h]
  apply List.ext_getElem? fun i => ?_
  rw [List.getElem?_set]
  split
  · next heq =>
      subst heq
      obtain ⟨hlt, rfl⟩ := List.getElem?_eq_some_iff.mp hw
      simp [hlt]
  · rfl

/-- A step of a worker keeps the state sound. -/
theorem State.Sound.worker {s : State ε β} {index : Nat} {w w' : Worker ε β} (h : s.Sound)
    (hw : s.workers[index]? = some w) (hadvance : w.advance = some w') :
    (s.modify index w').Sound := by
  have hmem : w ∈ s.workers := List.mem_of_getElem? hw
  obtain ⟨hsound, hreceiver, -, halive, -⟩ := (h.workers w hmem).advance hadvance
  constructor
  case capacity => exact h.capacity
  case sender => exact h.sender
  case workers =>
    intro v hv
    rcases mem_modify hv with rfl | hv
    · exact hsound
    · exact h.workers v hv
  case listening =>
    intro hl v hv
    rcases mem_modify hv with rfl | hv
    · exact hreceiver.trans (h.listening hl w hmem)
    · exact h.listening hl v hv
  case deaf =>
    intro i v hv hd
    obtain ⟨rfl, rfl⟩ | hv := getElem?_modify hw hv
    · exact hreceiver.trans (h.deaf i w hw hd)
    · exact h.deaf i v hv hd
  case joined =>
    intro hj
    have hended := h.joined hj w hmem
    rw [halive] at hended
    cases hended

/-- A worker's step moves its messages, and loses none while its receiver is alive. -/
theorem Delivers.worker {all : List (Except (Failure ε) β)} {sent : List (Except ε β)}
    {s : State ε β} {index : Nat} {w w' : Worker ε β} (hsound : s.Sound) (h : Delivers all sent s)
    (hw : s.workers[index]? = some w) (hadvance : w.advance = some w') :
    Delivers all sent (s.modify index w') := by
  have hmem : w ∈ s.workers := List.mem_of_getElem? hw
  obtain ⟨-, -, hpending, -, hnil⟩ := (hsound.workers w hmem).advance hadvance
  have hsame : (s.modify index w').pending = s.pending := by
    by_cases hl : s.producer.Listening
    · have hmap := map_pending_modify hw (hpending (hsound.listening hl w hmem))
      rw [State.pending, hmap]
      rfl
    · exact (Producer.pending_of_not_listening hl _ _).trans
        (Producer.pending_of_not_listening hl _ _).symm
  cases hp : s.producer.stopped with
  | true =>
      unfold Delivers at h
      rw [if_pos hp] at h
      exact .stopped hp h
  | false =>
      unfold Delivers at h
      rw [if_neg (by simp [hp])] at h
      refine .going hp ⟨hsame ▸ h.all, h.ok, fun i v hv hd => ?_⟩
      obtain ⟨rfl, rfl⟩ | hv := getElem?_modify hw hv
      · exact hnil (h.drained i w hw hd)
      · exact h.drained i v hv hd

/-! ## Steps of `produce` -/

/-- So does a step of the producer. -/
theorem State.Sound.produce {s s' : State ε β} (h : s.Sound) (hs : ProduceStep workers s s') :
    s'.Sound := by
  have hopen (hf : s.output.sender = false) : s'.producer = .returned := by
    have hp := h.sender hf
    cases hs <;> simp_all
  cases hs with
  | done hp hchunk =>
      exact ⟨h.capacity, fun _ => rfl, h.workers, fun hl => hl.elim, fun _ _ _ hd => hd.elim,
        fun _ => h.joined (by rw [hp]; trivial)⟩
  | take hp hchunk =>
      exact ⟨h.capacity, hopen,
        fun _ hw => absurd hw List.not_mem_nil, fun _ _ hw => absurd hw List.not_mem_nil,
        fun _ _ _ hd => hd.elim,
        fun hj => hj.elim⟩
  | spawned hp =>
      exact ⟨h.capacity, hopen,
        h.workers, fun _ => h.listening (by rw [hp]; trivial), fun _ _ _ hd => hd.elim,
        fun hj => hj.elim⟩
  | spawn hp =>
      refine ⟨h.capacity, hopen,
        fun w hw => ?_, fun _ w hw => ?_, fun _ _ _ hd => hd.elim, fun hj => hj.elim⟩
      · rcases List.mem_append.mp hw with hw | hw
        · exact h.workers w hw
        · rw [List.mem_singleton.mp hw]
          exact ⟨rfl, fun hended => by simp [Worker.ended, Channel.new] at hended⟩
      · rcases List.mem_append.mp hw with hw | hw
        · exact h.listening (by rw [hp]; trivial) w hw
        · rw [List.mem_singleton.mp hw]
          rfl
  | drained hp hw =>
      exact ⟨h.capacity, hopen,
        h.workers, fun hl => hl.elim, fun _ _ _ hd => absurd hd (Nat.not_lt_zero _),
        fun hj => hj.elim⟩
  | @recv index w message queue hp hw hq =>
      have hmem : w ∈ s.workers := List.mem_of_getElem? hw
      refine ⟨h.capacity, hopen,
        fun v hv => ?_, fun _ v hv => ?_, fun _ _ _ hd => hd.elim, fun hj => hj.elim⟩
      · rcases mem_modify hv with rfl | hv
        · exact ⟨(h.workers w hmem).capacity, (h.workers w hmem).ended⟩
        · exact h.workers v hv
      · have hl := h.listening (by rw [hp]; trivial)
        rcases mem_modify hv with rfl | hv
        · exact hl w hmem
        · exact hl v hv
  | @next index w hp hw hq hs =>
      have hmem : w ∈ s.workers := List.mem_of_getElem? hw
      refine ⟨h.capacity, hopen,
        fun v hv => ?_, fun _ v hv => ?_, fun _ _ _ hd => hd.elim, fun hj => hj.elim⟩
      · rcases mem_modify hv with rfl | hv
        · exact h.workers v hmem
        · exact h.workers v hv
      · have hl := h.listening (by rw [hp]; trivial)
        rcases mem_modify hv with rfl | hv
        · exact hl v hmem
        · exact hl v hv
  | refused hp hr =>
      exact ⟨h.capacity, hopen,
        h.workers, fun hl => hl.elim, fun _ _ _ hd => absurd hd (Nat.not_lt_zero _),
        fun hj => hj.elim⟩
  | @forward index message hp hr hroom =>
      refine ⟨h.capacity, hopen,
        h.workers, fun _ => h.listening (by rw [hp]; trivial), fun i w hw hd => ?_, fun hj => ?_⟩
      · cases message with
        | error e => exact absurd hd (Nat.not_lt_zero _)
        | ok b => exact hd.elim
      · cases message <;> exact hj.elim
  | @drop connected index w hp hw =>
      have hmem : w ∈ s.workers := List.mem_of_getElem? hw
      refine ⟨h.capacity, hopen,
        fun v hv => ?_, fun hl => hl.elim, fun i v hv hd => ?_, fun hj => hj.elim⟩
      · rcases mem_modify hv with rfl | hv
        · exact ⟨(h.workers w hmem).capacity, (h.workers w hmem).ended⟩
        · exact h.workers v hv
      · obtain ⟨-, rfl⟩ | hv' := getElem?_modify hw hv
        · rfl
        · rcases Nat.lt_succ_iff_lt_or_eq.mp hd with hlt | rfl
          · exact h.deaf i v hv' (by rw [hp]; exact hlt)
          · rw [State.modify, List.getElem?_set_self (List.getElem?_eq_some_iff.mp hw).1] at hv
            cases hv
            rfl
  | @dropped connected index hp hw =>
      refine ⟨h.capacity, hopen,
        h.workers, fun hl => hl.elim, fun i v hv _ => h.deaf i v hv ?_, fun hj => hj.elim⟩
      have hi := (List.getElem?_eq_some_iff.mp hv).1
      rw [List.getElem?_eq_none_iff] at hw
      rw [hp]
      exact Nat.lt_of_lt_of_le hi hw
  | again hp hended hpanicked =>
      exact ⟨h.capacity, hopen,
        h.workers, fun hl => hl.elim, fun _ _ _ hd => hd.elim, fun _ => List.all_eq_true.mp hended⟩
  | unwind hp hended | stop hp hended =>
      exact ⟨h.capacity, fun _ => rfl, h.workers, fun hl => hl.elim, fun _ _ _ hd => hd.elim,
        fun _ => List.all_eq_true.mp hended⟩

/-- A worker that has done everything has not panicked. -/
theorem Worker.panicked_of_nil {w : Worker ε β} (h : w.todo = []) : w.panicked = false := by
  simp [Worker.panicked, h]

section
variable {all : List (Except (Failure ε) β)} {sent : List (Except ε β)} {s s' : State ε β}
  {index : Nat} {w : Worker ε β} {message : Except ε β}

/-- What goes on does so behind a step that leaves all there is to come. -/
theorem Going.moved (h : Going all sent s) (hpending : s'.pending = s.pending)
    (hdrained : ∀ i v, s'.workers[i]? = some v → s'.producer.Drained i → v.todo = []) :
    Going all sent s' :=
  ⟨by rw [hpending, h.all], h.ok, hdrained⟩

/-- A worker whose queue has ended has done everything: its panic would come before the first
error. -/
theorem Going.todo_eq_nil (h : Going all sent s) (hcalm : Calm all) (hsound : s.Sound)
    (hp : s.producer = .draining index) (hw : s.workers[index]? = some w)
    (hq : w.queue.queue = []) (hs : w.queue.sender = false) : w.todo = [] := by
  have hall := h.all
  obtain ⟨hlt, rfl⟩ := List.getElem?_eq_some_iff.mp hw
  rw [State.pending, hp] at hall
  simp only [Producer.pending] at hall
  rw [List.drop_eq_getElem_cons (i := index) (by simpa using hlt)] at hall
  rcases (hsound.workers _ (List.getElem_mem hlt)).ended (by simp [Worker.ended, hs]) with
    hnil | ⟨todo, hpanic⟩
  · exact hnil
  · rw [← hall, calm_append h.ok] at hcalm
    simp [Worker.pending, hq, hpanic, Calm] at hcalm

/-- Receiving a message moves it from its queue into the producer. -/
theorem Going.recv {queue : List (Except ε β)} (h : Going all sent s)
    (hp : s.producer = .draining index) (hw : s.workers[index]? = some w)
    (hq : w.queue.queue = message :: queue) :
    Going all sent
      { s.modify index { w with queue := { w.queue with queue } } with
        producer := .forwarding index message } := by
  refine h.moved ?_ fun i v hv hd => ?_
  · obtain ⟨hlt, rfl⟩ := List.getElem?_eq_some_iff.mp hw
    rw [State.pending, State.pending, hp]
    simp only [Producer.pending, State.modify, List.map_set]
    rw [List.drop_eq_getElem_cons (by simpa using hlt), List.drop_eq_getElem_cons
      (i := index) (l := s.workers.map Worker.pending) (by simpa using hlt)]
    simp [Worker.pending, hq, List.drop_set]
  · have hd' : i < index := hd
    obtain ⟨rfl, -⟩ | hv := getElem?_modify hw hv
    · exact absurd hd' (Nat.lt_irrefl _)
    · exact h.drained i v hv (by rw [hp]; exact hd)

/-- The queue behind the one that has ended is the next. -/
theorem Going.next (h : Going all sent s) (hp : s.producer = .draining index)
    (hw : s.workers[index]? = some w) (hq : w.queue.queue = []) (htodo : w.todo = []) :
    Going all sent { s.modify index w with producer := .draining (index + 1) } := by
  have hmap := map_pending_modify hw (rfl : w.pending = w.pending)
  refine h.moved ?_ fun i v hv hd => ?_
  · obtain ⟨hlt, rfl⟩ := List.getElem?_eq_some_iff.mp hw
    rw [State.pending, State.pending, hmap, hp]
    simp only [Producer.pending]
    rw [List.drop_eq_getElem_cons (i := index) (by simpa using hlt)]
    simp [Worker.pending, hq, htodo, State.modify]
  · obtain ⟨rfl, rfl⟩ | hv' := getElem?_modify hw hv
    · exact htodo
    · rcases Nat.lt_succ_iff_lt_or_eq.mp hd with hlt' | rfl
      · exact h.drained i v hv' (by rw [hp]; exact hlt')
      · obtain rfl := Option.some.inj (hw.symm.trans hv')
        exact htodo

/-- Forwarding sends the next message; behind an error there is nothing left to send. -/
theorem Going.forward {log : List (Except ε β)} (h : Going all (log ++ s.output.queue) s)
    (hp : s.producer = .forwarding index message) :
    Delivers all (log ++ (s.output.queue ++ [message]))
      { s with
        output := { s.output with queue := s.output.queue ++ [message] }
        producer := if failed message then .dropping false 0 else .draining index } := by
  have hall := h.all
  rw [State.pending, hp] at hall
  simp only [Producer.pending] at hall
  cases message with
  | error e =>
      refine .stopped rfl ?_
      rw [← hall, cut_append h.ok, sends_error, Import.cut, List.append_assoc]
  | ok b =>
      refine .going rfl ⟨?_, fun e he => ?_, fun i v hv hd => h.drained i v hv ?_⟩
      · rw [← hall, State.pending]
        simp [Producer.pending, failed]
      · rw [← List.append_assoc] at he
        rcases List.mem_append.mp he with he | he
        · exact h.ok e he
        · simp at he
      · rw [hp]
        exact hd

end

/-- A step of `produce` sends the next message or nothing. -/
theorem Delivers.produce (hworkers : 0 < workers) {all : List (Except (Failure ε) β)}
    (hcalm : Calm all) {log : List (Except ε β)} {s s' : State ε β} (hsound : s.Sound)
    (hr : s.output.receiver = true) (h : Delivers all (log ++ s.output.queue) s)
    (hs : ProduceStep workers s s') : Delivers all (log ++ s'.output.queue) s' := by
  cases hs with
  | done hp hchunk =>
      have h := h.goes (by simp [hp, Producer.stopped])
      have hall := h.all
      have hsources : s.sources = [] := by
        rcases List.take_eq_nil_iff.mp hchunk with hzero | hnil
        · omega
        · exact hnil
      simp only [State.pending, hp, Producer.pending, hsources, List.flatten_nil,
        List.append_nil] at hall
      refine .stopped rfl ?_
      rw [← hall, cut_of_ok h.ok]
      rfl
  | take hp hchunk =>
      have h := h.goes (by simp [hp, Producer.stopped])
      refine .going rfl (h.moved ?_ fun _ _ _ hd => hd.elim)
      rw [State.pending, State.pending, hp]
      simp only [Producer.pending, List.map_nil, List.flatten_nil, List.nil_append]
      rw [← List.flatten_append, List.take_append_drop]
  | spawned hp =>
      have h := h.goes (by simp [hp, Producer.stopped])
      refine .going rfl (h.moved ?_ fun _ _ _ hd => absurd hd (Nat.not_lt_zero _))
      simp [State.pending, hp, Producer.pending]
  | spawn hp =>
      have h := h.goes (by simp [hp, Producer.stopped])
      refine .going rfl (h.moved ?_ fun _ _ _ hd => hd.elim)
      simp [State.pending, hp, Producer.pending, Worker.pending, Channel.new]
  | @drained index hp hw =>
      have h := h.goes (by simp [hp, Producer.stopped])
      have hlen := List.getElem?_eq_none_iff.mp hw
      refine .going rfl (h.moved ?_ fun i v hv _ => h.drained i v hv ?_)
      · rw [State.pending, State.pending, hp]
        simp only [Producer.pending]
        rw [List.drop_eq_nil_of_le (by simpa using hlen), List.flatten_nil, List.nil_append]
      · rw [hp]
        exact Nat.lt_of_lt_of_le (List.getElem?_eq_some_iff.mp hv).1 hlen
  | recv hp hw hq => exact .going rfl ((h.goes (by simp [hp, Producer.stopped])).recv hp hw hq)
  | next hp hw hq hs =>
      have h := h.goes (by simp [hp, Producer.stopped])
      exact .going rfl (h.next hp hw hq (h.todo_eq_nil hcalm hsound hp hw hq hs))
  | refused hp hr' =>
      rw [hr] at hr'
      cases hr'
  | forward hp hr' hroom => exact (h.goes (by simp [hp, Producer.stopped])).forward hp
  | @drop connected index w hp hw =>
      cases connected with
      | false => exact .stopped rfl (h.eq_cut (by simp [hp, Producer.stopped]))
      | true =>
          have h := h.goes (by simp [hp, Producer.stopped])
          refine .going rfl (h.moved (by rw [State.pending, State.pending, hp]; rfl)
            fun i v hv _ => ?_)
          obtain ⟨-, rfl⟩ | hv := getElem?_modify hw hv
          · exact h.drained index w hw (by rw [hp]; trivial)
          · exact h.drained i v hv (by rw [hp]; trivial)
  | @dropped connected index hp hw =>
      cases connected with
      | false => exact .stopped rfl (h.eq_cut (by simp [hp, Producer.stopped]))
      | true =>
          have h := h.goes (by simp [hp, Producer.stopped])
          exact .going rfl (h.moved (by rw [State.pending, State.pending, hp]; rfl)
            fun i v hv _ => h.drained i v hv (by rw [hp]; trivial))
  | again hp hended hpanicked =>
      have h := h.goes (by simp [hp, Producer.stopped])
      exact .going rfl (h.moved (by rw [State.pending, State.pending, hp]; rfl)
        fun _ _ _ hd => hd.elim)
  | @unwind connected hp hended hpanicked =>
      cases connected with
      | false => exact .stopped rfl (h.eq_cut (by simp [hp, Producer.stopped]))
      | true =>
          -- every worker of a chunk that was drained has done everything
          have h := h.goes (by simp [hp, Producer.stopped])
          obtain ⟨w, hw, hpanic⟩ := List.any_eq_true.mp hpanicked
          obtain ⟨i, hi⟩ := List.mem_iff_getElem?.mp hw
          rw [Worker.panicked_of_nil (h.drained i w hi (by rw [hp]; trivial))] at hpanic
          cases hpanic
  | stop hp hended => exact .stopped rfl (h.eq_cut (by simp [hp, Producer.stopped]))

/-! ## Runs -/

/-- What holds of the messages that the consumer has received, in every state of every run. -/
structure Ordered (all : List (Except (Failure ε) β)) (log : List (Except ε β)) (s : State ε β) :
    Prop where
  sound : s.Sound
  upTo : log <+: cut all
  delivers : s.output.receiver = true → Delivers all (log ++ s.output.queue) s

/-- At first nothing is delivered. -/
theorem ordered_initial (sources : List (List (Except (Failure ε) β))) :
    Ordered sources.flatten [] (initial sources) where
  sound := ⟨rfl, fun hf => Bool.noConfusion hf, fun _ hw => absurd hw List.not_mem_nil,
    fun hl => hl.elim, fun _ _ _ hd => hd.elim, fun _ _ hw => absurd hw List.not_mem_nil⟩
  upTo := List.nil_prefix
  delivers := fun _ =>
    .going rfl ⟨rfl, fun _ he => absurd he List.not_mem_nil, fun _ _ _ hd => hd.elim⟩

/-- Every step keeps the order. -/
theorem ordered_step (hworkers : 0 < workers) {all : List (Except (Failure ε) β)}
    (hcalm : Calm all) {log : List (Except ε β)} {s s' : State ε β} {e : Option (Except ε β)}
    (h : Ordered all log s) (hs : Step workers s e s') : Ordered all (log ++ e.toList) s' := by
  obtain ⟨index, w, w', rfl, hw, hadvance, rfl⟩ | ⟨rfl, hproduce⟩ |
    ⟨message, queue, rfl, hr, hq, rfl⟩ | ⟨rfl, hr, rfl⟩ := step_cases hs
  · rw [Option.toList_none, List.append_nil]
    exact ⟨h.sound.worker hw hadvance, h.upTo,
      fun hr => (h.delivers hr).worker h.sound hw hadvance⟩
  · rw [Option.toList_none, List.append_nil]
    refine ⟨h.sound.produce hproduce, h.upTo, fun hr => ?_⟩
    have hr' : s.output.receiver = true := by
      cases hproduce <;> exact hr
    exact (h.delivers hr').produce hworkers hcalm h.sound hr' hproduce
  · have hdelivers := h.delivers hr
    rw [hq, List.append_cons] at hdelivers
    exact ⟨⟨h.sound.capacity, h.sound.sender, h.sound.workers, h.sound.listening, h.sound.deaf,
      h.sound.joined⟩, (List.prefix_append _ _).trans hdelivers.cut, fun _ => hdelivers.output _⟩
  · rw [Option.toList_none, List.append_nil]
    exact ⟨⟨h.sound.capacity, h.sound.sender, h.sound.workers, h.sound.listening, h.sound.deaf,
      h.sound.joined⟩, h.upTo, fun hr' => by cases hr'⟩

/-- So every run delivers in order. -/
theorem ordered_run (hworkers : 0 < workers) {sources : List (List (Except (Failure ε) β))}
    (hcalm : Calm sources.flatten) {log : List (Except ε β)} {s : State ε β}
    (h : Run (Step workers) (initial sources) log s) : Ordered sources.flatten log s :=
  h.invariant (ordered_initial sources) fun _ _ _ _ => ordered_step hworkers hcalm

end Velr.Import
