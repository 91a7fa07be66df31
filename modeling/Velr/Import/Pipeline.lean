import Mathlib.Logic.Relation
import Velr.Inflate.Reader
import Velr.Import.Source

/-!
# The parser pipeline

`produce` of `import/mod.rs`: the sources are taken in chunks, each source of a chunk gets a worker
and a queue, and the queues are drained in declaration order into the consumer's. A worker is the
list of what it does, a panic being the end of the list. Each call on a queue, each spawn, each drop
of a receiver and each end of a thread is a step of its own, so that the threads interleave in every
order.
-/

namespace Velr.Import

open Concurrency
open IdMap (Failure)

variable {ε β : Type}

/-- `inflation_memory_bytes` -/
def inflationMemoryBytes (memory : Nat) : Nat :=
  if 512 * 1024 * 1024 ≤ memory then Inflate.inflatedBufferBytes * Inflate.inflatedBuffers else 0

/-- `parser_workers`, with what `available_parallelism` answers. -/
def parserWorkers (opts : Options) (parallelism : Option Nat) (sources : Nat) : Nat :=
  let workerMemory := min Record.usizeMax
    (min Record.usizeMax (batchLimit opts * 2 + opts.bufferBytes) +
      inflationMemoryBytes opts.memoryBytes)
  let memoryWorkers := max 1 (opts.memoryBytes / 4 / workerMemory)
  min (min (max 1 (min 4 (parallelism.getD 1 - 1))) memoryWorkers) (max 1 sources)

/-- There is a worker at least. -/
theorem parserWorkers_pos (opts : Options) (parallelism : Option Nat) (sources : Nat) :
    0 < parserWorkers opts parallelism sources := by
  simp only [parserWorkers]
  omega

/-- A source's worker: what it has still to do, and its queue. A worker that has panicked keeps the
panic as what it has still to do. -/
structure Worker (ε β : Type) where
  todo : List (Except (Failure ε) β)
  queue : Channel (Except ε β)

/-- Where `produce` is. -/
inductive Producer (ε β : Type) where
  /-- at the head of its loop -/
  | taking
  /-- spawning the workers of the chunk -/
  | spawning (chunk : List (List (Except (Failure ε) β)))
  /-- in `receiver.recv()` of a worker's queue -/
  | draining (index : Nat)
  /-- in `sender.send(batch)` -/
  | forwarding (index : Nat) (message : Except ε β)
  /-- dropping the receivers, the next being `index` -/
  | dropping (connected : Bool) (index : Nat)
  /-- at the end of the scope, which joins the workers -/
  | joining (connected : Bool)
  /-- it has returned, or the panic of a worker has unwound it -/
  | returned

/-- The sources that no chunk has taken, the workers of the chunk, and the consumer's queue. -/
structure State (ε β : Type) where
  sources : List (List (Except (Failure ε) β))
  workers : List (Worker ε β)
  producer : Producer ε β
  output : Channel (Except ε β)

/-- `execute` makes the consumer's queue and starts `produce`. -/
def initial (sources : List (List (Except (Failure ε) β))) : State ε β where
  sources
  workers := []
  producer := .taking
  output := .new 2 []

/-- The worker sends the message. -/
def sends (m : Except ε β) : Except (Failure ε) β := m.mapError .error

/-- What is sent: a panic is not. -/
def message : Except (Failure ε) β → Option (Except ε β)
  | .ok b => some (.ok b)
  | .error (.error e) => some (.error e)
  | .error .panic => none

/-- A worker's thread ends, and its sender with it. -/
def Worker.exit (w : Worker ε β) : Option (Worker ε β) :=
  if w.queue.sender then some { w with queue := w.queue.dropSender } else none

/-- A worker's next step: it sends a message, stops at a queue without a receiver, and ends behind
its last message or in a panic. -/
def Worker.advance (w : Worker ε β) : Option (Worker ε β) :=
  match w.todo with
  | [] => w.exit
  | next :: todo =>
      match message next with
      | none => w.exit
      | some m => do
          let (sent, queue) ← w.queue.send m
          some { todo := if sent then todo else [], queue }

/-- A worker's thread is at its end. -/
def Worker.ended (w : Worker ε β) : Bool := !w.queue.sender

/-- A worker's thread has ended in a panic. -/
def Worker.panicked (w : Worker ε β) : Bool := w.ended && !w.todo.isEmpty

/-- `batch.is_err()` -/
def failed : Except ε β → Bool
  | .ok _ => false
  | .error _ => true

/-- The worker at an index is now `w`. -/
def State.modify (s : State ε β) (index : Nat) (w : Worker ε β) : State ε β :=
  { s with workers := s.workers.set index w }

/-- `produce` is at its end, and with it the thread that owns the consumer's sender. -/
def State.finish (s : State ε β) : State ε β :=
  { s with producer := .returned, output := s.output.dropSender }

/-- The next step of `produce` with so many workers; `none` while it waits and when it has
returned. -/
def State.produce (workers : Nat) (s : State ε β) : Option (State ε β) :=
  match s.producer with
  | .taking =>
      match s.sources.take workers with
      | [] => some s.finish
      | chunk =>
          some { s with
            sources := s.sources.drop workers, workers := [], producer := .spawning chunk }
  | .spawning [] => some { s with producer := .draining 0 }
  | .spawning (todo :: chunk) =>
      some { s with
        workers := s.workers ++ [{ todo, queue := .new 1 [] }], producer := .spawning chunk }
  | .draining index =>
      match s.workers[index]? with
      | none => some { s with producer := .dropping true 0 }
      | some w => do
          let (message, queue) ← w.queue.recv
          let s := s.modify index { w with queue }
          match message with
          | some message => some { s with producer := .forwarding index message }
          | none => some { s with producer := .draining (index + 1) }
  | .forwarding index message => do
      let (sent, output) ← s.output.send message
      some { s with
        output
        producer := if !sent || failed message then .dropping false 0 else .draining index }
  | .dropping connected index =>
      match s.workers[index]? with
      | none => some { s with producer := .joining connected }
      | some w =>
          some { s.modify index { w with queue := w.queue.dropReceiver } with
            producer := .dropping connected (index + 1) }
  | .joining connected =>
      if s.workers.all Worker.ended then
        -- the scope panics behind a worker that has
        if connected && !s.workers.any Worker.panicked then some { s with producer := .taking }
        else some s.finish
      else none
  | .returned => none

/-- The consumer drops its receiver. -/
def State.disconnect (s : State ε β) : State ε β := { s with output := s.output.dropReceiver }

/-- What a scheduler picks. -/
inductive Action where
  | worker (index : Nat)
  | producer
  /-- the consumer's `receiver.recv()`, behind which it ends should there be no more -/
  | receive
  | disconnect
deriving DecidableEq

/-- The consumer does it. -/
def Action.consumer : Action → Bool
  | .receive | .disconnect => true
  | .worker _ | .producer => false

/-- One step of the pipeline, with the message that the consumer receives in it. -/
def State.step (workers : Nat) (s : State ε β) :
    Action → Option (Option (Except ε β) × State ε β)
  | .worker index => do
      let w ← s.workers[index]?
      let w ← w.advance
      some (none, s.modify index w)
  | .producer => (s.produce workers).map (none, ·)
  | .receive =>
      if s.output.receiver then do
        let (message, output) ← s.output.recv
        match message with
        | some message => some (some message, { s with output })
        | none => some (none, s.disconnect)
      else none
  | .disconnect => if s.output.receiver then some (none, s.disconnect) else none

/-- A step of the pipeline. -/
def Step (workers : Nat) (s : State ε β) (e : Option (Except ε β)) (s' : State ε β) : Prop :=
  ∃ a, s.step workers a = some (e, s')

/-- A step of a worker or of `produce`. -/
def Internal (workers : Nat) (s s' : State ε β) : Prop :=
  ∃ a : Action, a.consumer = false ∧ s.step workers a = some (none, s')

/-- All threads of the pipeline have returned. -/
def State.Finished (s : State ε β) : Prop :=
  s.producer = .returned ∧ ∀ w ∈ s.workers, w.ended = true

/-- A panic of a worker is that of `produce`. -/
def State.Panicked (s : State ε β) : Prop :=
  s.producer = .returned ∧ s.workers.any Worker.panicked = true

/-- The messages up to the first error, which is the last that is delivered, or up to a panic. -/
def cut : List (Except (Failure ε) β) → List (Except ε β)
  | [] => []
  | .error (.error e) :: _ => [.error e]
  | .error .panic :: _ => []
  | .ok b :: effects => .ok b :: cut effects

/-! ## What the steps do -/

@[simp] theorem sends_ok (b : β) : sends (.ok b : Except ε β) = .ok b := rfl

@[simp] theorem sends_error (e : ε) : sends (.error e : Except ε β) = .error (.error e) := rfl

/-- A message in the queue is what the worker sends. -/
theorem message_eq_some {next : Except (Failure ε) β} {m : Except ε β} :
    message next = some m ↔ next = sends m := by
  rcases next with (e | _) | b <;> rcases m with e' | b' <;> simp [message]

theorem sends_ne_panic (m : Except ε β) : sends m ≠ .error .panic := by
  cases m <;> simp

/-- A panic sends nothing. -/
theorem message_eq_none {next : Except (Failure ε) β} :
    message next = none ↔ next = .error .panic := by
  rcases next with (e | _) | b <;> simp [message]

theorem Worker.exit_eq_some {w w' : Worker ε β} :
    w.exit = some w' ↔ w.queue.sender = true ∧ w' = { w with queue := w.queue.dropSender } := by
  unfold exit
  split
  · next hs =>
      simp only [Option.some.injEq, hs, true_and]
      exact eq_comm
  · next hs => simp [hs]

/-- What a worker's step can do. -/
theorem Worker.advance_cases {w w' : Worker ε β} (h : w.advance = some w') :
    ((w.todo = [] ∨ ∃ todo, w.todo = .error .panic :: todo) ∧ w.queue.sender = true ∧
      w' = { w with queue := w.queue.dropSender }) ∨
    (∃ (m : Except ε β) (todo : _), w.todo = sends m :: todo ∧
      w.queue.receiver = false ∧ w' = { w with todo := [] }) ∨
    (∃ (m : Except ε β) (todo : _), w.todo = sends m :: todo ∧
      w.queue.receiver = true ∧ w.queue.queue.length < w.queue.capacity ∧
      w' = { todo, queue := { w.queue with queue := w.queue.queue ++ [m] } }) := by
  unfold advance at h
  split at h
  · next htodo => exact .inl ⟨.inl htodo, exit_eq_some.mp h⟩
  · next next todo htodo =>
      split at h
      · next hm =>
          rw [message_eq_none.mp hm] at htodo
          exact .inl ⟨.inr ⟨todo, htodo⟩, exit_eq_some.mp h⟩
      · next m hm =>
          rw [message_eq_some.mp hm] at htodo
          simp only [Option.bind_eq_bind, Option.bind_eq_some_iff, Prod.exists] at h
          obtain ⟨sent, queue, hsend, hw⟩ := h
          cases hw
          obtain ⟨rfl, hr, rfl⟩ | ⟨rfl, hr, hroom, rfl⟩ := Channel.send_cases hsend
          · exact .inr (.inl ⟨m, todo, htodo, hr, rfl⟩)
          · exact .inr (.inr ⟨m, todo, htodo, hr, hroom, rfl⟩)

/-- A worker waits only for room in its queue. -/
theorem Worker.advance_eq_none {w : Worker ε β} (h : w.advance = none) :
    w.ended = true ∨ (w.queue.receiver = true ∧ w.queue.capacity ≤ w.queue.queue.length) := by
  have hexit (h : w.exit = none) : w.ended = true := by simpa [exit, Worker.ended] using h
  unfold advance at h
  split at h
  · exact .inl (hexit h)
  · next next todo htodo =>
      split at h
      · exact .inl (hexit h)
      · next m hm =>
          cases hsend : w.queue.send m with
          | none => exact .inr (Channel.send_eq_none.mp hsend)
          | some sent =>
              rw [hsend] at h
              cases h

/-- What a step of `produce` can do. -/
inductive ProduceStep (workers : Nat) (s : State ε β) : State ε β → Prop where
  | done (hp : s.producer = .taking) (hchunk : s.sources.take workers = []) :
      ProduceStep workers s s.finish
  | take (hp : s.producer = .taking) (hchunk : s.sources.take workers ≠ []) :
      ProduceStep workers s
        { s with
          sources := s.sources.drop workers
          workers := []
          producer := .spawning (s.sources.take workers) }
  | spawned (hp : s.producer = .spawning []) :
      ProduceStep workers s { s with producer := .draining 0 }
  | spawn {todo chunk} (hp : s.producer = .spawning (todo :: chunk)) :
      ProduceStep workers s
        { s with
          workers := s.workers ++ [{ todo, queue := .new 1 [] }], producer := .spawning chunk }
  | drained {index} (hp : s.producer = .draining index) (hw : s.workers[index]? = none) :
      ProduceStep workers s { s with producer := .dropping true 0 }
  | recv {index w message queue} (hp : s.producer = .draining index)
      (hw : s.workers[index]? = some w) (hq : w.queue.queue = message :: queue) :
      ProduceStep workers s
        { s.modify index { w with queue := { w.queue with queue } } with
          producer := .forwarding index message }
  | next {index w} (hp : s.producer = .draining index) (hw : s.workers[index]? = some w)
      (hq : w.queue.queue = []) (hs : w.queue.sender = false) :
      ProduceStep workers s { s.modify index w with producer := .draining (index + 1) }
  | refused {index message} (hp : s.producer = .forwarding index message)
      (hr : s.output.receiver = false) :
      ProduceStep workers s { s with producer := .dropping false 0 }
  | forward {index message} (hp : s.producer = .forwarding index message)
      (hr : s.output.receiver = true) (hroom : s.output.queue.length < s.output.capacity) :
      ProduceStep workers s
        { s with
          output := { s.output with queue := s.output.queue ++ [message] }
          producer := if failed message then .dropping false 0 else .draining index }
  | drop {connected index w} (hp : s.producer = .dropping connected index)
      (hw : s.workers[index]? = some w) :
      ProduceStep workers s
        { s.modify index { w with queue := w.queue.dropReceiver } with
          producer := .dropping connected (index + 1) }
  | dropped {connected index} (hp : s.producer = .dropping connected index)
      (hw : s.workers[index]? = none) :
      ProduceStep workers s { s with producer := .joining connected }
  | again (hp : s.producer = .joining true) (hended : s.workers.all Worker.ended = true)
      (hpanicked : s.workers.any Worker.panicked = false) :
      ProduceStep workers s { s with producer := .taking }
  | unwind {connected} (hp : s.producer = .joining connected)
      (hended : s.workers.all Worker.ended = true)
      (hpanicked : s.workers.any Worker.panicked = true) :
      ProduceStep workers s s.finish
  | stop (hp : s.producer = .joining false) (hended : s.workers.all Worker.ended = true) :
      ProduceStep workers s s.finish

/-- What the producer can do next. -/
theorem produce_cases {workers : Nat} {s s' : State ε β} (h : s.produce workers = some s') :
    ProduceStep workers s s' := by
  unfold State.produce at h
  split at h
  · next hp =>
      split at h
      · next hchunk => cases h; exact .done hp hchunk
      · next chunk hchunk => cases h; exact .take hp hchunk
  · next hp => cases h; exact .spawned hp
  · next hp => cases h; exact .spawn hp
  · next index hp =>
      split at h
      · next hw => cases h; exact .drained hp hw
      · next w hw =>
          simp only [Option.bind_eq_bind, Option.bind_eq_some_iff, Prod.exists] at h
          obtain ⟨message, queue, hrecv, h⟩ := h
          obtain ⟨m, q, rfl, hq, rfl⟩ | ⟨rfl, hq, hs, rfl⟩ := Channel.recv_cases hrecv
          · cases h; exact .recv hp hw hq
          · cases h; exact .next hp hw hq hs
  · next index message hp =>
      simp only [Option.bind_eq_bind, Option.bind_eq_some_iff, Prod.exists] at h
      obtain ⟨sent, output, hsend, h⟩ := h
      obtain ⟨rfl, hr, rfl⟩ | ⟨rfl, hr, hroom, rfl⟩ := Channel.send_cases hsend
      · cases h; exact .refused hp hr
      · cases h; exact .forward hp hr hroom
  · next hp =>
      split at h
      · next hw => cases h; exact .dropped hp hw
      · next hw => cases h; exact .drop hp hw
  · next connected hp =>
      split at h
      · next hended =>
          split at h
          · next hc =>
              simp only [Bool.and_eq_true, Bool.not_eq_true'] at hc
              obtain ⟨rfl, hpanicked⟩ := hc
              cases h
              exact .again hp hended hpanicked
          · next hc =>
              cases h
              cases hpanicked : s.workers.any Worker.panicked with
              | true => exact .unwind hp hended hpanicked
              | false =>
                  obtain rfl : connected = false := by simpa [hpanicked] using hc
                  exact .stop hp hended
      · cases h
  · cases h

/-- What a step of the pipeline can do. -/
theorem step_cases {workers : Nat} {s s' : State ε β} {e : Option (Except ε β)}
    (h : Step workers s e s') :
    (∃ index w w', e = none ∧ s.workers[index]? = some w ∧ w.advance = some w' ∧
      s' = s.modify index w') ∨
    (e = none ∧ ProduceStep workers s s') ∨
    (∃ message queue, e = some message ∧ s.output.receiver = true ∧
      s.output.queue = message :: queue ∧ s' = { s with output := { s.output with queue } }) ∨
    (e = none ∧ s.output.receiver = true ∧ s' = s.disconnect) := by
  obtain ⟨a, ha⟩ := h
  cases a with
  | worker index =>
      simp only [State.step, Option.bind_eq_bind, Option.bind_eq_some_iff] at ha
      obtain ⟨w, hw, w', hadvance, h⟩ := ha
      cases h
      exact .inl ⟨index, w, w', rfl, hw, hadvance, rfl⟩
  | producer =>
      simp only [State.step, Option.map_eq_some_iff] at ha
      obtain ⟨_, hproduce, h⟩ := ha
      cases h
      exact .inr (.inl ⟨rfl, produce_cases hproduce⟩)
  | receive =>
      simp only [State.step] at ha
      split at ha
      · next hr =>
          simp only [Option.bind_eq_bind, Option.bind_eq_some_iff, Prod.exists] at ha
          obtain ⟨message, output, hrecv, h⟩ := ha
          obtain ⟨m, q, rfl, hq, rfl⟩ | ⟨rfl, hq, hs, rfl⟩ := Channel.recv_cases hrecv
          · cases h; exact .inr (.inr (.inl ⟨m, q, rfl, hr, hq, rfl⟩))
          · cases h; exact .inr (.inr (.inr ⟨rfl, hr, rfl⟩))
      · cases ha
  | disconnect =>
      simp only [State.step] at ha
      split at ha
      · next hr => cases ha; exact .inr (.inr (.inr ⟨rfl, hr, rfl⟩))
      · cases ha

end Velr.Import
