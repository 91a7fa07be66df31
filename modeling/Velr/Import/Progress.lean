import Velr.Import.Quotes

/-!
# The pipeline comes to its end

Every step takes from `State.measure`, so that no run goes on for ever. `produce` and the workers
wait only for one another or for room in the consumer's queue, and a message in that queue is one
the consumer can receive. Behind an error, or without the consumer, they wait for nothing else.
-/

namespace Velr.Import

open Concurrency Csv
open IdMap (Failure)

variable {ε β : Type} {workers : Nat}

/-! ## No run goes on for ever -/

/-- What a worker has still to do. A message costs one step in each place it comes to: the worker,
its queue, `produce` and the consumer's queue. -/
def Worker.measure (w : Worker ε β) : Nat :=
  4 * w.todo.length + 3 * w.queue.queue.length + w.queue.sender.toNat

/-- What a source costs once `produce` has spawned its worker: that it is drained and dropped. -/
def sourceMeasure (todo : List (Except (Failure ε) β)) : Nat := 4 * todo.length + 4

/-- What `produce` has still to do for its chunk, with the chunk's number of workers so far. -/
def Producer.measure (spawned : Nat) : Producer ε β → Nat
  | .taking => 1
  | .spawning chunk => (chunk.map sourceMeasure).sum + 2 * spawned + 5
  | .draining index => spawned + (spawned - index) + 4
  | .forwarding index _ => spawned + (spawned - index) + 6
  | .dropping _ index => spawned - index + 3
  | .joining _ => 2
  | .returned => 0

/-- A bound on the number of steps to come. -/
def State.measure (s : State ε β) : Nat :=
  (s.sources.map fun todo => sourceMeasure todo + 6).sum + (s.workers.map Worker.measure).sum +
    s.producer.measure s.workers.length + s.output.queue.length +
    s.output.receiver.toNat

/-- A step of a worker brings it closer to its end. -/
theorem Worker.measure_advance {w w' : Worker ε β} (h : w.advance = some w') :
    w'.measure < w.measure := by
  obtain ⟨-, hs, rfl⟩ | ⟨message, todo, htodo, hr, rfl⟩ |
    ⟨message, todo, htodo, hr, hroom, rfl⟩ := Worker.advance_cases h
  · simp [Worker.measure, Channel.dropSender, hs]
  · simp [Worker.measure, htodo]
  · simp only [Worker.measure, htodo, List.length_append, List.length_cons, List.length_nil]
    omega

/-- The workers' measures after a change of one. -/
theorem sum_measure_modify {s : State ε β} {index : Nat} {w : Worker ε β}
    (hw : s.workers[index]? = some w) (w' : Worker ε β) :
    ((s.modify index w').workers.map Worker.measure).sum + w.measure =
      (s.workers.map Worker.measure).sum + w'.measure := by
  obtain ⟨hlt, rfl⟩ := List.getElem?_eq_some_iff.mp hw
  have hnew : s.workers.set index w' =
      s.workers.take index ++ w' :: s.workers.drop (index + 1) := by
    rw [List.set_eq_take_append_cons_drop, if_pos hlt]
  have hold : s.workers =
      s.workers.take index ++ s.workers[index] :: s.workers.drop (index + 1) := by
    rw [← List.drop_eq_getElem_cons hlt, List.take_append_drop]
  have hsum : (s.workers.map Worker.measure).sum =
      ((s.workers.take index).map Worker.measure).sum +
        (s.workers[index].measure + ((s.workers.drop (index + 1)).map Worker.measure).sum) := by
    conv_lhs => rw [hold]
    rw [List.map_append, List.sum_append, List.map_cons, List.sum_cons]
  rw [State.modify, hnew, hsum, List.map_append, List.sum_append, List.map_cons, List.sum_cons]
  omega

/-- So does a step of the producer. -/
theorem measure_produce {s s' : State ε β} (h : ProduceStep workers s s') :
    s'.measure < s.measure := by
  have hlength (index : Nat) (w : Worker ε β) :
      (s.modify index w).workers.length = s.workers.length := List.length_set
  cases h with
  | done hp hchunk =>
      simp only [State.measure, State.finish, hp, Producer.measure, Channel.dropSender]
      omega
  | take hp hchunk =>
      -- the chunk's six a source pay for the spawning of its workers
      have hsplit : (s.sources.map fun todo => sourceMeasure todo + 6).sum =
          ((s.sources.take workers).map fun todo => sourceMeasure todo + 6).sum +
            ((s.sources.drop workers).map fun todo => sourceMeasure todo + 6).sum := by
        rw [← List.sum_append, ← List.map_append, List.take_append_drop]
      have hsix : ((s.sources.take workers).map fun todo => sourceMeasure todo + 6).sum =
          ((s.sources.take workers).map sourceMeasure).sum +
            6 * (s.sources.take workers).length := by
        generalize s.sources.take workers = chunk
        induction chunk with
        | nil => rfl
        | cons todo chunk ih =>
            simp only [List.map_cons, List.sum_cons, List.length_cons, ih]
            omega
      have hpos := List.length_pos_iff.mpr hchunk
      simp only [State.measure, hp, Producer.measure, hsplit, hsix, List.map_nil, List.sum_nil,
        List.length_nil]
      omega
  | spawned hp =>
      simp only [State.measure, hp, Producer.measure, List.map_nil, List.sum_nil]
      omega
  | spawn hp =>
      simp only [State.measure, hp, Producer.measure, List.map_append, List.sum_append,
        List.map_cons, List.sum_cons, List.map_nil, List.sum_nil, List.length_append,
        List.length_cons, List.length_nil, sourceMeasure, Worker.measure, Channel.new,
          Bool.toNat_true]
      omega
  | @drained index hp hw =>
      have hlen := List.getElem?_eq_none_iff.mp hw
      simp only [State.measure, hp, Producer.measure]
      omega
  | @recv index w message queue hp hw hq =>
      have hlt := (List.getElem?_eq_some_iff.mp hw).1
      have hsum := sum_measure_modify hw { w with queue := { w.queue with queue } }
      simp only [Worker.measure, hq, List.length_cons] at hsum
      simp only [State.measure, hp, Producer.measure, hlength]
      simp only [State.modify] at hsum ⊢
      omega
  | @next index w hp hw hq hs =>
      have hlt := (List.getElem?_eq_some_iff.mp hw).1
      have hsum := sum_measure_modify hw w
      simp only [State.measure, hp, Producer.measure, hlength]
      simp only [State.modify] at hsum ⊢
      omega
  | refused hp hr =>
      simp only [State.measure, hp, Producer.measure]
      omega
  | @forward index message hp hr hroom =>
      cases message <;>
        simp only [State.measure, hp, Producer.measure, failed, if_true, Bool.false_eq_true,
          if_false, List.length_append, List.length_cons, List.length_nil] <;>
        omega
  | @drop connected index w hp hw =>
      have hlt := (List.getElem?_eq_some_iff.mp hw).1
      have hsum := sum_measure_modify hw { w with queue := w.queue.dropReceiver }
      simp only [Worker.measure, Channel.dropReceiver, List.length_nil] at hsum
      simp only [State.measure, hp, Producer.measure, hlength]
      simp only [State.modify, Channel.dropReceiver] at hsum ⊢
      omega
  | @dropped connected index hp hw =>
      simp only [State.measure, hp, Producer.measure]
      omega
  | again hp hended hpanicked =>
      simp only [State.measure, hp, Producer.measure]
      omega
  | unwind hp hended | stop hp hended =>
      simp only [State.measure, State.finish, hp, Producer.measure, Channel.dropSender]
      omega

/-- Every step takes from the measure. -/
theorem measure_step {s s' : State ε β} {e : Option (Except ε β)} (h : Step workers s e s') :
    s'.measure < s.measure := by
  obtain ⟨index, w, w', rfl, hw, hadvance, rfl⟩ | ⟨rfl, hproduce⟩ |
    ⟨message, queue, rfl, hr, hq, rfl⟩ | ⟨rfl, hr, rfl⟩ := step_cases h
  · have hsum := sum_measure_modify hw w'
    have hless := Worker.measure_advance hadvance
    have hlength : (s.modify index w').workers.length = s.workers.length := List.length_set
    simp only [State.measure, hlength]
    simp only [State.modify] at hsum ⊢
    omega
  · exact measure_produce hproduce
  · simp only [State.measure, hq, List.length_cons]
    omega
  · simp only [State.measure, State.disconnect, Channel.dropReceiver, hr, List.length_nil,
      Bool.toNat_true, Bool.toNat_false]
    omega

/-- No run goes on for ever. -/
theorem wellFounded_step :
    WellFounded fun s' s : State ε β => ∃ e, Step workers s e s' :=
  Subrelation.wf (fun ⟨_, h⟩ => measure_step h) (measure (State.measure (ε := ε) (β := β))).wf

/-! ## Nobody waits for ever -/

/-- A worker that has not ended can go on as soon as its receiver is gone. -/
theorem worker_unblocked (workers : Nat) {s : State ε β} {index : Nat} {w : Worker ε β}
    (hw : s.workers[index]? = some w) (hended : w.ended = false)
    (hr : w.queue.receiver = false) : ∃ s', s.step workers (.worker index) = some (none, s') := by
  cases hadvance : w.advance with
  | none =>
      rcases Worker.advance_eq_none hadvance with h | h
      · rw [hended] at h
        cases h
      · rw [hr] at h
        cases h.1
  | some w' => exact ⟨s.modify index w', by simp [State.step, hw, hadvance]⟩

/-- A worker that has not ended can go on while its queue is empty. -/
theorem worker_empty (workers : Nat) {s : State ε β} {index : Nat} {w : Worker ε β}
    (hsound : w.Sound)
    (hw : s.workers[index]? = some w) (hended : w.ended = false) (hq : w.queue.queue = []) :
    ∃ s', s.step workers (.worker index) = some (none, s') := by
  cases hadvance : w.advance with
  | none =>
      rcases Worker.advance_eq_none hadvance with h | ⟨-, h⟩
      · rw [hended] at h
        cases h
      · rw [hsound.capacity, hq] at h
        cases h
  | some w' => exact ⟨s.modify index w', by simp [State.step, hw, hadvance]⟩

/-- `produce` and the workers wait only for room in the consumer's queue. -/
theorem progress (workers : Nat) {s : State ε β} (h : s.Sound) (hp : s.producer ≠ .returned) :
    (∃ s', Internal workers s s') ∨
      (∃ index message, s.producer = .forwarding index message) ∧ s.output.receiver = true ∧
        s.output.queue ≠ [] := by
  have hproducer (s' : State ε β) (hs : s.produce workers = some s') :
      ∃ s', Internal workers s s' := ⟨s', .producer, rfl, by simp [State.step, hs]⟩
  cases hstate : s.producer with
  | returned => exact absurd hstate hp
  | taking =>
      cases hchunk : s.sources.take workers with
      | nil => exact .inl (hproducer s.finish (by simp [State.produce, hstate, hchunk]))
      | cons todo chunk => exact .inl (hproducer _ (by simp [State.produce, hstate, hchunk]; rfl))
  | spawning chunk =>
      cases chunk with
      | nil => exact .inl (hproducer _ (by simp [State.produce, hstate]; rfl))
      | cons todo chunk => exact .inl (hproducer _ (by simp [State.produce, hstate]; rfl))
  | draining index =>
      cases hw : s.workers[index]? with
      | none => exact .inl (hproducer _ (by simp [State.produce, hstate, hw]; rfl))
      | some w =>
          cases hrecv : w.queue.recv with
          | none =>
              obtain ⟨hq, hs⟩ := Channel.recv_eq_none.mp hrecv
              obtain ⟨s', hs'⟩ := worker_empty workers
                (h.workers w (List.mem_of_getElem? hw)) hw (by simp [Worker.ended, hs]) hq
              exact .inl ⟨s', .worker index, rfl, hs'⟩
          | some r =>
              obtain ⟨message, queue⟩ := r
              cases message with
              | none => exact .inl (hproducer _ (by simp [State.produce, hstate, hw, hrecv]; rfl))
              | some m => exact .inl (hproducer _ (by simp [State.produce, hstate, hw, hrecv]; rfl))
  | forwarding index message =>
      cases hsend : s.output.send message with
      | none =>
          obtain ⟨hr, hfull⟩ := Channel.send_eq_none.mp hsend
          refine .inr ⟨⟨index, message, rfl⟩, hr, fun hnil => ?_⟩
          rw [h.capacity, hnil] at hfull
          cases hfull
      | some r => exact .inl (hproducer _ (by simp [State.produce, hstate, hsend]; rfl))
  | dropping connected index =>
      cases hw : s.workers[index]? with
      | none => exact .inl (hproducer _ (by simp [State.produce, hstate, hw]; rfl))
      | some w => exact .inl (hproducer _ (by simp [State.produce, hstate, hw]; rfl))
  | joining connected =>
      by_cases hended : s.workers.all Worker.ended = true
      · cases hgo : connected && !s.workers.any Worker.panicked with
        | true =>
            exact .inl (hproducer { s with producer := .taking }
              (by simp only [State.produce, hstate, hended, hgo, if_true]))
        | false =>
            exact .inl (hproducer s.finish (by simp [State.produce, hstate, hended, hgo]))
      · rw [List.all_eq_true] at hended
        simp only [not_forall] at hended
        obtain ⟨w, hmem, halive⟩ := hended
        obtain ⟨index, hw⟩ := List.mem_iff_getElem?.mp hmem
        obtain ⟨s', hs'⟩ := worker_unblocked workers hw (by simpa using halive)
          (h.deaf index w hw (by rw [hstate]; trivial))
        exact .inl ⟨s', .worker index, rfl, hs'⟩

/-- An internal step is a step. -/
theorem Internal.step {s s' : State ε β} (h : Internal workers s s') : Step workers s none s' := by
  obtain ⟨a, -, ha⟩ := h
  exact ⟨a, ha⟩

/-- Only the consumer drops its receiver. -/
theorem Internal.receiver {s s' : State ε β} (h : Internal workers s s') :
    s'.output.receiver = s.output.receiver := by
  obtain ⟨a, hconsumer, ha⟩ := h
  cases a with
  | worker index =>
      simp only [State.step, Option.bind_eq_bind, Option.bind_eq_some_iff] at ha
      obtain ⟨w, -, w', -, h⟩ := ha
      cases h
      rfl
  | producer =>
      simp only [State.step, Option.map_eq_some_iff] at ha
      obtain ⟨_, hproduce, h⟩ := ha
      cases h
      cases produce_cases hproduce <;> rfl
  | receive | disconnect => cases hconsumer

/-- An error has been delivered, or the consumer has disconnected. -/
def Interrupted (log : List (Except ε β)) (s : State ε β) : Prop :=
  (∃ e, .error e ∈ log) ∨ s.output.receiver = false

/-- Behind an error or a disconnection nobody waits for the consumer. -/
theorem Interrupted.progress (workers : Nat) {all : List (Except (Failure ε) β)}
    {log : List (Except ε β)} {s : State ε β} (hordered : Ordered all log s) (h : Interrupted log s)
    (hp : ¬s.Finished) :
    ∃ s', Internal workers s s' := by
  have hreturned : s.producer ≠ .returned := fun hr =>
    hp ⟨hr, hordered.sound.joined (by rw [hr]; trivial)⟩
  rcases Import.progress workers hordered.sound hreturned with
    hs | ⟨⟨index, message, hforwarding⟩, hr, -⟩
  · exact hs
  · obtain ⟨e, he⟩ | hf := h
    · have hdelivers := hordered.delivers hr
      unfold Delivers at hdelivers
      rw [if_neg (by simp [hforwarding, Producer.stopped])] at hdelivers
      exact absurd (List.mem_append_left _ he) (hdelivers.ok e)
    · rw [hr] at hf
      cases hf

/-- Internal steps keep the order and the interruption. -/
theorem Interrupted.internal (hworkers : 0 < workers) {all : List (Except (Failure ε) β)}
    (hcalm : Calm all) {log : List (Except ε β)} {s s' : State ε β} (hordered : Ordered all log s)
    (h : Interrupted log s)
    (hs : Relation.ReflTransGen (Internal workers) s s') :
    Ordered all log s' ∧ Interrupted log s' := by
  induction hs with
  | refl => exact ⟨hordered, h⟩
  | tail _ hs ih =>
      refine ⟨?_, ih.2.imp id fun hr => hs.receiver.trans hr⟩
      have := ordered_step hworkers hcalm ih.1 hs.step
      rwa [Option.toList_none, List.append_nil] at this

/-- The workers and `produce` come to their end, whichever of them goes first. -/
theorem Interrupted.finishes (hworkers : 0 < workers) {all : List (Except (Failure ε) β)}
    (hcalm : Calm all) {log : List (Except ε β)} {s : State ε β} (hordered : Ordered all log s)
    (h : Interrupted log s) :
    ∃ s', Relation.ReflTransGen (Internal workers) s s' ∧ s'.Finished := by
  induction hmeasure : s.measure using Nat.strong_induction_on generalizing s with
  | _ n ih =>
      by_cases hfinished : s.Finished
      · exact ⟨s, .refl, hfinished⟩
      · obtain ⟨s₁, hs₁⟩ := h.progress workers hordered hfinished
        obtain ⟨hordered₁, h₁⟩ := h.internal hworkers hcalm hordered (.single hs₁)
        have hless := measure_step hs₁.step
        obtain ⟨s₂, hs₂, hfinished₂⟩ := ih s₁.measure (by omega) hordered₁ h₁ rfl
        exact ⟨s₂, .head hs₁ hs₂, hfinished₂⟩

/-- Where the consumer learns that no more will come, it has everything. -/
theorem Ordered.complete {all : List (Except (Failure ε) β)} {log : List (Except ε β)}
    {s : State ε β} (h : Ordered all log s) (hr : s.output.receiver = true)
    (hrecv : s.output.recv = some (none, s.output)) :
    log = cut all := by
  obtain ⟨m, q, hm, -⟩ | ⟨-, hq, hs, -⟩ := Channel.recv_cases hrecv
  · cases hm
  · have hdelivers := h.delivers hr
    unfold Delivers at hdelivers
    rw [if_pos (by rw [h.sound.sender hs]; rfl), hq, List.append_nil] at hdelivers
    exact hdelivers

/-! ## The parallel pipeline and sequential parsing -/

/-- Whatever the interleaving, the consumer receives what `produce_source` delivers for one source
after another, up to the first error; without an error that is every data row once. Behind an error
or a disconnection all threads come to their end, and before it nobody waits for ever. For this,
sequential parsing must not come to a row that panics. -/
theorem pipeline_sequential {F T : Type} (c : Conversions F T) (opts : HeaderOptions)
    (sources : List Source) (hworkers : 0 < workers)
    (hclean : ∀ d ∈ reached c opts (allItems opts sources), ¬d.Quoted c opts) {log : List Message}
    {s : State String Batch} (h : Run (Step workers) (initial (allEffects c opts sources)) log s) :
    log <+: cut (allEffects c opts sources).flatten ∧
    ((∃ e, .error e ∈ log) ∨
        s.output.receiver = true ∧ s.output.recv = some (none, s.output) →
      log = cut (allEffects c opts sources).flatten ∧
      ((∀ e, .error e ∉ log) →
        Partition c opts log (dataRows opts sources) ∧
        ∃ batches : List Batch, log = batches.map Except.ok ∧
          (batches.map Batch.extraColumns).sum =
            ((dataRows opts sources).map (DataRow.extra opts)).sum)) ∧
    (Interrupted log s → ∀ s', Relation.ReflTransGen (Internal workers) s s' →
      (s'.Finished ∨ ∃ s'', Internal workers s' s'') ∧
      ∃ s'', Relation.ReflTransGen (Internal workers) s' s'' ∧ s''.Finished) ∧
    (s.Finished ∨ (∃ s', Internal workers s s') ∨
      ∃ message s', s.step workers .receive = some (some message, s')) ∧
    WellFounded fun s' s : State String Batch => ∃ e, Step workers s e s' := by
  have hcalm := allEffects_calm hclean
  have hordered := ordered_run hworkers hcalm h
  refine ⟨hordered.upTo, fun hcomplete => ?_, fun hi s' hs => ?_, ?_, wellFounded_step⟩
  · have hcut : log = cut (allEffects c opts sources).flatten := by
      obtain ⟨e, he⟩ | ⟨hr, hrecv⟩ := hcomplete
      · exact eq_cut hordered.upTo he
      · exact hordered.complete hr hrecv
    refine ⟨hcut, fun hok => ?_⟩
    have hrows := (allEffects_partition sources (ok_of_cut hcalm (hcut ▸ hok))).messages
    rw [← hcut] at hrows
    exact ⟨hrows, hrows.extra⟩
  · obtain ⟨hordered', hi'⟩ := hi.internal hworkers hcalm hordered hs
    refine ⟨?_, hi'.finishes hworkers hcalm hordered'⟩
    by_cases hfinished : s'.Finished
    · exact .inl hfinished
    · exact .inr (hi'.progress workers hordered' hfinished)
  · by_cases hreturned : s.producer = .returned
    · exact .inl ⟨hreturned, hordered.sound.joined (by rw [hreturned]; trivial)⟩
    · rcases progress workers hordered.sound hreturned with hs | ⟨-, hr, hq⟩
      · exact .inr (.inl hs)
      · obtain ⟨message, queue, hqueue⟩ := List.exists_cons_of_ne_nil hq
        exact .inr (.inr ⟨message, { s with output := { s.output with queue } }, by
          simp [State.step, hr, Channel.recv, hqueue]⟩)

/-- The steps a scheduler picks, with the messages that the consumer receives. -/
def State.schedule (workers : Nat) (s : State ε β) :
    List Action → Option (List (Except ε β) × State ε β)
  | [] => some ([], s)
  | a :: actions => do
      let (e, s) ← s.step workers a
      let (log, s) ← s.schedule workers actions
      some (e.toList ++ log, s)

/-- A schedule is a run. -/
theorem schedule_run {s₀ s s' : State ε β} {log log' : List (Except ε β)} {actions : List Action}
    (h : Run (Step workers) s₀ log s) (hs : s.schedule workers actions = some (log', s')) :
    Run (Step workers) s₀ (log ++ log') s' := by
  induction actions generalizing s log log' with
  | nil =>
      cases hs
      rwa [List.append_nil]
  | cons a actions ih =>
      simp only [State.schedule, Option.bind_eq_bind, Option.bind_eq_some_iff, Prod.exists] at hs
      obtain ⟨e, s₁, hstep, rest, s₂, hrest, hlog⟩ := hs
      cases hlog
      rw [← List.append_assoc]
      exact ih (.step h ⟨a, hstep⟩) hrest

/-- Options under which columns behind those of the header are ignored. -/
def smallOptions : HeaderOptions :=
  { plainHeaderOptions with ignoreExtraColumns := true, skipBadLogging := true }

def smallConversions : Conversions Int String where
  parsers := plainParsers
  debug := id

/-- A file of a header and two rows, the first with a point and the second with a column too
many. -/
def peopleSource (point : String) : Source where
  files :=
    [{ path := "people.csv"
       contents := .ok
         ([{ line := 1, cells := [⟨"name", false⟩, ⟨"at:point", false⟩] },
           { line := 2, cells := [⟨"Ada", false⟩, ⟨point, false⟩] },
           { line := 3, cells := [⟨"Bob", false⟩, ⟨"", false⟩, ⟨"x", false⟩] }], none) }]
  header :=
    { columns :=
        [{ kind := .property ⟨"string", false, [], none⟩, name := "name" },
          { kind := .property ⟨"point", false, [], none⟩, name := "at" }]
      nonempty := List.cons_ne_nil _ _
      known := fun column hcolumn => by
        simp only [List.mem_cons, List.not_mem_nil, or_false] at hcolumn
        rcases hcolumn with rfl | rfl <;> exact ⟨by decide, rfl⟩ }
  headerCells := [⟨"name", false⟩, ⟨"at:point", false⟩]

/-- A file of a header and two rows. -/
def citySource : Source where
  files :=
    [{ path := "cities.csv"
       contents := .ok
         ([{ line := 1, cells := [⟨"name", false⟩] }, { line := 2, cells := [⟨"Rome", false⟩] },
           { line := 3, cells := [⟨"Oslo", false⟩] }], none) }]
  header :=
    { columns := [{ kind := .property ⟨"string", false, [], none⟩, name := "name" }]
      nonempty := List.cons_ne_nil _ _
      known := fun column hcolumn => by
        rw [List.mem_singleton.mp hcolumn]
        exact ⟨by decide, rfl⟩ }
  headerCells := [⟨"name", false⟩]

/-- The batch of the people. -/
def peopleBatch : Batch where
  source := 0
  path := "people.csv"
  firstLine := 2
  lastLine := 3
  columns := 2
  rows := ⟨[.text 0 3, .null, .text 3 6, .null], [65, 100, 97, 66, 111, 98], []⟩
  extraColumns := 1
  diagnostics := []

/-- The batch of the cities. -/
def cityBatch : Batch where
  source := 1
  path := "cities.csv"
  firstLine := 2
  lastLine := 3
  columns := 1
  rows := ⟨[.text 0 4, .text 4 8], [82, 111, 109, 101, 79, 115, 108, 111], []⟩
  extraColumns := 0
  diagnostics := []

/-- The sources, the first with a text for the point of its first row. -/
def smallSources (point : String) : List Source := [peopleSource point, citySource]

/-- The number of workers for two sources, which is two. -/
def smallWorkers : Nat := parserWorkers smallOptions.importOptions (some 4) 2

/-- The sequential run of the sample sends a batch for each source. -/
theorem allEffects_small : allEffects smallConversions smallOptions
    (smallSources "\x7bx: 1, y: 2\x7d") = [[.ok peopleBatch], [.ok cityBatch]] := by
  rfl

/-- With a lone quote the first source panics. -/
theorem allEffects_broken : allEffects smallConversions smallOptions
    (smallSources "\x7bx: 1, y: '\x7d") = [[.error .panic], [.ok cityBatch]] := by
  rfl

/-- A run of two workers to its end. -/
theorem pipeline_sequential_small : ∃ s,
    Run (Step smallWorkers)
      (initial (allEffects smallConversions smallOptions (smallSources "\x7bx: 1, y: 2\x7d")))
      [.ok peopleBatch, .ok cityBatch] s ∧
    Partition smallConversions smallOptions ([.ok peopleBatch, .ok cityBatch] : List Message)
      (dataRows smallOptions (smallSources "\x7bx: 1, y: 2\x7d")) := by
  have hclean : ∀ d ∈ reached smallConversions smallOptions
      (allItems smallOptions (smallSources "\x7bx: 1, y: 2\x7d")),
      ¬d.Quoted smallConversions smallOptions := by
    have hall : (reached smallConversions smallOptions
        (allItems smallOptions (smallSources "\x7bx: 1, y: 2\x7d"))).all
          (fun d => (d.values smallConversions smallOptions).isOk) = true := by
      rfl
    intro d hd hquoted
    have hok := List.all_eq_true.mp hall d hd
    rw [values_panic_iff.mpr hquoted] at hok
    cases hok
  have hlog : ((initial (allEffects smallConversions smallOptions
      (smallSources "\x7bx: 1, y: 2\x7d"))).schedule smallWorkers
      [.producer, .producer, .producer, .producer, .worker 1, .worker 0, .producer, .worker 1,
        .producer, .worker 0, .producer, .receive, .producer, .producer, .producer, .producer,
        .producer, .producer, .producer, .producer, .producer, .receive]).map
      (fun r => (r.1, r.2.output)) =
        some ([.ok peopleBatch, .ok cityBatch], { (Channel.new 2 []) with sender := false }) := by
    rw [allEffects_small]
    rfl
  obtain ⟨⟨log, s⟩, hrun, hlogs⟩ := Option.map_eq_some_iff.mp hlog
  obtain ⟨rfl, houtput⟩ := Prod.mk.inj hlogs
  have hrun := schedule_run .start hrun
  obtain ⟨-, hcomplete, -⟩ := pipeline_sequential smallConversions smallOptions _
    (parserWorkers_pos smallOptions.importOptions (some 4) 2) hclean hrun
  obtain ⟨-, hrows⟩ := hcomplete (.inr (by rw [houtput]; exact ⟨rfl, rfl⟩))
  exact ⟨s, hrun, (hrows fun e he => by simp at he).1⟩

/-- The worker of the people panics at their point `{x: 1, y: '}`, and the consumer receives the
batch of the cities. -/
theorem pipeline_skips_panic : ∃ s,
    Run (Step smallWorkers)
      (initial (allEffects smallConversions smallOptions (smallSources "\x7bx: 1, y: '\x7d")))
      [.ok cityBatch] s ∧
    s.Panicked ∧
    cut (allEffects smallConversions smallOptions (smallSources "\x7bx: 1, y: '\x7d")).flatten =
      [] := by
  have hlog : ((initial (allEffects smallConversions smallOptions
      (smallSources "\x7bx: 1, y: '\x7d"))).schedule smallWorkers
      [.producer, .producer, .producer, .producer, .worker 1, .worker 0, .producer, .worker 1,
        .producer, .producer, .receive, .producer, .producer, .producer, .producer, .producer,
        .producer]).map
      (fun r => (r.1, r.2.producer, r.2.workers.any Worker.panicked)) =
        some ([.ok cityBatch], .returned, true) := by
    rw [allEffects_broken]
    rfl
  obtain ⟨⟨log, s⟩, hrun, hlogs⟩ := Option.map_eq_some_iff.mp hlog
  obtain ⟨rfl, hstate⟩ := Prod.mk.inj hlogs
  exact ⟨s, schedule_run .start hrun, Prod.mk.inj hstate, by rw [allEffects_broken]; rfl⟩

end Velr.Import
