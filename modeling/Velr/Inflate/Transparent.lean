import Mathlib.Logic.Relation
import Velr.Inflate.Flow

/-!
# The inflating reader is transparent

The reader returns the bytes of its source and then its end, whatever the interleaving
(`reader_transparent`). Neither side can wait for the other for ever: a call in progress always
leaves a step to one of them, and a worker whose reader has gone runs to its end.
-/

namespace Velr.Inflate

open ByteString Concurrency

variable {ε : Type} {size : Nat} {s s' : State ε} {log : List (Event ε)} {e : Option (Event ε)}

/-- What holds in every interleaving. -/
structure Invariant (size : Nat) (log : List (Event ε)) (s : State ε) : Prop where
  ends : Ends s
  buffers : Buffers size s
  stage : Stage log s

/-- The invariant holds at first. -/
theorem invariant_initial (size : Nat) : Invariant size [] (initial size : State ε) := by
  refine ⟨ends_initial size, buffers_initial size,
    .streaming rfl ⟨?_, ?_, rfl, .receiving clean_nil⟩⟩
  · intro read hmem
    cases hmem
  · intro bytes n hc
    cases hc with
    | inl hc => cases hc
    | inr hc => cases hc

/-- Every step keeps it. -/
theorem Invariant.step (hsize : 0 < size) (h : Invariant size log s) (hs : Step s e s') :
    Invariant size (log ++ e.toList) s' := by
  obtain ⟨hends, hbuffers, hstage⟩ := h
  cases hs with
  | worker hs => exact ⟨hends.worker hs, hbuffers.worker hsize hs, hstage.worker hends hbuffers hs⟩
  | consumer hs =>
      have hs := consumerStep_cases hs
      exact ⟨hends.consumer hs, hbuffers.consumer hends hs, hstage.consumer hends hbuffers hs⟩

/-- So it holds in every state a run reaches. -/
theorem invariant_run (hsize : 0 < size) (h : Run Step (initial size) log s) :
    Invariant size log s :=
  h.invariant (invariant_initial size) fun _ _ _ _ hi hs => hi.step hsize hs

/-! ## Neither side waits for ever -/

/-- A step of the worker shows at most the source's answer. -/
theorem work_event {answer : Answer ε} (h : s.work answer = some (e, s')) :
    e = none ∨ e = some (.source answer) := by
  unfold State.work at h
  split at h
  · simp only [Option.bind_eq_bind, Option.bind_eq_some_iff] at h
    obtain ⟨⟨bytes, buffers⟩, _, h⟩ := h
    cases bytes <;> cases h <;> exact .inl rfl
  · split at h
    · cases h; exact .inl rfl
    · split at h
      · cases h; exact .inr rfl
      · split at h
        · cases h; exact .inr rfl
        · cases h
      · cases h; exact .inr rfl
      · cases h; exact .inr rfl
  · split at h
    · simp only [Option.bind_eq_bind, Option.bind_eq_some_iff] at h
      obtain ⟨⟨sent, chunks⟩, _, h⟩ := h
      cases h
      exact .inl rfl
    · cases h; exact .inl rfl
  · simp only [Option.bind_eq_bind, Option.bind_eq_some_iff] at h
    obtain ⟨⟨sent, chunks⟩, _, h⟩ := h
    cases h
    exact .inl rfl
  · cases h
  · cases h

/-- The worker waits only for a buffer or for room, and not once the reader has gone. -/
theorem worker_steps (hends : Ends s)
    (hfree : s.worker = .receiving → s.buffers.queue ≠ [] ∨ s.buffers.sender = false)
    (hroom : s.chunks.receiver = false ∨ s.chunks.queue = []) (hw : s.worker ≠ .gone) :
    ∃ e s', WorkerStep s e s' ∧ e ≠ some (.source .interrupted) := by
  have hsend : ∀ message, ∃ sent, s.chunks.send message = some sent := by
    intro message
    refine Option.ne_none_iff_exists'.mp fun hnone => ?_
    obtain ⟨halive, hfull⟩ := Channel.send_eq_none.mp hnone
    rw [hends.chunkCapacity] at hfull
    cases hroom with
    | inl hclosed => rw [halive] at hclosed; cases hclosed
    | inr hempty => simp [hempty] at hfull
  have hwork : (s.work (.bytes [])).isSome = true →
      ∃ e s', WorkerStep s e s' ∧ e ≠ some (.source .interrupted) := by
    intro h
    obtain ⟨⟨e, s'⟩, hwork⟩ := Option.isSome_iff_exists.mp h
    refine ⟨e, s', .work _ hwork, fun he => ?_⟩
    cases work_event hwork with
    | inl hnone => rw [hnone] at he; cases he
    | inr hsome => rw [hsome] at he; cases he
  cases hworker : s.worker with
  | receiving =>
      cases hrecv : s.buffers.recv with
      | none =>
          obtain ⟨hempty, hsender⟩ := Channel.recv_eq_none.mp hrecv
          cases hfree hworker with
          | inl hne => exact absurd hempty hne
          | inr hclosed => rw [hsender] at hclosed; cases hclosed
      | some received =>
          obtain ⟨bytes, buffers⟩ := received
          cases bytes <;> exact hwork (by simp [State.work, hworker, hrecv])
  | filling bytes length =>
      by_cases hfull : length = bytes.length
      · exact hwork (by simp [State.work, hworker, hfull])
      · exact hwork (by simp [State.work, hworker, hfull])
  | publishing bytes length error =>
      by_cases hzero : length = 0
      · exact hwork (by simp [State.work, hworker, hzero])
      · obtain ⟨⟨sent, chunks⟩, hsent⟩ := hsend (.ok { bytes, length })
        exact hwork (by simp [State.work, hworker, hzero, hsent])
  | failing error =>
      obtain ⟨⟨sent, chunks⟩, hsent⟩ := hsend (.error error)
      exact hwork (by simp [State.work, hworker, hsent])
  | exiting =>
      cases hsender : s.chunks.sender with
      | true => exact ⟨_, _, .dropSender hworker hsender, by simp⟩
      | false =>
          cases hreceiver : s.buffers.receiver with
          | true => exact ⟨_, _, .dropReceiver hworker hreceiver, by simp⟩
          | false => exact ⟨_, _, .exit hworker hsender hreceiver, by simp⟩
  | gone => exact absurd hworker hw

/-- A call in progress leaves a step to one side. -/
theorem progress (hends : Ends s) (hbuffers : Buffers size s) (hidle : s.consumer ≠ .idle)
    (hdropped : s.consumer ≠ .dropped) : ∃ e s', Step s e s' := by
  have hconsume : s.consume.isSome = true → ∃ e s', Step s e s' := by
    intro h
    obtain ⟨⟨e, s'⟩, hconsume⟩ := Option.isSome_iff_exists.mp h
    exact ⟨e, s', .consumer (.consume hconsume)⟩
  cases hc : s.consumer with
  | idle => exact absurd hc hidle
  | dropped => exact absurd hc hdropped
  | recycling bytes n =>
      -- The buffer in hand is one of the three, so the queue has room for it.
      have hroom : s.buffers.queue.length < inflatedBuffers := by
        have hboxes := hbuffers.boxes
        simp only [State.boxes, hc, Consumer.boxes, List.length_append, List.length_singleton]
          at hboxes
        omega
      cases hsender : s.buffers.sender with
      | false => exact hconsume (by simp [State.consume, hc, hsender])
      | true =>
          obtain ⟨⟨sent, buffers⟩, hsent⟩ : ∃ sent, s.buffers.send bytes = some sent := by
            refine Option.ne_none_iff_exists'.mp fun hnone => ?_
            have hfull := (Channel.send_eq_none.mp hnone).2
            rw [hends.bufferCapacity] at hfull
            omega
          exact hconsume (by simp [State.consume, hc, hsender, hsent])
  | receiving n =>
      cases hrecv : s.chunks.recv with
      | some received =>
          obtain ⟨message, chunks⟩ := received
          rcases message with _ | _ | _ <;> exact hconsume (by simp [State.consume, hc, hrecv])
      | none =>
          -- With no chunk in the queue and none here, a waiting worker finds all three buffers.
          obtain ⟨hempty, hsender⟩ := Channel.recv_eq_none.mp hrecv
          have hlent := hends.lent (by rw [hc]; rfl)
          have hdone := hends.closing (by rw [hc]; rfl)
          have hgone : s.worker ≠ .gone := fun hw => by
            rw [(hends.gone hw).1] at hsender
            cases hsender
          have hfree : s.worker = .receiving → s.buffers.queue ≠ [] ∨ s.buffers.sender = false := by
            intro hw
            refine .inl fun hnone => ?_
            have hexact := hbuffers.exact hdone (by rw [hw]; rfl)
            simp [State.boxes, hw, hc, hlent, hempty, hnone, Worker.boxes, Consumer.boxes,
              inflatedBuffers] at hexact
          obtain ⟨e, s', hs, _⟩ := worker_steps hends hfree (.inr hempty) hgone
          exact ⟨e, s', .worker hs⟩
  | finishing result =>
      by_cases hopen : s.chunks.receiver = true ∨ s.buffers.sender = true ∨ s.current.isSome = true
      · refine hconsume ?_
        simp only [State.consume, hc]
        split_ifs <;> simp_all
      · obtain ⟨hchunks, hsender, hcurrent⟩ : s.chunks.receiver = false ∧ s.buffers.sender = false ∧
            s.current = none := by simpa using hopen
        by_cases hgone : s.worker = .gone
        · cases hhandle : s.handle with
          | true => exact hconsume (by
              simp [State.consume, hc, hchunks, hsender, hcurrent, hhandle, hgone])
          | false =>
              cases result <;>
                exact hconsume (by simp [State.consume, hc, hchunks, hsender, hcurrent, hhandle])
        · obtain ⟨e, s', hs, _⟩ := worker_steps hends (fun _ => .inr hsender) (.inl hchunks) hgone
          exact ⟨e, s', .worker hs⟩

/-! ## The worker stops -/

/-- The reader has dropped its ends of the channels. -/
def State.Deserted (s : State ε) : Prop := s.chunks.receiver = false ∧ s.buffers.sender = false

/-- How many steps a deserted worker has left, retries of interrupted reads aside. -/
def State.left (size : Nat) (s : State ε) : Nat :=
  match s.worker with
  | .receiving => size + 7
  | .filling _ length => size - length + 6
  | .publishing _ _ _ => 5
  | .failing _ => 4
  | .exiting => s.chunks.sender.toNat + s.buffers.receiver.toNat + 1
  | .gone => 0

theorem left_exiting_le (chunks : Channel (Except ε Chunk)) (buffers : Channel Bytes) :
    chunks.sender.toNat + buffers.receiver.toNat + 1 ≤ 3 := by
  have := chunks.sender.toNat_le
  have := buffers.receiver.toNat_le
  omega

/-- Every step of a deserted worker but a retry brings it nearer to its end. -/
theorem WorkerStep.left (hs : WorkerStep s e s') (hsize : 0 < size) (hbuffers : Buffers size s)
    (hdeserted : s.Deserted) :
    s'.Deserted ∧ (e ≠ some (.source .interrupted) → s'.left size < s.left size) := by
  obtain ⟨hreceiver, hsender⟩ := hdeserted
  have hexit := left_exiting_le s.chunks s.buffers
  cases hs with
  | work answer hwork =>
      have hs := work_cases hwork
      cases hs with
      | take bytes queue hw hq =>
          exact ⟨⟨hreceiver, hsender⟩, fun _ => by simp only [State.left, hw]; omega⟩
      | starve hw _ | refused _ _ _ hw _ | unheard _ hw _ =>
          exact ⟨⟨hreceiver, hsender⟩, fun _ => by simp only [State.left, hw]; omega⟩
      | full _ hw | eof _ _ hw _ | error _ _ _ hw =>
          exact ⟨⟨hreceiver, hsender⟩, fun _ => by simp only [State.left, hw]; omega⟩
      | fill bytes length b data hw hfits =>
          have hbytes : bytes.length = size :=
            hbuffers.sized bytes (by simp [State.boxes, hw, Worker.boxes])
          exact ⟨⟨hreceiver, hsender⟩, fun _ => by simp only [State.left, hw]; omega⟩
      | retry _ _ _ => exact ⟨⟨hreceiver, hsender⟩, fun hne => absurd rfl hne⟩
      | publish _ _ _ _ _ halive _ => rw [hreceiver] at halive; cases halive
      | fail _ _ halive => rw [hreceiver] at halive; cases halive
      | skip bytes error hw =>
          have hbytes : bytes.length = size :=
            hbuffers.sized bytes (by simp [State.boxes, hw, Worker.boxes])
          refine ⟨⟨hreceiver, hsender⟩, fun _ => ?_⟩
          rcases afterPublish_cases bytes 0 error with ⟨_, _, h⟩ | ⟨_, _, h⟩ | ⟨_, hle, _⟩
          · simp only [State.left, hw, h]; omega
          · simp only [State.left, hw, h]; omega
          · omega
  | dropSender hw halive =>
      exact ⟨⟨hreceiver, hsender⟩, fun _ => by
        simp [State.left, hw, halive, Channel.dropSender]⟩
  | dropReceiver hw halive =>
      exact ⟨⟨hreceiver, hsender⟩, fun _ => by
        simp [State.left, hw, halive, Channel.dropReceiver]⟩
  | exit hw _ _ => exact ⟨⟨hreceiver, hsender⟩, fun _ => by simp [State.left, hw]⟩

/-- One step of either side. -/
def Moves (s s' : State ε) : Prop := ∃ e, Step s e s'

/-- A deserted worker can run to its end on its own. -/
theorem deserted_stops (hsize : 0 < size) : ∀ {s : State ε}, Ends s → Buffers size s →
    s.Deserted → ∃ s', Relation.ReflTransGen Moves s s' ∧ s'.worker = .gone := by
  intro s
  induction hn : s.left size using Nat.strongRecOn generalizing s with
  | ind n ih =>
      intro hends hbuffers hdeserted
      by_cases hgone : s.worker = .gone
      · exact ⟨s, .refl, hgone⟩
      · obtain ⟨e, s', hs, hne⟩ :=
          worker_steps hends (fun _ => .inr hdeserted.2) (.inl hdeserted.1) hgone
        obtain ⟨hdeserted', hleft⟩ := hs.left hsize hbuffers hdeserted
        obtain ⟨s'', hrun, hgone'⟩ := ih _ (by rw [← hn]; exact hleft hne) rfl (hends.worker hs)
          (hbuffers.worker hsize hs) hdeserted'
        exact ⟨s'', .head ⟨e, .worker hs⟩ hrun, hgone'⟩

/-- A reader that finishes drops its ends without waiting. -/
theorem finishing_deserts (hends : Ends s) (hbuffers : Buffers size s) (hdone : s.done = true) :
    ∃ s', Relation.ReflTransGen Moves s s' ∧ Ends s' ∧ Buffers size s' ∧ s'.Deserted := by
  have hstep : ∀ {s s' : State ε}, Ends s → Buffers size s → s.consume = some (none, s') →
      Moves s s' ∧ Ends s' ∧ Buffers size s' := fun hends hbuffers h =>
    ⟨⟨none, .consumer (.consume h)⟩, hends.consumer (.consume (consume_cases h)),
      hbuffers.consume hends (consume_cases h)⟩
  by_cases hopen : s.consumer.reading = true ∨ s.consumer = .dropped
  · obtain ⟨hchunks, hsender, _⟩ := hends.closed hdone hopen
    exact ⟨s, .refl, hends, hbuffers, hchunks, hsender⟩
  · obtain ⟨result, hc⟩ : ∃ result, s.consumer = .finishing result := by
      cases hc : s.consumer with
      | finishing result => exact ⟨result, rfl⟩
      | _ => simp [hc, Consumer.reading] at hopen
    have hfirst : ∃ s', Relation.ReflTransGen Moves s s' ∧ Ends s' ∧ Buffers size s' ∧
        s'.consumer = .finishing result ∧ s'.chunks.receiver = false := by
      cases hchunks : s.chunks.receiver with
      | false => exact ⟨s, .refl, hends, hbuffers, hc, hchunks⟩
      | true =>
          obtain ⟨hmove, hends', hbuffers'⟩ := hstep hends hbuffers
            (by rw [State.consume, hc]; exact if_pos hchunks)
          exact ⟨_, .single hmove, hends', hbuffers', rfl, rfl⟩
    obtain ⟨s₁, hrun, hends₁, hbuffers₁, hc₁, hchunks₁⟩ := hfirst
    cases hsender : s₁.buffers.sender with
    | false => exact ⟨s₁, hrun, hends₁, hbuffers₁, hchunks₁, hsender⟩
    | true =>
        obtain ⟨hmove, hends', hbuffers'⟩ := hstep hends₁ hbuffers₁
          (by rw [State.consume, hc₁]; simp only [hchunks₁]; exact if_pos hsender)
        exact ⟨_, hrun.tail hmove, hends', hbuffers', hchunks₁, rfl⟩

/-! ## Transparency -/

/-- What the reader has returned: reads of the source's first bytes, and, once these are all its
bytes, its end (no bytes or its error) followed by reads of no bytes. -/
def Delivers (log : List (Event ε)) : Prop :=
  ∃ reads tail, results log = reads ++ tail ∧ Reads reads ∧
    delivered reads <+: content (answers log) ∧
    (tail = [] ∨ ∃ n result zeros last, tail = (n, result) :: zeros ∧ Zeros zeros ∧
      delivered reads = content (answers log) ∧ ending (answers log) = some last ∧
      Last last result)

/-- In every stage the reads have returned bytes of the source, in order, and its end behind the
last. -/
theorem Stage.delivers (h : Stage log s) : Delivers log := by
  cases h with
  | streaming _ h =>
      refine ⟨results log, [], (List.append_nil _).symm, h.reads, ?_, .inl rfl⟩
      rw [h.flow]
      exact List.prefix_append _ _
  | abandoned _ _ hreads hprefix =>
      exact ⟨results log, [], (List.append_nil _).symm, hreads, hprefix, .inl rfl⟩
  | closing n result last _ _ _ hreads hall _ _ =>
      exact ⟨results log, [], (List.append_nil _).symm, hreads,
        hall ▸ List.prefix_rfl, .inl rfl⟩
  | closed reads n result zeros last _ _ _ hres hreads hzeros hall hend hlast =>
      exact ⟨reads, _, hres, hreads, hall ▸ List.prefix_rfl,
        .inr ⟨n, result, zeros, last, rfl, hzeros, hall, hend, hlast⟩⟩

/-- The background reader is transparent in every interleaving and for every source: it returns the
source's bytes and then its end; there are never more than the three buffers; a call in progress
leaves a step to one side; and once the reader has finished or been dropped the worker can stop, in
a bounded number of steps besides retries. -/
theorem reader_transparent (hsize : 0 < size) (h : Run Step (initial size) log s) :
    Delivers log ∧ s.boxes.length ≤ inflatedBuffers ∧
    (s.consumer ≠ .idle → s.consumer ≠ .dropped → ∃ e s', Step s e s') ∧
    (s.done = true → ∃ s', Relation.ReflTransGen Moves s s' ∧ s'.worker = .gone) ∧
    (s.Deserted → ∀ e s', WorkerStep s e s' → e ≠ some (.source .interrupted) →
      s'.Deserted ∧ s'.left size < s.left size) := by
  obtain ⟨hends, hbuffers, hstage⟩ := invariant_run hsize h
  refine ⟨hstage.delivers, hbuffers.boxes, progress hends hbuffers, fun hdone => ?_,
    fun hdeserted e s' hs hne => ?_⟩
  · obtain ⟨s₁, hrun, hends₁, hbuffers₁, hdeserted⟩ := finishing_deserts hends hbuffers hdone
    obtain ⟨s₂, hrun', hgone⟩ := deserted_stops hsize hends₁ hbuffers₁ hdeserted
    exact ⟨s₂, hrun.trans hrun', hgone⟩
  · obtain ⟨hdeserted', hleft⟩ := hs.left hsize hbuffers hdeserted
    exact ⟨hdeserted', hleft hne⟩

/-- A source of one byte, an interruption and an error, read through buffers of two bytes. -/
def smallLog : List (Event String) :=
  [.source (.bytes [7]), .source .interrupted, .source (.error "bad"), .returned 5 (.ok [7]),
    .returned 5 (.error "bad"), .returned 3 (.ok [])]

/-- What a scheduler picks. -/
inductive Choice (ε : Type) where
  | work (answer : Answer ε)
  | dropSender
  | dropReceiver
  | exit
  | read (n : Nat)
  | consume

/-- The step a scheduler picks, if it is one. -/
def State.act (s : State ε) : Choice ε → Option (Option (Event ε) × State ε)
  | .work answer => s.work answer
  | .dropSender =>
      match s.worker, s.chunks.sender with
      | .exiting, true => some (none, { s with chunks := s.chunks.dropSender })
      | _, _ => none
  | .dropReceiver =>
      match s.worker, s.buffers.receiver with
      | .exiting, true => some (none, { s with buffers := s.buffers.dropReceiver })
      | _, _ => none
  | .exit =>
      match s.worker, s.chunks.sender, s.buffers.receiver with
      | .exiting, false, false => some (none, { s with worker := .gone })
      | _, _, _ => none
  | .read n =>
      match s.consumer with
      | .idle => some (s.read n)
      | _ => none
  | .consume => s.consume

/-- The log of a schedule. -/
def State.schedule : List (Choice ε) → State ε → Option (List (Event ε) × State ε)
  | [], s => some ([], s)
  | choice :: choices, s => do
      let (e, s) ← s.act choice
      let (log, s) ← s.schedule choices
      some (e.toList ++ log, s)

/-- What a choice does is a step. -/
theorem act_step {choice : Choice ε} (h : s.act choice = some (e, s')) : Step s e s' := by
  unfold State.act at h
  split at h
  · exact .worker (.work _ h)
  · split at h
    · next hw hs => cases h; exact .worker (.dropSender hw hs)
    · cases h
  · split at h
    · next hw hr => cases h; exact .worker (.dropReceiver hw hr)
    · cases h
  · split at h
    · next hw hs hr => cases h; exact .worker (.exit hw hs hr)
    · cases h
  · split at h
    · next n _ hc =>
        simp only [Option.some.injEq] at h
        have hread := ConsumerStep.read n hc
        rw [h] at hread
        exact .consumer hread
    · cases h
  · exact .consumer (.consume h)

/-- A schedule of choices is a run. -/
theorem schedule_run {s₀ : State ε} : ∀ {choices : List (Choice ε)} {log log' : List (Event ε)}
    {s s' : State ε}, Run Step s₀ log s → s.schedule choices = some (log', s') →
    Run Step s₀ (log ++ log') s'
  | [], log, log', s, s', hrun, h => by
      cases h
      rwa [List.append_nil]
  | choice :: choices, log, log', s, s', hrun, h => by
      simp only [State.schedule, Option.bind_eq_bind, Option.bind_eq_some_iff] at h
      obtain ⟨⟨e, s₁⟩, hact, ⟨log₁, s₂⟩, hrest, h⟩ := h
      cases h
      rw [← List.append_assoc]
      exact schedule_run (hrun.step (act_step hact)) hrest

/-- The byte, the error, and then nothing. -/
theorem reader_transparent_small : Delivers smallLog := by
  have hlog : ((initial 2 : State String).schedule [.work .interrupted, .work (.bytes [7]),
      .work .interrupted, .work (.error "bad"), .work .interrupted, .read 5, .consume,
      .work .interrupted, .read 5, .consume, .consume, .consume, .dropSender, .dropReceiver, .exit,
      .consume, .consume, .consume, .read 3]).map Prod.fst = some smallLog := by
    rfl
  obtain ⟨⟨log, s⟩, hrun, rfl⟩ := Option.map_eq_some_iff.mp hlog
  exact (reader_transparent (by decide : 0 < 2) (schedule_run .start hrun)).1

end Velr.Inflate
