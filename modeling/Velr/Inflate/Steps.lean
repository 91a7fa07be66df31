import Velr.Inflate.Reader

/-!
# The steps of the inflating reader

What each step of the worker (`Work`) and of the reader (`Use`) needs and does, as one case analysis
each; the invariants are proved from these and do not look into the step functions.
-/

namespace Velr.Inflate

open ByteString Concurrency

variable {ε : Type} {s s' : State ε} {e : Option (Event ε)}

/-- The worker has left its loop. -/
def Worker.over : Worker ε → Bool
  | .exiting | .gone => true
  | _ => false

/-- The steps of the worker's loop. -/
inductive Work (s : State ε) : Option (Event ε) → State ε → Prop where
  | take (bytes queue) : s.worker = .receiving → s.buffers.queue = bytes :: queue →
      Work s none
        { s with buffers := { s.buffers with queue }, worker := .filling bytes 0 }
  | starve : s.worker = .receiving → s.buffers.sender = false →
      Work s none { s with worker := .exiting }
  | full (bytes) : s.worker = .filling bytes bytes.length →
      Work s none { s with worker := .publishing bytes bytes.length none }
  | eof (bytes length) : s.worker = .filling bytes length → length ≠ bytes.length →
      Work s (some (.source (.bytes []))) { s with worker := .publishing bytes length none }
  | fill (bytes length b data) : s.worker = .filling bytes length →
      length + (data.length + 1) ≤ bytes.length →
      Work s (some (.source (.bytes (b :: data))))
        { s with
          worker := .filling (overwrite bytes length (b :: data)) (length + (data.length + 1)) }
  | retry (bytes length) : s.worker = .filling bytes length → Work s (some (.source .interrupted)) s
  | error (bytes length error) : s.worker = .filling bytes length →
      Work s (some (.source (.error error)))
        { s with worker := .publishing bytes length (some error) }
  | refused (bytes length error) : s.worker = .publishing bytes length error →
      s.chunks.receiver = false → Work s none { s with worker := .exiting }
  | publish (bytes length error) : s.worker = .publishing bytes length error → length ≠ 0 →
      s.chunks.receiver = true → s.chunks.queue.length < s.chunks.capacity →
      Work s none
        { s with
          chunks := { s.chunks with queue := s.chunks.queue ++ [.ok { bytes, length }] }
          worker := afterPublish bytes length error }
  | skip (bytes error) : s.worker = .publishing bytes 0 error →
      Work s none { s with worker := afterPublish bytes 0 error }
  | unheard (error) : s.worker = .failing error → s.chunks.receiver = false →
      Work s none { s with worker := .exiting }
  | fail (error) : s.worker = .failing error → s.chunks.receiver = true →
      Work s none
        { s with
          chunks := { s.chunks with queue := s.chunks.queue ++ [.error error] }
          worker := .exiting }

/-- What a round of the worker can do. -/
theorem work_cases {answer : Answer ε} (h : s.work answer = some (e, s')) : Work s e s' := by
  unfold State.work at h
  split at h
  · next hw =>
      simp only [Option.bind_eq_bind, Option.bind_eq_some_iff] at h
      obtain ⟨⟨message, buffers⟩, hrecv, h⟩ := h
      cases Channel.recv_cases hrecv with
      | inl hmessage =>
          obtain ⟨bytes, queue, rfl, hq, rfl⟩ := hmessage
          cases h
          exact .take bytes queue hw hq
      | inr hnone =>
          obtain ⟨rfl, _, hsender, rfl⟩ := hnone
          cases h
          exact .starve hw hsender
  · next bytes length hw =>
      split at h
      · next hfull => cases h; subst hfull; exact .full bytes hw
      · next hfull =>
          split at h
          · cases h; exact .eof bytes length hw hfull
          · next data hdata =>
              split at h
              · next hfits =>
                  cases h
                  cases data with
                  | nil => exact absurd rfl hdata
                  | cons b data => exact .fill bytes length b data hw hfits
              · cases h
          · cases h; exact .retry bytes length hw
          · next error => cases h; exact .error bytes length error hw
  · next bytes length error hw =>
      split at h
      · next hpos =>
          simp only [Option.bind_eq_bind, Option.bind_eq_some_iff] at h
          obtain ⟨⟨sent, chunks⟩, hsend, h⟩ := h
          cases Channel.send_cases hsend with
          | inl hrefused =>
              obtain ⟨rfl, hreceiver, rfl⟩ := hrefused
              cases h
              exact .refused bytes length error hw hreceiver
          | inr hsent =>
              obtain ⟨rfl, hreceiver, hroom, rfl⟩ := hsent
              cases h
              exact .publish bytes length error hw hpos hreceiver hroom
      · next hzero =>
          cases h
          obtain rfl : length = 0 := by omega
          exact .skip bytes error hw
  · next error hw =>
      simp only [Option.bind_eq_bind, Option.bind_eq_some_iff] at h
      obtain ⟨⟨sent, chunks⟩, hsend, h⟩ := h
      cases Channel.send_cases hsend with
      | inl hrefused =>
          obtain ⟨_, hreceiver, rfl⟩ := hrefused
          cases h
          exact .unheard error hw hreceiver
      | inr hsent =>
          obtain ⟨_, hreceiver, _, rfl⟩ := hsent
          cases h
          exact .fail error hw hreceiver
  · cases h
  · cases h

/-- The steps of a call that has begun. -/
inductive Consume (s : State ε) : Option (Event ε) → State ε → Prop where
  | recycle (bytes n) : s.consumer = .recycling bytes n → s.buffers.receiver = true →
      s.buffers.queue.length < s.buffers.capacity →
      Consume s none
        { s with
          buffers := { s.buffers with queue := s.buffers.queue ++ [bytes] }
          consumer := .receiving n }
  | discard (bytes n) : s.consumer = .recycling bytes n →
      s.buffers.receiver = false ∨ s.buffers.sender = false →
      Consume s none { s with consumer := .receiving n }
  | chunk (n chunk queue) : s.consumer = .receiving n → s.chunks.queue = .ok chunk :: queue →
      Consume s (some (.returned n (.ok (slice chunk.bytes 0 (min chunk.length n)))))
        { s with
          chunks := { s.chunks with queue }
          current := some chunk
          position := min chunk.length n
          consumer := .idle }
  | error (n error queue) : s.consumer = .receiving n → s.chunks.queue = .error error :: queue →
      Consume s none (State.finish { s with chunks := { s.chunks with queue } }
        (some (n, .error error)))
  | disconnected (n) : s.consumer = .receiving n → s.chunks.queue = [] → s.chunks.sender = false →
      Consume s none (s.finish (some (n, .ok [])))
  | dropChunks (result) : s.consumer = .finishing result → s.chunks.receiver = true →
      Consume s none { s with chunks := s.chunks.dropReceiver }
  | dropBuffers (result) : s.consumer = .finishing result → s.buffers.sender = true →
      Consume s none { s with buffers := s.buffers.dropSender }
  | dropCurrent (result) : s.consumer = .finishing result →
      Consume s none { s with current := none }
  | join (result) : s.consumer = .finishing result → s.worker = .gone →
      Consume s none { s with handle := false }
  | finished (n result) : s.consumer = .finishing (some (n, result)) → s.chunks.receiver = false →
      s.buffers.sender = false → s.current = none →
      Consume s (some (.returned n result)) { s with consumer := .idle }
  | dropped : s.consumer = .finishing none → s.chunks.receiver = false → s.buffers.sender = false →
      s.current = none → Consume s none { s with consumer := .dropped }

/-- What a `read` can do next. -/
theorem consume_cases (h : s.consume = some (e, s')) : Consume s e s' := by
  unfold State.consume at h
  split at h
  · cases h
  · cases h
  · next bytes n hc =>
      split at h
      · simp only [Option.bind_eq_bind, Option.bind_eq_some_iff] at h
        obtain ⟨⟨sent, buffers⟩, hsend, h⟩ := h
        cases Channel.send_cases hsend with
        | inl hrefused =>
            obtain ⟨_, hreceiver, rfl⟩ := hrefused
            cases h
            exact .discard bytes n hc (.inl hreceiver)
        | inr hsent =>
            obtain ⟨_, hreceiver, hroom, rfl⟩ := hsent
            cases h
            exact .recycle bytes n hc hreceiver hroom
      · next hsender =>
          cases h
          exact .discard bytes n hc (.inr (by simpa using hsender))
  · next n hc =>
      simp only [Option.bind_eq_bind, Option.bind_eq_some_iff] at h
      obtain ⟨⟨message, chunks⟩, hrecv, h⟩ := h
      cases Channel.recv_cases hrecv with
      | inl hmessage =>
          obtain ⟨message, queue, rfl, hq, rfl⟩ := hmessage
          cases message with
          | ok chunk => cases h; simpa using Consume.chunk n chunk queue hc hq
          | error error => cases h; exact .error n error queue hc hq
      | inr hnone =>
          obtain ⟨rfl, hq, hsender, rfl⟩ := hnone
          cases h
          exact .disconnected n hc hq hsender
  · next result hc =>
      split at h
      · next hchunks => cases h; exact .dropChunks result hc hchunks
      · next hchunks =>
          split at h
          · next hbuffers => cases h; exact .dropBuffers result hc hbuffers
          · next hbuffers =>
              split at h
              · cases h; exact .dropCurrent result hc
              · next hcurrent =>
                  split at h
                  · split at h
                    · next hw => cases h; exact .join result hc hw
                    · cases h
                  · split at h
                    · cases h
                      exact .finished _ _ hc (by simpa using hchunks) (by simpa using hbuffers)
                        (by simpa using hcurrent)
                    · cases h
                      exact .dropped hc (by simpa using hchunks) (by simpa using hbuffers)
                        (by simpa using hcurrent)

/-- The reader's steps inside a call, and the start of one, as one case analysis. -/
inductive Use (s : State ε) : Option (Event ε) → State ε → Prop where
  | consume {e : Option (Event ε)} {s' : State ε} : Consume s e s' → Use s e s'
  | nothing (n) : s.consumer = .idle → n = 0 ∨ s.done = true → Use s (some (.returned n (.ok []))) s
  | fetch (n) : s.consumer = .idle → n ≠ 0 → s.done = false → s.current = none →
      Use s none { s with consumer := .receiving n }
  | recycle (n chunk) : s.consumer = .idle → n ≠ 0 → s.done = false → s.current = some chunk →
      s.position = chunk.length →
      Use s none { s with current := none, consumer := .recycling chunk.bytes n }
  | copy (n chunk) : s.consumer = .idle → n ≠ 0 → s.done = false → s.current = some chunk →
      s.position ≠ chunk.length →
      Use s (some (.returned n (.ok (slice chunk.bytes s.position
          (min (chunk.length - s.position) n)))))
        { s with position := s.position + min (chunk.length - s.position) n, consumer := .idle }
  | drop : s.consumer = .idle → Use s none (s.finish none)

/-- What the reader, or its caller, can do next. -/
theorem consumerStep_cases (h : ConsumerStep s e s') : Use s e s' := by
  cases h with
  | consume h => exact .consume (consume_cases h)
  | drop hc => exact .drop hc
  | read n hc =>
      unfold State.read
      split
      · next hnothing => exact .nothing n hc hnothing
      · next hread =>
          have hn : n ≠ 0 := fun h => hread (.inl h)
          have hdone : s.done = false := by simpa using fun h => hread (.inr h)
          split
          · next hcurrent => exact .fetch n hc hn hdone hcurrent
          · next chunk hcurrent =>
              split
              · next hposition => exact .recycle n chunk hc hn hdone hcurrent hposition
              · next hposition => exact .copy n chunk hc hn hdone hcurrent hposition

end Velr.Inflate
