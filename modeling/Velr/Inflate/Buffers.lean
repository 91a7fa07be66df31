import Velr.Inflate.Steps

/-!
# Buffers and ends of channels

`Ends` says which ends of the two channels are alive where the worker and the reader stand, and
`Buffers` that the buffers never exceed the first three, which is what keeps the two sides from
waiting for each other.
-/

namespace Velr.Inflate

open ByteString Concurrency

variable {ε : Type} {size : Nat} {s s' : State ε} {e : Option (Event ε)}

/-- The buffer in the worker's hands. -/
def Worker.boxes : Worker ε → List Bytes
  | .filling bytes _ | .publishing bytes _ _ => [bytes]
  | _ => []

/-- How much of it is filled. -/
def Worker.length : Worker ε → Nat
  | .filling _ length | .publishing _ length _ => length
  | _ => 0

/-- The buffer a `read` is sending back. -/
def Consumer.boxes : Consumer ε → List Bytes
  | .recycling bytes _ => [bytes]
  | _ => []

/-- The chunks in the queue. -/
def chunksOf (queue : List (Except ε Chunk)) : List Chunk := queue.filterMap Except.toOption

/-- Every buffer there is. -/
def State.boxes (s : State ε) : List Bytes :=
  s.buffers.queue ++ s.worker.boxes ++ (chunksOf s.chunks.queue).map Chunk.bytes ++
    s.current.toList.map Chunk.bytes ++ s.consumer.boxes

/-- The worker is in its loop, with no error to send. -/
def Worker.cycling : Worker ε → Bool
  | .receiving | .filling _ _ | .publishing _ _ _ => true
  | _ => false

theorem Worker.over_of_cycling {w : Worker ε} (h : w.cycling = true) : w.over = false := by
  cases w <;> first | rfl | cases h

/-- A `read` waits on a channel. -/
def Consumer.waiting : Consumer ε → Bool
  | .recycling _ _ | .receiving _ => true
  | _ => false

/-- The reader has its ends of the channels and no call to `finish` has begun. -/
def Consumer.reading : Consumer ε → Bool
  | .idle | .recycling _ _ | .receiving _ => true
  | _ => false

/-- The ends of the channels that are alive. -/
structure Ends (s : State ε) : Prop where
  chunkCapacity : s.chunks.capacity = 1
  bufferCapacity : s.buffers.capacity = inflatedBuffers
  lent : s.consumer.waiting = true → s.current = none
  working : s.worker.over = false → s.chunks.sender = true ∧ s.buffers.receiver = true
  gone : s.worker = .gone → s.chunks.sender = false ∧ s.buffers.receiver = false
  reading : s.done = false → s.consumer.reading = true ∧ s.chunks.receiver = true ∧
    s.buffers.sender = true
  closing : s.consumer.waiting = true → s.done = false
  joined : s.handle = false → s.worker = .gone
  closed : s.done = true → s.consumer.reading = true ∨ s.consumer = .dropped →
    s.chunks.receiver = false ∧ s.buffers.sender = false ∧ s.current = none

/-- The buffers: they have one size and there are no more than at first; while both sides work none
is lost. -/
structure Buffers (size : Nat) (s : State ε) : Prop where
  sized : ∀ bytes ∈ s.boxes, bytes.length = size
  boxes : s.boxes.length ≤ inflatedBuffers
  exact : s.done = false → s.worker.cycling = true → s.boxes.length = inflatedBuffers
  filled : s.worker.length ≤ size
  chunked : ∀ chunk ∈ chunksOf s.chunks.queue, 0 < chunk.length ∧ chunk.length ≤ size
  current : ∀ chunk, s.current = some chunk → s.position ≤ chunk.length ∧ chunk.length ≤ size

@[simp] theorem chunksOf_append (queue queue' : List (Except ε Chunk)) :
    chunksOf (queue ++ queue') = chunksOf queue ++ chunksOf queue' := List.filterMap_append

@[simp] theorem chunksOf_ok (chunk : Chunk) (queue : List (Except ε Chunk)) :
    chunksOf (.ok chunk :: queue) = chunk :: chunksOf queue := rfl

@[simp] theorem chunksOf_error (error : ε) (queue : List (Except ε Chunk)) :
    chunksOf (.error error :: queue) = chunksOf queue := rfl

@[simp] theorem chunksOf_nil : chunksOf ([] : List (Except ε Chunk)) = [] := rfl

/-- At first every end of a channel is alive. -/
theorem ends_initial (size : Nat) : Ends (initial size : State ε) := by
  constructor <;> simp [initial, Channel.new, Worker.over, Consumer.waiting, Consumer.reading]

/-- At first the buffers are in the queue of free ones, each of the one size. -/
theorem buffers_initial (size : Nat) : Buffers size (initial size : State ε) := by
  constructor <;> simp [initial, Channel.new, State.boxes, Worker.boxes, Consumer.boxes,
    Worker.length]

/-- Behind a round the worker waits for a buffer, has an error to send, or is on its way out. -/
theorem afterPublish_cases (bytes : Bytes) (length : Nat) (error : Option ε) :
    (∃ e, error = some e ∧ afterPublish bytes length error = .failing e) ∨
    (error = none ∧ length < bytes.length ∧ afterPublish bytes length error = .exiting) ∨
    (error = none ∧ bytes.length ≤ length ∧ afterPublish bytes length error = .receiving) := by
  cases error with
  | some e => exact .inl ⟨e, rfl, rfl⟩
  | none =>
      by_cases hlength : length < bytes.length
      · exact .inr (.inl ⟨rfl, hlength, if_pos hlength⟩)
      · exact .inr (.inr ⟨rfl, by omega, if_neg hlength⟩)

@[simp] theorem afterPublish_ne_gone (bytes : Bytes) (length : Nat) (error : Option ε) :
    afterPublish bytes length error ≠ .gone := by
  rcases afterPublish_cases bytes length error with ⟨_, _, h⟩ | ⟨_, _, h⟩ | ⟨_, _, h⟩ <;> simp [h]

@[simp] theorem afterPublish_boxes (bytes : Bytes) (length : Nat) (error : Option ε) :
    (afterPublish bytes length error).boxes = [] := by
  rcases afterPublish_cases bytes length error with ⟨_, _, h⟩ | ⟨_, _, h⟩ | ⟨_, _, h⟩ <;>
    simp [h, Worker.boxes]

@[simp] theorem afterPublish_length (bytes : Bytes) (length : Nat) (error : Option ε) :
    (afterPublish bytes length error).length = 0 := by
  rcases afterPublish_cases bytes length error with ⟨_, _, h⟩ | ⟨_, _, h⟩ | ⟨_, _, h⟩ <;>
    simp [h, Worker.length]

/-- A round of the worker keeps account of the ends. -/
theorem Ends.work (h : Ends s) (hs : Work s e s') : Ends s' := by
  have h' := h
  obtain ⟨h1, h2, h3, h4, h5, h6, h7, h8, h9⟩ := h
  cases hs with
  | retry _ _ hw => exact h'
  | take _ _ hw | starve hw | full _ hw | eof _ _ hw | fill _ _ _ _ hw | error _ _ _ hw
  | refused _ _ _ hw | publish _ _ _ hw | skip _ _ hw | unheard _ hw | fail _ hw =>
      have hends := h4 (by rw [hw]; rfl)
      have hjoined : s.handle ≠ false := fun hhandle => by
        rw [h8 hhandle] at hw
        cases hw
      exact ⟨h1, h2, h3, fun _ => hends, by simp, h6, h7, fun hhandle => absurd hhandle hjoined, h9⟩

/-- A round of the worker loses no buffer. -/
theorem Buffers.work (h : Buffers size s) (hsize : 0 < size) (hs : Work s e s') :
    Buffers size s' := by
  have h' := h
  obtain ⟨h1, h2, h3, h4, h5, h6⟩ := h
  simp only [State.boxes, List.mem_append, List.length_append] at h1 h2 h3
  cases hs with
  | take bytes queue hw hq =>
      simp only [hw, hq, Worker.boxes, Worker.cycling, Worker.length] at h1 h2 h3 h4
      constructor <;> simp only [State.boxes, Worker.boxes, Worker.cycling, Worker.length] <;> grind
  | starve hw _ | unheard _ hw _ =>
      simp only [hw, Worker.boxes, Worker.cycling, Worker.length] at h1 h2 h3 h4
      constructor <;> simp only [State.boxes, Worker.boxes, Worker.cycling, Worker.length] <;> grind
  | full bytes hw | eof bytes length hw hfull | error bytes length error hw =>
      simp only [hw, Worker.boxes, Worker.cycling, Worker.length] at h1 h2 h3 h4
      constructor <;> simp only [State.boxes, Worker.boxes, Worker.cycling, Worker.length] <;> grind
  | fill bytes length b data hw hfits =>
      simp only [hw, Worker.boxes, Worker.cycling, Worker.length] at h1 h2 h3 h4
      have hbytes : bytes.length = size := h1 bytes (by simp)
      have hlength : (overwrite bytes length (b :: data)).length = size := by
        rw [length_overwrite (by simpa using hfits), hbytes]
      constructor <;> simp only [State.boxes, Worker.boxes, Worker.cycling, Worker.length] <;> grind
  | retry _ _ hw => exact h'
  | refused bytes length error hw hreceiver =>
      simp only [hw, Worker.boxes, Worker.cycling, Worker.length] at h1 h2 h3 h4
      constructor <;> simp only [State.boxes, Worker.boxes, Worker.cycling, Worker.length] <;> grind
  | publish bytes length error hw hpos hreceiver hroom =>
      simp only [hw, Worker.boxes, Worker.cycling, Worker.length] at h1 h2 h3 h4
      constructor <;> simp only [State.boxes, afterPublish_boxes, afterPublish_length,
        chunksOf_append, chunksOf_ok, chunksOf_nil] <;> grind
  | skip bytes error hw =>
      simp only [hw, Worker.boxes, Worker.cycling, Worker.length] at h1 h2 h3 h4
      have hbytes : bytes.length = size := h1 bytes (by simp)
      have hcycling : (afterPublish bytes 0 error).cycling = false := by
        rcases afterPublish_cases bytes 0 error with ⟨_, _, h⟩ | ⟨_, _, h⟩ | ⟨_, hle, h⟩
        · rw [h]; rfl
        · rw [h]; rfl
        · omega
      constructor <;> simp only [State.boxes, afterPublish_boxes, afterPublish_length] <;> grind
  | fail error hw hreceiver =>
      simp only [hw, Worker.boxes, Worker.cycling, Worker.length] at h1 h2 h3 h4
      constructor <;> simp only [State.boxes, Worker.boxes, Worker.cycling, Worker.length,
        chunksOf_append, chunksOf_error, chunksOf_nil] <;> grind

/-- A step of the worker closes an end only on its way out. -/
theorem Ends.worker (h : Ends s) (hs : WorkerStep s e s') : Ends s' := by
  cases hs with
  | work answer hwork => exact h.work (work_cases hwork)
  | dropSender hw _ | dropReceiver hw _ | exit hw _ _ =>
      obtain ⟨h1, h2, h3, h4, h5, h6, h7, h8, h9⟩ := h
      constructor <;> simp_all [Channel.dropSender, Channel.dropReceiver, Worker.over]

/-- A step of the worker loses no buffer while both sides work. -/
theorem Buffers.worker (h : Buffers size s) (hsize : 0 < size) (hs : WorkerStep s e s') :
    Buffers size s' := by
  cases hs with
  | work answer hwork => exact h.work hsize (work_cases hwork)
  | dropSender hw _ | dropReceiver hw _ | exit hw _ _ =>
      obtain ⟨h1, h2, h3, h4, h5, h6⟩ := h
      simp only [State.boxes, hw, Worker.boxes, Worker.length] at h1 h2 h3 h4
      constructor <;> simp only [State.boxes, Worker.boxes, Worker.length, Channel.dropSender,
        Channel.dropReceiver] <;> grind [Worker.cycling]

/-- A step of the reader keeps account of the ends it closes. -/
theorem Ends.consumer (h : Ends s) (hs : Use s e s') : Ends s' := by
  have h' := h
  obtain ⟨h1, h2, h3, h4, h5, h6, h7, h8, h9⟩ := h
  cases hs with
  | consume hs =>
      cases hs <;> constructor <;>
        simp_all [Channel.dropSender, Channel.dropReceiver, Consumer.waiting, Consumer.reading,
          State.finish]
  | nothing n hc hn => exact h'
  | fetch | recycle | copy | drop =>
      constructor <;> simp_all [Consumer.waiting, Consumer.reading, State.finish]

/-- When the reader is done buffers may go missing. -/
theorem Buffers.lose (h : Buffers size s) (hdone : s'.done = true)
    (hboxes : s'.boxes.Sublist s.boxes) (hworker : s'.worker = s.worker)
    (hchunks : chunksOf s'.chunks.queue ⊆ chunksOf s.chunks.queue)
    (hcurrent : ∀ chunk, s'.current = some chunk → s.current = some chunk ∧
      s'.position = s.position) : Buffers size s' where
  sized bytes hbytes := h.sized bytes (hboxes.subset hbytes)
  boxes := Nat.le_trans hboxes.length_le h.boxes
  exact hopen := by rw [hdone] at hopen; cases hopen
  filled := hworker ▸ h.filled
  chunked chunk hchunk := h.chunked chunk (hchunks hchunk)
  current chunk hchunk := by
    obtain ⟨hsame, hposition⟩ := hcurrent chunk hchunk
    rw [hposition]
    exact h.current chunk hsame

/-- A `read` that goes on loses no buffer. -/
theorem Buffers.consume (h : Buffers size s) (hends : Ends s) (hs : Consume s e s') :
    Buffers size s' := by
  have h' := h
  have hlent := hends.lent
  obtain ⟨h1, h2, h3, h4, h5, h6⟩ := h
  simp only [State.boxes, List.mem_append, List.length_append] at h1 h2 h3
  cases hs with
  | recycle bytes n hc _ _ =>
      simp only [hc, Consumer.boxes] at h1 h2 h3
      constructor <;> simp only [State.boxes, Consumer.boxes] <;> grind
  | discard bytes n hc hclosed =>
      have hreading := hends.reading
      have hworking := fun h => hends.working (Worker.over_of_cycling h)
      simp only [hc, Consumer.boxes] at h1 h2 h3
      constructor <;> simp only [State.boxes, Consumer.boxes] <;> grind
  | chunk n chunk queue hc hq =>
      simp only [hlent (by rw [hc]; rfl), hc, hq, Consumer.boxes, chunksOf_ok, List.map_cons]
        at h1 h2 h3 h5
      constructor <;> simp only [State.boxes, Consumer.boxes, Option.toList_some, List.map_cons,
        List.map_nil] <;> grind
  | error n error queue hc hq =>
      simp only [hc, hq, Consumer.boxes, chunksOf_error] at h1 h2 h3 h5
      constructor <;> simp only [State.boxes, State.finish, Consumer.boxes] <;> grind
  | disconnected n hc _ _ | finished n result hc _ _ _ =>
      simp only [hc, Consumer.boxes] at h1 h2 h3
      constructor <;> simp only [State.boxes, State.finish, Consumer.boxes] <;> grind
  | join result hc _ | dropped hc _ _ _ =>
      simp only [hc, Consumer.boxes] at h1 h2 h3
      constructor <;> simp only [State.boxes, hc, Consumer.boxes] <;> grind
  | dropChunks result hc hr | dropBuffers result hc hr | dropCurrent result hc =>
      have hdone : s.done = true := by
        cases hd : s.done with
        | true => rfl
        | false => simpa [hc, Consumer.reading] using (hends.reading hd).1
      refine h'.lose hdone ?_ rfl ?_ ?_ <;>
        simp [State.boxes, Channel.dropReceiver, Channel.dropSender, List.append_assoc]

/-- A step of the reader loses no buffer while both sides work. -/
theorem Buffers.consumer (h : Buffers size s) (hends : Ends s) (hs : Use s e s') :
    Buffers size s' := by
  cases hs with
  | nothing n hc hn => exact h
  | consume hs => exact h.consume hends hs
  | fetch n hc | recycle n chunk hc | copy n chunk hc | drop hc =>
      obtain ⟨h1, h2, h3, h4, h5, h6⟩ := h
      simp only [State.boxes, List.mem_append, List.length_append, hc, Consumer.boxes] at h1 h2 h3
      constructor <;> simp only [State.boxes, State.finish, Consumer.boxes] <;> grind

end Velr.Inflate
