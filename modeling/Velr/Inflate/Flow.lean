import Velr.Inflate.Buffers

/-!
# Where the bytes are

While the reader is in use every byte read from the source has been returned, is in the current
chunk, in the queue, or in the worker's buffer, in this order (`Streaming`); `Stage` follows the
reader to its end. Both are kept by every step of either side, so they hold in every interleaving.
-/

namespace Velr.Inflate

open ByteString Concurrency

variable {ε : Type}

/-! ## Observations -/

/-- The bytes of a source up to its end of file or first error. -/
def content : List (Answer ε) → Bytes
  | [] => []
  | .bytes [] :: _ => []
  | .bytes data :: answers => data ++ content answers
  | .interrupted :: answers => content answers
  | .error _ :: _ => []

/-- How a source has ended: at its end of file, or with an error. -/
def ending : List (Answer ε) → Option (Option ε)
  | [] => none
  | .bytes [] :: _ => some none
  | .bytes _ :: answers => ending answers
  | .interrupted :: answers => ending answers
  | .error error :: _ => some (some error)

def Event.answer : Event ε → Option (Answer ε)
  | .source answer => some answer
  | .returned _ _ => none

def Event.result : Event ε → Option (Nat × Except ε Bytes)
  | .source _ => none
  | .returned n result => some (n, result)

/-- The source's answers in a log. -/
def answers (log : List (Event ε)) : List (Answer ε) := log.filterMap Event.answer

/-- The results of `read` in a log. -/
def results (log : List (Event ε)) : List (Nat × Except ε Bytes) := log.filterMap Event.result

/-- The bytes that reads have returned. -/
def delivered (reads : List (Nat × Except ε Bytes)) : Bytes :=
  (reads.map fun (_, result) => result.toOption.getD []).flatten

/-- Reads that returned bytes: none but an empty output gets none. -/
def Reads (reads : List (Nat × Except ε Bytes)) : Prop :=
  ∀ read ∈ reads, ∃ data, read.2 = .ok data ∧ data.length ≤ read.1 ∧ (read.1 ≠ 0 → data ≠ [])

/-- Reads that returned no bytes. -/
def Zeros (reads : List (Nat × Except ε Bytes)) : Prop := ∀ read ∈ reads, read.2 = .ok []

/-- What a source's end makes `read` return. -/
def Last : Option ε → Except ε Bytes → Prop
  | none, result => result = .ok []
  | some error, result => result = .error error

/-- The content of a source that has not ended goes on with its later answers. -/
theorem content_append : ∀ (before after : List (Answer ε)),
    ending before = none → content (before ++ after) = content before ++ content after
  | [], _, _ => rfl
  | .bytes [] :: _, _, h => by cases h
  | .bytes (b :: data) :: before, after, h => by
      have ih := content_append before after h
      simp only [List.cons_append, content, ih, List.append_assoc]
  | .interrupted :: before, after, h => content_append before after h
  | .error _ :: _, _, h => by cases h

/-- A source that has not ended ends as its later answers do. -/
theorem ending_append : ∀ (before after : List (Answer ε)),
    ending before = none → ending (before ++ after) = ending after
  | [], _, _ => rfl
  | .bytes [] :: _, _, h => by cases h
  | .bytes (_ :: _) :: before, after, h => ending_append before after h
  | .interrupted :: before, after, h => ending_append before after h
  | .error _ :: _, _, h => by cases h

/-- More answers only add to the content. -/
theorem content_initial : ∀ (before after : List (Answer ε)),
    content before <+: content (before ++ after)
  | [], _ => List.nil_prefix
  | .bytes [] :: _, _ => List.nil_prefix
  | .bytes (_ :: _) :: before, after =>
      (List.prefix_append_right_inj _).mpr (content_initial before after)
  | .interrupted :: before, after => content_initial before after
  | .error _ :: _, _ => List.nil_prefix

@[simp] theorem answers_append (log log' : List (Event ε)) :
    answers (log ++ log') = answers log ++ answers log' := List.filterMap_append

@[simp] theorem results_append (log log' : List (Event ε)) :
    results (log ++ log') = results log ++ results log' := List.filterMap_append

@[simp] theorem delivered_append (reads reads' : List (Nat × Except ε Bytes)) :
    delivered (reads ++ reads') = delivered reads ++ delivered reads' := by
  simp [delivered]

@[simp] theorem answers_source (answer : Answer ε) : answers [.source answer] = [answer] := rfl

@[simp] theorem answers_returned (n : Nat) (result : Except ε Bytes) :
    answers [.returned n result] = [] := rfl

@[simp] theorem results_source (answer : Answer ε) : results [.source answer] = [] := rfl

@[simp] theorem results_returned (n : Nat) (result : Except ε Bytes) :
    results [.returned n result] = [(n, result)] := rfl

@[simp] theorem answers_nil : answers ([] : List (Event ε)) = [] := rfl

@[simp] theorem results_nil : results ([] : List (Event ε)) = [] := rfl

@[simp] theorem delivered_ok (n : Nat) (data : Bytes) :
    delivered [(n, (.ok data : Except ε Bytes))] = data := by simp [delivered, Except.toOption]

/-! ## The invariant -/

variable {size : Nat} {s s' : State ε} {log : List (Event ε)} {e : Option (Event ε)}

/-- The bytes of a chunk. -/
def Chunk.data (chunk : Chunk) : Bytes := chunk.bytes.take chunk.length

/-- The bytes read from the source that the worker has not published. -/
def Worker.held : Worker ε → Bytes
  | .filling bytes length | .publishing bytes length _ => bytes.take length
  | _ => []

/-- The bytes of the current chunk that have not been returned. -/
def rest (position : Nat) : Option Chunk → Bytes
  | none => []
  | some chunk => chunk.data.drop position

/-- The bytes in the queue. -/
def stored (queue : List (Except ε Chunk)) : Bytes := ((chunksOf queue).map Chunk.data).flatten

/-- A queue without an error. -/
def Clean (queue : List (Except ε Chunk)) : Prop := ∀ error, .error error ∉ queue

/-- How the end of the source, once it has ended, is on its way to the reader. -/
inductive Told (queue : List (Except ε Chunk)) : Worker ε → Option (Option ε) → Prop where
  | receiving : Clean queue → Told queue .receiving none
  | filling (bytes length) : Clean queue → Told queue (.filling bytes length) none
  | full (bytes : Bytes) : Clean queue → Told queue (.publishing bytes bytes.length none) none
  | short (bytes : Bytes) (length : Nat) : Clean queue → length < bytes.length →
      Told queue (.publishing bytes length none) (some none)
  | broken (bytes length error) : Clean queue →
      Told queue (.publishing bytes length (some error)) (some (some error))
  | failing (error) : Clean queue → Told queue (.failing error) (some (some error))
  | eof (w : Worker ε) : w.over = true → Clean queue → Told queue w (some none)
  | error (w : Worker ε) (before error) : w.over = true → Clean before →
      queue = before ++ [.error error] → Told queue w (some (some error))

/-- Every byte of the source is in one place, in order. -/
structure Streaming (log : List (Event ε)) (s : State ε) : Prop where
  reads : Reads (results log)
  asked : ∀ bytes n, s.consumer = .receiving n ∨ s.consumer = .recycling bytes n → n ≠ 0
  flow : content (answers log) =
    delivered (results log) ++ (rest s.position s.current ++ stored s.chunks.queue ++ s.worker.held)
  told : Told s.chunks.queue s.worker (ending (answers log))

/-- The life of a reader: it delivers; it is dropped before it has seen the end; it has seen the end
and waits for the worker; it has told the end. -/
inductive Stage (log : List (Event ε)) (s : State ε) : Prop where
  | streaming : s.done = false → Streaming log s → Stage log s
  | abandoned : s.done = true → s.consumer = .finishing none ∨ s.consumer = .dropped →
      Reads (results log) → delivered (results log) <+: content (answers log) → Stage log s
  | closing (n result last) : s.done = true → s.consumer = .finishing (some (n, result)) →
      s.worker.over = true → Reads (results log) →
      delivered (results log) = content (answers log) → ending (answers log) = some last →
      Last last result → Stage log s
  | closed (reads n result zeros last) : s.done = true →
      s.consumer = .idle ∨ s.consumer = .finishing none ∨ s.consumer = .dropped →
      s.worker.over = true → results log = reads ++ (n, result) :: zeros → Reads reads →
      Zeros zeros → delivered reads = content (answers log) → ending (answers log) = some last →
      Last last result → Stage log s

@[simp] theorem clean_nil : Clean ([] : List (Except ε Chunk)) := fun _ h => by cases h

/-- A queue stays clean with a chunk behind it. -/
theorem Clean.append_ok {queue : List (Except ε Chunk)} (h : Clean queue) (chunk : Chunk) :
    Clean (queue ++ [.ok chunk]) := by
  intro error hmem
  cases List.mem_append.mp hmem with
  | inl hleft => exact h error hleft
  | inr hright => simp at hright

/-- So it does without its first message. -/
theorem Clean.of_cons {queue : List (Except ε Chunk)} {message : Except ε Chunk}
    (h : Clean (message :: queue)) : Clean queue :=
  fun error hmem => h error (List.mem_cons_of_mem _ hmem)

@[simp] theorem stored_append (queue queue' : List (Except ε Chunk)) :
    stored (queue ++ queue') = stored queue ++ stored queue' := by
  simp [stored]

@[simp] theorem stored_nil : stored ([] : List (Except ε Chunk)) = [] := rfl

@[simp] theorem stored_ok (chunk : Chunk) (queue : List (Except ε Chunk)) :
    stored (.ok chunk :: queue) = chunk.data ++ stored queue := rfl

@[simp] theorem stored_error (error : ε) (queue : List (Except ε Chunk)) :
    stored (.error error :: queue) = stored queue := rfl

/-- A worker that is over holds no bytes. -/
theorem Worker.held_of_over {w : Worker ε} (h : w.over = true) : w.held = [] := by
  cases w <;> first | rfl | cases h

/-- A worker that takes a round is not over. -/
theorem Work.not_over (hs : Work s e s') : s.worker.over = false := by
  cases hs with
  | take _ _ hw | starve hw | full _ hw | eof _ _ hw | fill _ _ _ _ hw | retry _ _ hw
  | error _ _ _ hw | refused _ _ _ hw | publish _ _ _ hw | skip _ _ hw | unheard _ hw | fail _ hw =>
      rw [hw]; rfl

/-- The worker's steps return nothing to the caller and leave the reader's fields alone. -/
theorem Work.frame (hs : Work s e s') : results e.toList = [] ∧ s'.done = s.done ∧
    s'.consumer = s.consumer := by
  cases hs <;> exact ⟨rfl, rfl, rfl⟩

/-- A filled part grows by what was read. -/
theorem take_overwrite {bytes data : Bytes} {length : Nat}
    (h : length + data.length ≤ bytes.length) :
    (overwrite bytes length data).take (length + data.length) = bytes.take length ++ data := by
  have hlen : (bytes.take length ++ data).length = length + data.length := by
    simp only [List.length_append, List.length_take]; omega
  rw [overwrite, List.take_left' hlen]

@[simp] theorem afterPublish_held (bytes : Bytes) (length : Nat) (error : Option ε) :
    (afterPublish bytes length error).held = [] := by
  rcases afterPublish_cases bytes length error with ⟨_, _, h⟩ | ⟨_, _, h⟩ | ⟨_, _, h⟩ <;>
    simp [h, Worker.held]

/-- Behind a round the source's end is on its way as before. -/
theorem told_afterPublish {queue queue' : List (Except ε Chunk)} {bytes : Bytes} {length : Nat}
    {error : Option ε} {last : Option (Option ε)}
    (h : Told queue (.publishing bytes length error) last) (hclean : Clean queue → Clean queue') :
    Told queue' (afterPublish bytes length error) last := by
  cases h with
  | full _ hq =>
      rw [afterPublish, if_neg (Nat.lt_irrefl _)]
      exact .receiving (hclean hq)
  | short _ _ hq hlt =>
      rw [afterPublish, if_pos hlt]
      exact .eof _ rfl (hclean hq)
  | broken _ _ e hq => exact .failing e (hclean hq)
  | eof _ hover | error _ _ _ hover => cases hover

/-- A round of the worker keeps the bytes of the source in their order. -/
theorem Streaming.work (h : Streaming log s) (hends : Ends s)
    (hbuffers : Buffers size s) (hdone : s.done = false) (hs : Work s e s') :
    Streaming (log ++ e.toList) s' := by
  obtain ⟨_, hreceiver, hsender⟩ := hends.reading hdone
  obtain ⟨hresults, _, hconsumer⟩ := hs.frame
  obtain ⟨hreads, hasked, hflow, htold⟩ := h
  have hreads' : Reads (results (log ++ e.toList)) := by simpa [hresults] using hreads
  generalize hend : ending (answers log) = last at htold
  cases hs with
  | take bytes queue hw hq =>
      rw [hw] at hflow htold
      cases htold with
      | receiving hclean =>
          refine ⟨hreads', hasked, by simpa [Worker.held] using hflow, ?_⟩
          simpa [hend] using Told.filling bytes 0 hclean
      | eof _ hover | error _ _ _ hover => cases hover
  | starve hw hclosed => rw [hsender] at hclosed; cases hclosed
  | full bytes hw =>
      rw [hw] at hflow htold
      cases htold with
      | filling _ _ hclean =>
          refine ⟨hreads', hasked, by simpa [Worker.held] using hflow, ?_⟩
          simpa [hend] using Told.full bytes hclean
      | eof _ hover | error _ _ _ hover => cases hover
  | eof bytes length hw hfull =>
      have hfilled := hbuffers.filled
      have hbytes :
        bytes.length = size := hbuffers.sized bytes (by simp [State.boxes, hw, Worker.boxes])
      rw [hw] at hflow htold hfilled
      cases htold with
      | filling _ _ hclean =>
          refine ⟨hreads', hasked, ?_, ?_⟩
          · simpa [content_append _ _ hend, content, Worker.held] using hflow
          · have hshort : length < bytes.length := by
              simp only [Worker.length] at hfilled; omega
            simpa [ending_append _ _ hend, ending] using Told.short bytes length hclean hshort
      | eof _ hover | error _ _ _ hover => cases hover
  | fill bytes length b data hw hfits =>
      rw [hw] at hflow htold
      cases htold with
      | filling _ _ hclean =>
          refine ⟨hreads', hasked, ?_, ?_⟩
          · have htake : (overwrite bytes length (b :: data)).take (length + (data.length + 1)) =
                bytes.take length ++ b :: data := 
              take_overwrite (by simpa using hfits : length + (b :: data).length ≤ bytes.length)
            simp only [Option.toList_some, answers_append, answers_source, results_append,
              results_source, List.append_nil, content_append _ _ hend, content, hflow, Worker.held,
              htake, List.append_assoc]
          · simpa [ending_append _ _ hend, ending] using Told.filling _ _ hclean
      | eof _ hover | error _ _ _ hover => cases hover
  | retry bytes length hw =>
      rw [hw] at htold
      cases htold with
      | filling _ _ hclean =>
          refine ⟨hreads', hasked, by simpa [content_append _ _ hend, content] using hflow, ?_⟩
          simpa [ending_append _ _ hend, ending, hw] using Told.filling _ _ hclean
      | eof _ hover | error _ _ _ hover => cases hover
  | error bytes length error hw =>
      rw [hw] at hflow htold
      cases htold with
      | filling _ _ hclean =>
          refine ⟨hreads', hasked, ?_, ?_⟩
          · simpa [content_append _ _ hend, content, Worker.held] using hflow
          · simpa [ending_append _ _ hend, ending] using Told.broken bytes length error hclean
      | eof _ hover | error _ _ _ hover => cases hover
  | refused _ _ _ _ hclosed => rw [hreceiver] at hclosed; cases hclosed
  | unheard _ _ hclosed => rw [hreceiver] at hclosed; cases hclosed
  | publish bytes length error hw hpos _ _ =>
      rw [hw] at hflow htold
      have hflow' : content (answers log) = delivered (results log) ++ (rest s.position s.current ++
          stored (s.chunks.queue ++ [.ok { bytes, length }]) ++
            (afterPublish bytes length error).held) := by
        rw [hflow, afterPublish_held]
        simp [Worker.held, Chunk.data]
      refine ⟨hreads', hasked, by simpa using hflow', ?_⟩
      simp only [Option.toList_none, List.append_nil, hend]
      exact told_afterPublish htold (fun hclean => hclean.append_ok _)
  | skip bytes error hw =>
      rw [hw] at hflow htold
      have hflow' : content (answers log) = delivered (results log) ++ (rest s.position s.current ++
          stored s.chunks.queue ++ (afterPublish bytes 0 error).held) := by
        rw [hflow, afterPublish_held]
        simp [Worker.held]
      refine ⟨hreads', hasked, by simpa using hflow', ?_⟩
      simp only [Option.toList_none, List.append_nil, hend]
      exact told_afterPublish htold id
  | fail error hw _ =>
      rw [hw] at hflow htold
      cases htold with
      | failing _ hclean =>
          have htold' : Told (s.chunks.queue ++ [.error error]) .exiting (some (some error)) :=
            .error _ _ _ rfl hclean rfl
          exact ⟨hreads', hasked, by simpa [Worker.held] using hflow, by simpa [hend] using htold'⟩
      | eof _ hover | error _ _ _ hover => cases hover

/-- The steps of a worker that has left its loop only drop its ends. -/
theorem WorkerStep.over (hs : WorkerStep s e s') (hover : s.worker.over = true) :
    e = none ∧ s'.worker.over = true ∧ s'.done = s.done ∧ s'.consumer = s.consumer := by
  cases hs with
  | work answer hwork => rw [(work_cases hwork).not_over] at hover; cases hover
  | dropSender _ _ | dropReceiver _ _ => exact ⟨rfl, hover, rfl, rfl⟩
  | exit _ _ _ => exact ⟨rfl, rfl, rfl, rfl⟩

/-- A worker that has dropped its ends has told the end as before. -/
theorem Told.exit {queue : List (Except ε Chunk)} {last : Option (Option ε)}
    (h : Told queue .exiting last) : Told queue .gone last := by
  cases h with
  | eof _ _ hclean => exact .eof _ rfl hclean
  | error _ before error _ hclean hq => exact .error _ before error rfl hclean hq

/-- So does every step of the worker. -/
theorem Streaming.worker (h : Streaming log s) (hends : Ends s)
    (hbuffers : Buffers size s) (hdone : s.done = false) (hs : WorkerStep s e s') :
    Streaming (log ++ e.toList) s' := by
  cases hs with
  | work answer hwork => exact h.work hends hbuffers hdone (work_cases hwork)
  | dropSender _ _ | dropReceiver _ _ =>
      obtain ⟨hreads, hasked, hflow, htold⟩ := h
      exact ⟨by simpa using hreads, hasked, by simpa [Channel.dropSender] using hflow,
        by simpa [Channel.dropSender] using htold⟩
  | exit hw _ _ =>
      obtain ⟨hreads, hasked, hflow, htold⟩ := h
      rw [hw] at hflow htold
      exact ⟨by simpa using hreads, hasked, by simpa [Worker.held] using hflow,
        by simpa using htold.exit⟩

/-- A step of the worker returns nothing and leaves the reader alone. -/
theorem WorkerStep.frame (hs : WorkerStep s e s') :
    results e.toList = [] ∧ s'.done = s.done ∧ s'.consumer = s.consumer := by
  cases hs with
  | work answer hwork => exact (work_cases hwork).frame
  | dropSender _ _ | dropReceiver _ _ | exit _ _ _ => exact ⟨rfl, rfl, rfl⟩

/-- A step of the worker keeps the stage. -/
theorem Stage.worker (h : Stage log s) (hends : Ends s)
    (hbuffers : Buffers size s) (hs : WorkerStep s e s') : Stage (log ++ e.toList) s' := by
  obtain ⟨hresults, hdone', hconsumer⟩ := hs.frame
  cases h with
  | streaming hdone h =>
      exact .streaming (hdone'.trans hdone) (h.worker hends hbuffers hdone hs)
  | abandoned hdone hc hreads hprefix =>
      refine .abandoned (hdone'.trans hdone) (by rwa [hconsumer]) (by simpa [hresults] using hreads)
        ?_
      rw [results_append, hresults, List.append_nil, answers_append]
      exact hprefix.trans (content_initial _ _)
  | closing n result last hdone hc hover hreads hall hend hlast =>
      obtain ⟨rfl, hover', _, _⟩ := hs.over hover
      exact .closing n result last (hdone'.trans hdone) (by rwa [hconsumer]) hover'
        (by simpa using hreads) (by simpa using hall) (by simpa using hend) hlast
  | closed reads n result zeros last hdone hc hover hres hreads hzeros hall hend hlast =>
      obtain ⟨rfl, hover', _, _⟩ := hs.over hover
      exact .closed reads n result zeros last (hdone'.trans hdone) (by rwa [hconsumer]) hover'
        (by simpa using hres) hreads hzeros (by simpa using hall) (by simpa using hend) hlast

/-- A read of a chunk adds its bytes. -/
theorem Reads.copy {reads : List (Nat × Except ε Bytes)} (h : Reads reads) {n : Nat} {data : Bytes}
    (hlen : data.length ≤ n) (hdata : n ≠ 0 → data ≠ []) : Reads (reads ++ [(n, .ok data)]) := by
  intro read hmem
  cases List.mem_append.mp hmem with
  | inl hleft => exact h read hleft
  | inr hright =>
      obtain rfl := List.mem_singleton.mp hright
      exact ⟨data, rfl, hlen, hdata⟩

/-- What a copy takes from a chunk, and what it leaves. -/
theorem slice_rest (chunk : Chunk) {position count : Nat} (hin : position + count ≤ chunk.length) :
    slice chunk.bytes position count ++ rest (position + count) (some chunk) =
      rest position (some chunk) := by
  have htake : slice chunk.bytes position count = (chunk.data.drop position).take count := by
    rw [slice, Chunk.data, List.drop_take, List.take_take]
    congr 1
    omega
  rw [htake, rest, rest, ← List.drop_drop, List.take_append_drop]

/-- The source's end reaches the reader behind the last chunk. -/
theorem Told.of_error {queue : List (Except ε Chunk)} {w : Worker ε} {last : Option (Option ε)}
    {error : ε} (h : Told (.error error :: queue) w last) :
    w.over = true ∧ last = some (some error) ∧ queue = [] := by
  have hdirty : ∀ q : List (Except ε Chunk), ¬ Clean (.error error :: q) :=
    fun q hclean => hclean error List.mem_cons_self
  cases h with
  | receiving hclean | filling _ _ hclean | full _ hclean | short _ _ hclean | broken _ _ _ hclean
  | failing _ hclean | eof _ _ hclean => exact absurd hclean (hdirty _)
  | error _ before e hover hclean hq =>
      cases before with
      | nil => cases hq; exact ⟨hover, rfl, rfl⟩
      | cons message before => cases hq; exact absurd hclean (hdirty _)

/-- With an empty queue and a worker that is gone, the source has ended at its end of file. -/
theorem Told.of_nil {w : Worker ε} {last : Option (Option ε)} (h : Told [] w last)
    (hover : w.over = true) : last = some none := by
  cases h with
  | receiving | filling | full | short | broken | failing => cases hover
  | eof => rfl
  | error _ before e _ _ hq => simp at hq

/-- Taking a chunk leaves the end behind it on its way. -/
theorem Told.of_ok {queue : List (Except ε Chunk)} {w : Worker ε} {last : Option (Option ε)}
    {chunk : Chunk} (h : Told (.ok chunk :: queue) w last) : Told queue w last := by
  cases h with
  | receiving hclean => exact .receiving hclean.of_cons
  | filling _ _ hclean => exact .filling _ _ hclean.of_cons
  | full _ hclean => exact .full _ hclean.of_cons
  | short _ _ hclean hlt => exact .short _ _ hclean.of_cons hlt
  | broken _ _ _ hclean => exact .broken _ _ _ hclean.of_cons
  | failing _ hclean => exact .failing _ hclean.of_cons
  | eof _ hover hclean => exact .eof _ hover hclean.of_cons
  | error _ before e hover hclean hq =>
      cases before with
      | nil => cases hq
      | cons message before => cases hq; exact .error _ before e hover hclean.of_cons rfl

/-- A `read` that goes on returns the next bytes of the source, or comes to its end. -/
theorem Streaming.consume (h : Streaming log s) (hends : Ends s) (hbuffers : Buffers size s)
    (hdone : s.done = false) (hs : Consume s e s') : Stage (log ++ e.toList) s' := by
  obtain ⟨hreading, hreceiver, hsender⟩ := hends.reading hdone
  have hlent := hends.lent
  obtain ⟨hreads, hasked, hflow, htold⟩ := h
  cases hs with
  | recycle bytes n hc _ _ | discard bytes n hc _ =>
      refine .streaming hdone
        ⟨by simpa using hreads, ?_, by simpa using hflow, by simpa using htold⟩
      intro bytes' n' heq
      have hn := hasked bytes n (.inr hc)
      cases heq with
      | inl heq => cases heq; exact hn
      | inr heq => cases heq
  | chunk n chunk queue hc hq =>
      have hn := hasked [] n (.inl hc)
      obtain ⟨hpos, hle⟩ := hbuffers.chunked chunk (by simp [hq])
      have hbytes : chunk.bytes.length = size :=
        hbuffers.sized _ (by simp [State.boxes, hq])
      have hlen : (slice chunk.bytes 0 (min chunk.length n)).length = min chunk.length n :=
        length_slice (by omega)
      have hsplit := slice_rest chunk (by omega : 0 + min chunk.length n ≤ chunk.length)
      rw [Nat.zero_add] at hsplit
      refine .streaming hdone ⟨?_, ?_, ?_, ?_⟩
      · simp only [Option.toList_some, results_append, results_returned]
        refine hreads.copy (by omega) fun _ hnil => ?_
        rw [hnil, List.length_nil] at hlen
        omega
      · intro bytes' n' heq
        cases heq with
        | inl heq => cases heq
        | inr heq => cases heq
      · rw [hlent (by rw [hc]; rfl), hq] at hflow
        simp only [Option.toList_some, answers_append, answers_returned, List.append_nil,
          results_append, results_returned, delivered_append, delivered_ok, hflow, stored_ok]
        have hdata : rest 0 (some chunk) = chunk.data := rfl
        rw [← hdata, ← hsplit]
        simp [rest]
      · rw [hq] at htold
        simpa using htold.of_ok
  | error n error queue hc hq =>
      rw [hq] at htold
      obtain ⟨hover, hend, rfl⟩ := htold.of_error
      rw [hlent (by rw [hc]; rfl), hq, Worker.held_of_over hover] at hflow
      exact .closing n (.error error) (some error) rfl rfl hover (by simpa using hreads)
        (by simpa [rest] using hflow.symm) (by simpa using hend) rfl
  | disconnected n hc hq hclosed =>
      have hover : s.worker.over = true := by
        cases hw : s.worker.over with
        | true => rfl
        | false => rw [(hends.working hw).1] at hclosed; cases hclosed
      rw [hq] at htold
      rw [hlent (by rw [hc]; rfl), hq, Worker.held_of_over hover] at hflow
      exact .closing n (.ok []) none rfl rfl hover (by simpa using hreads)
        (by simpa [rest] using hflow.symm) (by simpa using htold.of_nil hover) rfl
  | dropChunks _ hc _ | dropBuffers _ hc _ | dropCurrent _ hc | join _ hc _
  | finished _ _ hc _ _ _ | dropped hc _ _ _ => rw [hc] at hreading; cases hreading

/-- Once the reader has begun to finish, a step of it reads nothing more. -/
theorem Stage.finishing (h : Stage log s) (hdone : s.done = true) (hs : Use s e s') :
    Stage (log ++ e.toList) s' := by
  cases h with
  | streaming hdone' _ => rw [hdone] at hdone'; cases hdone'
  | abandoned _ hc hreads hprefix =>
      have hkept : ∀ s' : State ε, s'.done = true →
          s'.consumer = .finishing none ∨ s'.consumer = .dropped → Stage (log ++ []) s' :=
        fun s' hdone' hc' => .abandoned hdone' hc' (by simpa using hreads) (by simpa using hprefix)
      cases hs with
      | consume hs =>
          cases hs with
          | dropChunks _ _ _ | dropBuffers _ _ _ | dropCurrent _ _ | join _ _ _ =>
              exact hkept _ hdone hc
          | dropped _ _ _ _ => exact hkept _ hdone (.inr rfl)
          | recycle _ _ hc' _ _ | discard _ _ hc' _ | chunk _ _ _ hc' _ | error _ _ _ hc' _
          | disconnected _ hc' _ _ | finished _ _ hc' _ _ _ => rw [hc'] at hc; simp at hc
      | nothing _ hc' _ | fetch _ hc' _ _ _ | recycle _ _ hc' _ _ _ _ | copy _ _ hc' _ _ _ _
      | drop hc' => rw [hc'] at hc; simp at hc
  | closing n result last _ hc hover hreads hall hend hlast =>
      cases hs with
      | consume hs =>
          cases hs with
          | dropChunks _ _ _ | dropBuffers _ _ _ | dropCurrent _ _ | join _ _ _ =>
              exact .closing n result last hdone hc hover (by simpa using hreads)
                (by simpa using hall) (by simpa using hend) hlast
          | finished n' result' hc' _ _ _ =>
              rw [hc'] at hc
              cases hc
              exact .closed (results log) n result [] last hdone (.inl rfl) hover (by simp) hreads
                (fun _ hmem => by cases hmem) (by simpa using hall) (by simpa using hend) hlast
          | recycle _ _ hc' _ _ | discard _ _ hc' _ | chunk _ _ _ hc' _ | error _ _ _ hc' _
          | disconnected _ hc' _ _ | dropped hc' _ _ _ => rw [hc'] at hc; cases hc
      | nothing _ hc' _ | fetch _ hc' _ _ _ | recycle _ _ hc' _ _ _ _ | copy _ _ hc' _ _ _ _
      | drop hc' => rw [hc'] at hc; cases hc
  | closed reads n result zeros last _ hc hover hres hreads hzeros hall hend hlast =>
      have hkept : ∀ s' : State ε, s'.done = true →
          s'.consumer = .idle ∨ s'.consumer = .finishing none ∨ s'.consumer = .dropped →
          s'.worker.over = true → Stage (log ++ []) s' := fun s' hdone' hc' hover' =>
        .closed reads n result zeros last hdone' hc' hover' (by simpa using hres) hreads hzeros
          (by simpa using hall) (by simpa using hend) hlast
      cases hs with
      | consume hs =>
          cases hs with
          | dropChunks _ _ _ | dropBuffers _ _ _ | dropCurrent _ _ | join _ _ _ =>
              exact hkept _ hdone hc hover
          | dropped _ _ _ _ => exact hkept _ hdone (.inr (.inr rfl)) hover
          | recycle _ _ hc' _ _ | discard _ _ hc' _ | chunk _ _ _ hc' _ | error _ _ _ hc' _
          | disconnected _ hc' _ _ | finished _ _ hc' _ _ _ => rw [hc'] at hc; simp at hc
      | nothing n' _ _ =>
          refine .closed reads n result (zeros ++ [(n', .ok [])]) last hdone hc hover
            (by simp [hres]) hreads ?_ (by simpa using hall) (by simpa using hend) hlast
          intro read hmem
          cases List.mem_append.mp hmem with
          | inl hleft => exact hzeros read hleft
          | inr hright => rw [List.mem_singleton.mp hright]
      | fetch _ _ _ hopen _ | recycle _ _ _ _ hopen _ _ | copy _ _ _ _ hopen _ _ =>
          rw [hdone] at hopen; cases hopen
      | drop _ => exact hkept _ rfl (.inr (.inl rfl)) hover

/-- So does every step of the reader that delivers, unless it is dropped. -/
theorem Streaming.consumer (h : Streaming log s) (hends : Ends s) (hbuffers : Buffers size s)
    (hdone : s.done = false) (hs : Use s e s') : Stage (log ++ e.toList) s' := by
  cases hs with
  | consume hs => exact h.consume hends hbuffers hdone hs
  | nothing n hc hn =>
      obtain ⟨hreads, hasked, hflow, htold⟩ := h
      have hn : n = 0 := by simpa [hdone] using hn
      refine .streaming hdone ⟨?_, hasked, by simpa using hflow, by simpa using htold⟩
      have hempty : ([] : Bytes).length ≤ n := Nat.zero_le n
      simp only [Option.toList_some, results_append, results_returned]
      exact hreads.copy hempty fun hne => absurd hn hne
  | fetch n hc hn _ hcurrent =>
      obtain ⟨hreads, hasked, hflow, htold⟩ := h
      refine .streaming hdone
        ⟨by simpa using hreads, ?_, by simpa using hflow, by simpa using htold⟩
      intro bytes n' heq
      cases heq with
      | inl heq => cases heq; exact hn
      | inr heq => cases heq
  | recycle n chunk hc hn _ hcurrent hposition =>
      obtain ⟨hreads, hasked, hflow, htold⟩ := h
      have hrest : rest s.position s.current = [] := by
        rw [hcurrent, hposition]
        exact List.drop_eq_nil_of_le (List.length_take_le _ _)
      refine .streaming hdone ⟨by simpa using hreads, ?_, ?_, by simpa using htold⟩
      · intro bytes n' heq
        cases heq with
        | inl heq => cases heq
        | inr heq => cases heq; exact hn
      · rw [hrest] at hflow
        simpa [rest] using hflow
  | copy n chunk hc hn _ hcurrent hposition =>
      obtain ⟨hreads, hasked, hflow, htold⟩ := h
      obtain ⟨hle, hsize⟩ := hbuffers.current chunk hcurrent
      have hbytes : chunk.bytes.length = size := hbuffers.sized _ (by simp [State.boxes, hcurrent])
      have hlen : (slice chunk.bytes s.position (min (chunk.length - s.position) n)).length =
          min (chunk.length - s.position) n := length_slice (by omega)
      have hsplit := slice_rest chunk
        (by omega : s.position + min (chunk.length - s.position) n ≤ chunk.length)
      refine .streaming hdone ⟨?_, ?_, ?_, by simpa using htold⟩
      · simp only [Option.toList_some, results_append, results_returned]
        refine hreads.copy (by omega) fun _ hnil => ?_
        rw [hnil, List.length_nil] at hlen
        omega
      · intro bytes' n' heq
        cases heq with
        | inl heq => cases heq
        | inr heq => cases heq
      · rw [hcurrent, ← hsplit] at hflow
        simp only [Option.toList_some, answers_append, answers_returned, List.append_nil,
          results_append, results_returned, delivered_append, delivered_ok, hflow, hcurrent,
          List.append_assoc]
  | drop hc =>
      obtain ⟨hreads, hasked, hflow, htold⟩ := h
      refine .abandoned rfl (.inl rfl) (by simpa using hreads) ?_
      simp only [Option.toList_none, List.append_nil, hflow]
      exact List.prefix_append _ _

/-- A step of the reader keeps the stage, or ends it. -/
theorem Stage.consumer (h : Stage log s) (hends : Ends s) (hbuffers : Buffers size s)
    (hs : Use s e s') : Stage (log ++ e.toList) s' := by
  cases hdone : s.done with
  | true => exact h.finishing hdone hs
  | false =>
      cases h with
      | streaming _ h => exact h.consumer hends hbuffers hdone hs
      | abandoned hdone' _ _ _ | closing _ _ _ hdone' _ _ _ _ _ _
      | closed _ _ _ _ _ hdone' _ _ _ _ _ _ _ => rw [hdone] at hdone'; cases hdone'

end Velr.Inflate
