import Velr.Common.Bytes
import Velr.Common.Concurrency

/-!
# The background inflating reader

`InflatedReader` of `import/input.rs`: a worker thread fills buffers from a source and publishes
them as chunks, the reader's `read` copies chunks out and sends the buffers back. Each call on a
channel, each read of the source and each drop of an endpoint is a step of its own, so that the
steps of the two sides interleave in every order. The source is any `Read`: its answers come from
outside.
-/

namespace Velr.Inflate

open ByteString Concurrency

/-- `INFLATED_BUFFER_BYTES` -/
def inflatedBufferBytes : Nat := 1024 * 1024

/-- `INFLATED_BUFFERS` -/
def inflatedBuffers : Nat := 3

/-- `InflatedChunk` -/
structure Chunk where
  bytes : Bytes
  length : Nat
deriving DecidableEq

variable {ε : Type}

/-- What a call of the source's `read` returns: bytes (none at its end), `Interrupted`, or another
error. -/
inductive Answer (ε : Type) where
  | bytes (data : Bytes)
  | interrupted
  | error (e : ε)
deriving DecidableEq

/-- Where the worker is. -/
inductive Worker (ε : Type) where
  /-- in `buffer_receiver.recv()` -/
  | receiving
  /-- in the loop that reads the source -/
  | filling (bytes : Bytes) (length : Nat)
  /-- behind that loop, with its `error` -/
  | publishing (bytes : Bytes) (length : Nat) (error : Option ε)
  /-- in `chunk_sender.send(Err(error))` -/
  | failing (error : ε)
  /-- returned, and dropping its ends of the channels -/
  | exiting
  | gone
deriving DecidableEq

/-- Where the reader is. A call that ends the reader keeps what it will return. -/
inductive Consumer (ε : Type) where
  | idle
  /-- in `buffers.send(chunk.bytes)` of a `read` -/
  | recycling (bytes : Bytes) (n : Nat)
  /-- at `self.current.is_none()` of a `read` -/
  | receiving (n : Nat)
  /-- in `finish`, from a `read` of `n` bytes or from `drop` -/
  | finishing (result : Option (Nat × Except ε Bytes))
  | dropped

/-- The two channels, the worker, and the fields of `InflatedReader`. Its options `chunks` and
`buffers` are set while the reader's ends of the channels are alive; `handle` is its `worker`. -/
structure State (ε : Type) where
  chunks : Channel (Except ε Chunk)
  buffers : Channel Bytes
  worker : Worker ε
  current : Option Chunk
  position : Nat
  handle : Bool
  done : Bool
  consumer : Consumer ε

/-- What is seen from outside: the source's answers and the results of `read`. -/
inductive Event (ε : Type) where
  | source (answer : Answer ε)
  | returned (n : Nat) (result : Except ε Bytes)

/-- `InflatedReader::new`, with buffers of `size` bytes. -/
def initial (size : Nat) : State ε where
  chunks := .new 1 []
  buffers := .new inflatedBuffers (List.replicate inflatedBuffers (List.replicate size 0))
  worker := .receiving
  current := none
  position := 0
  handle := true
  done := false
  consumer := .idle

/-! ## The worker -/

/-- The end of the worker's round, behind the publication of its chunk. -/
def afterPublish (bytes : Bytes) (length : Nat) : Option ε → Worker ε
  | some error => .failing error
  | none => if length < bytes.length then .exiting else .receiving

/-- The worker's next step, with the source's answer should it read; `none` while it waits and when
it has returned. A `Read` returns no more bytes than it was asked for. -/
def State.work (s : State ε) (answer : Answer ε) : Option (Option (Event ε) × State ε) :=
  match s.worker with
  | .receiving => do
      let (bytes, buffers) ← s.buffers.recv
      match bytes with
      | some bytes => some (none, { s with buffers, worker := .filling bytes 0 })
      | none => some (none, { s with buffers, worker := .exiting })
  | .filling bytes length =>
      if length = bytes.length then some (none, { s with worker := .publishing bytes length none })
      else
        match answer with
        | .bytes [] =>
            some (some (.source answer), { s with worker := .publishing bytes length none })
        | .bytes data =>
            if length + data.length ≤ bytes.length then
              some (some (.source answer),
                { s with worker := .filling (overwrite bytes length data) (length + data.length) })
            else none
        | .interrupted => some (some (.source answer), s)
        | .error error =>
            some (some (.source answer), { s with worker := .publishing bytes length (some error) })
  | .publishing bytes length error =>
      if length ≠ 0 then do
        let (sent, chunks) ← s.chunks.send (.ok { bytes, length })
        let worker := if sent then afterPublish bytes length error else .exiting
        some (none, { s with chunks, worker })
      else some (none, { s with worker := afterPublish bytes length error })
  | .failing error => do
      let (_, chunks) ← s.chunks.send (.error error)
      some (none, { s with chunks, worker := .exiting })
  | .exiting | .gone => none

/-- A step of the worker thread. When it returns it drops its ends of the channels, in either
order. -/
inductive WorkerStep (s : State ε) : Option (Event ε) → State ε → Prop where
  | work {e s'} (answer : Answer ε) : s.work answer = some (e, s') → WorkerStep s e s'
  | dropSender : s.worker = .exiting → s.chunks.sender = true →
      WorkerStep s none { s with chunks := s.chunks.dropSender }
  | dropReceiver : s.worker = .exiting → s.buffers.receiver = true →
      WorkerStep s none { s with buffers := s.buffers.dropReceiver }
  | exit : s.worker = .exiting → s.chunks.sender = false → s.buffers.receiver = false →
      WorkerStep s none { s with worker := .gone }

/-! ## The reader -/

/-- The end of a `read`: bytes of the current chunk. -/
def State.deliver (s : State ε) (chunk : Chunk) (n : Nat) : Option (Event ε) × State ε :=
  let count := min (chunk.length - s.position) n
  (some (.returned n (.ok (slice chunk.bytes s.position count))),
    { s with position := s.position + count, consumer := .idle })

/-- The start of `read`, for an output of `n` bytes. -/
def State.read (s : State ε) (n : Nat) : Option (Event ε) × State ε :=
  if n = 0 ∨ s.done then (some (.returned n (.ok [])), s)
  else
    match s.current with
    | none => (none, { s with consumer := .receiving n })
    | some chunk =>
        if s.position = chunk.length then
          (none, { s with current := none, consumer := .recycling chunk.bytes n })
        else s.deliver chunk n

/-- The start of `finish`. -/
def State.finish (s : State ε) (result : Option (Nat × Except ε Bytes)) : State ε :=
  { s with done := true, consumer := .finishing result }

/-- The next step of a call that has begun; `none` while it waits and between calls. -/
def State.consume (s : State ε) : Option (Option (Event ε) × State ε) :=
  match s.consumer with
  | .idle | .dropped => none
  | .recycling bytes n =>
      if s.buffers.sender then do
        let (_, buffers) ← s.buffers.send bytes
        some (none, { s with buffers, consumer := .receiving n })
      else some (none, { s with consumer := .receiving n })
  | .receiving n => do
      let (message, chunks) ← s.chunks.recv
      let s := { s with chunks }
      match message with
      | some (.ok chunk) => some ({ s with current := some chunk, position := 0 }.deliver chunk n)
      | some (.error error) => some (none, s.finish (some (n, .error error)))
      | none => some (none, s.finish (some (n, .ok [])))
  | .finishing result =>
      if s.chunks.receiver then some (none, { s with chunks := s.chunks.dropReceiver })
      else if s.buffers.sender then some (none, { s with buffers := s.buffers.dropSender })
      else if s.current.isSome then some (none, { s with current := none })
      else if s.handle then
        match s.worker with
        | .gone => some (none, { s with handle := false })
        | _ => none
      else
        match result with
        | some (n, result) => some (some (.returned n result), { s with consumer := .idle })
        | none => some (none, { s with consumer := .dropped })

/-- A step of the thread that uses the reader. -/
inductive ConsumerStep (s : State ε) : Option (Event ε) → State ε → Prop where
  | read (n : Nat) : s.consumer = .idle → ConsumerStep s (s.read n).1 (s.read n).2
  | consume {e s'} : s.consume = some (e, s') → ConsumerStep s e s'
  | drop : s.consumer = .idle → ConsumerStep s none (s.finish none)

/-- A step of either thread. -/
inductive Step (s : State ε) (e : Option (Event ε)) (s' : State ε) : Prop where
  | worker : WorkerStep s e s' → Step s e s'
  | consumer : ConsumerStep s e s' → Step s e s'

end Velr.Inflate
