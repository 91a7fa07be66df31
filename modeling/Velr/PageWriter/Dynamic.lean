import Velr.PageWriter.Writer

/-!
# Opening, forking and finishing

The methods around the life of a writer: `open` and `enable_dynamic` make the coordinator,
`fork_dynamic` a worker, `complete` and `finish` take the writer by value, and `Drop` runs at the
end of either. Only `finish` writes the database header; before that it turns the ranges that all
writers have returned into freelist trunks.
-/

namespace Velr

open ByteString Interleaving

/-- `(512..=32768).contains(&page_size) && page_size.is_power_of_two()` -/
def PageSize.check (bytes : Nat) : Option PageSize :=
  if h : 512 ≤ bytes ∧ bytes ≤ 32768 ∧ bytes = 2 ^ bytes.log2 then some ⟨bytes, h.1, h.2.1, h.2.2⟩
  else none

/-- `b"SQLite format 3\0"` -/
def magic : Bytes :=
  [0x53, 0x51, 0x4c, 0x69, 0x74, 0x65, 0x20, 0x66, 0x6f, 0x72, 0x6d, 0x61, 0x74, 0x20, 0x33, 0]

namespace Writer

open Method

/-- `PageWriter::open` of a file of `length` bytes that starts with `header`. -/
def openFile (header : Bytes) (length : Nat) : Except Fault Writer :=
  if header.length ≠ 100 then .error (invalid "failed to fill whole buffer")
  else if header.take 16 ≠ magic then .error (invalid "invalid bootstrap database")
  else match PageSize.check (ofBE (slice header 16 2)) with
    | none => .error (invalid "unsupported bootstrap page settings")
    | some pageSize =>
        if slice header 20 1 ≠ [0] ∨ ofBE (slice header 52 4) ≠ 0 then
          .error (invalid "unsupported bootstrap page settings")
        else if length % pageSize.bytes ≠ 0 then .error (invalid "incomplete bootstrap page")
        else if length / pageSize.bytes + 1 > u32Max then .error exhaustedSpace
        else .ok
          { header := header
            pageSize := pageSize
            nextPage := length / pageSize.bytes + 1
            rangeEnd := none
            assignedRoot := none
            allocator := none
            dynamicWorker := false
            dynamicCompleted := false
            position := length / pageSize.bytes }

/-- The allocator that `enable_dynamic` creates. -/
def freshAllocator (self : Writer) (blockPages : Nat) : Allocator where
  bootstrapEnd := self.nextPage
  blockPages := blockPages
  pending := pendingPage self.pageSize.bytes

/-- `PageWriter::enable_dynamic` -/
def enableDynamic (blockBytes : Nat) : WriterM Unit := do
  let self ← get
  if self.rangeEnd.isSome ∨ self.allocator.isSome then
    throw (invalid "cannot enable dynamic allocation for this writer")
  else do
    flush
    let blockPages := max (blockBytes / self.pageSize.bytes) 1
    if blockPages > u32Max then throw (invalid "dynamic block size overflow")
    else do
      scratch
      modify fun w =>
        { w with allocator := some (w.freshAllocator blockPages), rangeEnd := some w.nextPage }

/-- A coordinator that has just enabled dynamic allocation behind a file that starts with
`header`. -/
structure Coordinates (w : Writer) (header : Bytes) (blockPages : Nat) : Prop where
  length : header.length = 100
  header : w.header = header
  nextPage : 1 ≤ w.nextPage ∧ w.nextPage ≤ u32Max
  position : w.position + 1 = w.nextPage
  allocator : w.allocator = some (w.freshAllocator blockPages)
  blockPages : 1 ≤ blockPages
  rangeEnd : w.rangeEnd = some w.nextPage
  assignedRoot : w.assignedRoot = none
  worker : w.dynamicWorker = false
  completed : w.dynamicCompleted = false

/-- What `open` makes of a file. -/
theorem openFile_eq {header : Bytes} {length : Nat} {w : Writer}
    (h : openFile header length = .ok w) :
    header.length = 100 ∧ length / w.pageSize.bytes + 1 ≤ u32Max ∧
      w = ⟨header, w.pageSize, length / w.pageSize.bytes + 1, none, none, none, false, false,
        length / w.pageSize.bytes⟩ := by
  unfold openFile at h
  split at h
  · cases h
  · rename_i hlength
    split at h
    · cases h
    · split at h
      · cases h
      · split at h
        · cases h
        · split at h
          · cases h
          · split at h
            · cases h
            · rename_i hpages
              cases h
              exact ⟨not_not.mp hlength, Nat.not_lt.mp hpages, rfl⟩

/-- `enable_dynamic` makes a writer that has been opened the coordinator. -/
theorem enableDynamic_coordinates {σ : Type} {P : Protocol Access Access.Answer σ} {l : σ}
    {header : Bytes} {length blockBytes : Nat} {w : Writer}
    (hopen : openFile header length = .ok w) (hallowed : ∀ l i, P.allowed l i) :
    Ensures P (enableDynamic blockBytes) w l
      (fun _ w' _ => ∃ blockPages, w'.Coordinates header blockPages) (fun _ _ _ => True) := by
  obtain ⟨hlength, hpages, hw⟩ := openFile_eq hopen
  have hnone : ¬ (w.rangeEnd.isSome = true ∨ w.allocator.isSome = true) := by rw [hw]; simp
  simp only [enableDynamic, ensures_bind, ensures_get, if_neg hnone, flush, ensures_call,
    ensures_ofExcept]
  refine ⟨hallowed _ _, fun answer l₁ _ => ⟨fun _ _ => ?_, fun _ _ => trivial⟩⟩
  split
  · trivial
  · simp only [scratch, ensures_bind, ensures_call, ensures_ofExcept, ensures_modify]
    refine ⟨hallowed _ _, fun answer l₂ _ => ⟨fun _ _ => ?_, fun _ _ => trivial⟩⟩
    refine ⟨max (blockBytes / w.pageSize.bytes) 1, ?_⟩
    rw [hw]
    exact ⟨hlength, rfl, ⟨by simp, hpages⟩, rfl, rfl, Nat.le_max_right _ _, rfl, rfl, rfl, rfl⟩

/-- The worker that `fork_dynamic` returns. -/
def worker (self : Writer) (root : Nat) : Writer :=
  { self with
    nextPage := 0
    rangeEnd := some 0
    assignedRoot := some root
    dynamicWorker := true
    dynamicCompleted := false
    position := 0 }

/-- `PageWriter::fork_dynamic` -/
def forkDynamic (root : Nat) : WriterM Writer := do
  let self ← get
  match self.allocator with
  | none => throw (invalid "dynamic allocation is disabled")
  | some allocator =>
      if self.dynamicWorker then throw (invalid "dynamic workers cannot fork")
      else do
        scratch
        claimRoot allocator root
        call Access.enter
        pure (self.worker root)

/-- `PageWriter::complete`, without the drop of `self` at its end -/
def complete : WriterM Unit := do
  let self ← get
  match self.allocator with
  | some allocator =>
      if self.dynamicWorker = false then throw (invalid "coordinator must finish")
      else do
        let failed ← call Access.loadFailed
        if failed then throw (invalid "dynamic allocator has failed")
        else do
          flush
          match self.rangeEnd with
          | none => throw unwrapNone
          | some stop => do
              returnTail allocator self.nextPage stop
              modify fun w => { w with dynamicCompleted := true }
              call Access.leave
  | none =>
      if self.rangeEnd ≠ some self.nextPage then
        throw (invalid "packed tree did not fill its reserved page range")
      else flush

/-! ## The freelist -/

/-- The state of `next_free`: the current range and the ranges left in the spool. -/
structure FreeReader where
  range : Nat × Nat
  input : List (Nat × Nat)

/-- The closure `next_free` of `finish` -/
def nextFree (free : FreeReader) : WriterM (Option Nat × FreeReader) := do
  if free.range.1 = free.range.2 then do
    scratch
    match free.input with
    | [] => pure (none, free)
    | range :: input =>
        if range.1 ≥ range.2 then throw (invalid "invalid free-page range")
        else pure (some range.1, ⟨(range.1 + 1, range.2), input⟩)
  else pure (some free.range.1, ⟨(free.range.1 + 1, free.range.2), free.input⟩)

/-- The inner loop of `finish`: up to `capacity` leaves of a trunk page. -/
def trunkLeaves : Nat → Nat → Bytes → FreeReader → WriterM (Bytes × Nat × FreeReader)
  | 0, leaves, page, free => pure (page, leaves, free)
  | capacity + 1, leaves, page, free => do
      let (leaf, free) ← nextFree free
      match leaf with
      | none => pure (page, leaves, free)
      | some leaf =>
          trunkLeaves capacity (leaves + 1) (overwrite page (8 + leaves * 4) (toBE 4 leaf)) free

/-- The outer loop of `finish`, one trunk page a round; every round takes at least one page. -/
def trunks (oldTrunk : Nat) : Nat → Nat → Nat → FreeReader → WriterM Nat
  | 0, _, _, _ => throw (.panic "the trunk loop ran out of rounds")
  | rounds + 1, trunk, counted, free => do
      let self ← get
      -- SQLite's historic last six trunk slots stay unused.
      let capacity := self.pageSize.bytes / 4 - 8
      let (page, leaves, free) ←
        trunkLeaves capacity 0 (List.replicate self.pageSize.bytes 0) free
      let (next, free) ← nextFree free
      let page := overwrite page 0 (toBE 4 (next.getD oldTrunk))
      let page := overwrite page 4 (toBE 4 leaves)
      if counted + (leaves + 1) > u32Max then throw (invalid "free-page count overflow")
      else do
        modify fun w => { w with position := trunk - 1 }
        writeAll page
        match next with
        | some next => trunks oldTrunk rounds next (counted + (leaves + 1)) free
        | none => pure (counted + (leaves + 1))

/-- The part of `finish` that writes the returned pages as a freelist in front of the old one. -/
def writeFreelist (freeCount : Nat) (ranges : List (Nat × Nat)) : WriterM Unit := do
  let self ← get
  let oldCount := ofBE (slice self.header 36 4)
  let oldTrunk := ofBE (slice self.header 32 4)
  scratch
  let (first, free) ← nextFree ⟨(0, 0), ranges⟩
  match first with
  | none => throw (invalid "missing free pages")
  | some first => do
      let counted ← trunks oldTrunk (rangePages ranges).length first 0 free
      if counted ≠ freeCount then throw (invalid "free-page count mismatch")
      else do
        modify fun w => { w with header := overwrite w.header 32 (toBE 4 first) }
        if oldCount + freeCount > u32Max then throw (invalid "free-page count overflow")
        else modify fun w =>
          { w with header := overwrite w.header 36 (toBE 4 (oldCount + freeCount)) }

/-- The branch of `finish` for a writer with dynamic allocation. -/
def settle (allocator : Allocator) : WriterM Unit := do
  let active ← call Access.loadActive
  if active ≠ 0 then throw (invalid "dynamic workers have not completed")
  else do
    let failed ← call Access.loadFailed
    if failed then throw (invalid "dynamic worker was abandoned or failed")
    else do
      let self ← get
      match self.rangeEnd with
      | none => throw unwrapNone
      | some stop => do
          returnTail allocator self.nextPage stop
          let ranges ← ofExcept (← call .closeFree)
          let next ← call Access.loadNext
          modify fun w => { w with nextPage := next }
          ofExcept (← call (.setLen (next - 1)))
          let freeCount ← call Access.loadFreeCount
          if freeCount > 0 then writeFreelist freeCount ranges else pure ()

/-- The database header with the change counter advanced and `pages` pages. -/
def stamped (header : Bytes) (pages : Nat) : Bytes :=
  let change := toBE 4 ((ofBE (slice header 24 4) + 1) % 4294967296)
  overwrite (overwrite (overwrite header 24 change) 28 (toBE 4 pages)) 92 change

/-- The end of `finish` -/
def publish : WriterM Unit := do
  modify fun w => { w with header := stamped w.header (w.nextPage - 1), position := 0 }
  let self ← get
  ofExcept (← call (.writeHeader self.header))
  flush

/-- `PageWriter::finish`, without the drop of `self` at its end -/
def finish : WriterM Unit := do
  let self ← get
  if self.dynamicWorker ∨ self.allocator = none ∧ self.rangeEnd.isSome then
    throw (invalid "range writers must complete without updating the database header")
  else do
    flush
    match self.allocator with
    | some allocator => settle allocator
    | none => pure ()
    publish

/-! ## Dropping a writer -/

/-- `<PageWriter as Drop>::drop` -/
def drop : WriterM Unit := do
  let self ← get
  if self.dynamicWorker ∧ self.dynamicCompleted = false ∧ self.allocator.isSome then do
    call Access.storeFailed
    call Access.leave

/-- A method that takes the writer by value drops it, however it ends. -/
def consuming (method : WriterM Unit) : WriterM Unit := do
  let result ← attempt method
  drop
  ofExcept result

end Writer

end Velr
