import Velr.Common.Prog
import Velr.PageWriter.Page

/-!
# The page writer

`PageWriter` of `page_writer.rs`, method by method. A writer owns its stream position, its next
page and, when it is confined to a range or a block, the end of that range; everything it shares
with other writers (the block allocator of `enable_dynamic` and the database file) is reached
through the atomic accesses of `Access`. `Access.grant` stands for the compare-and-swap loop of
`BlockAllocator::grant` around the arithmetic of `Allocator.grantEnd`; `Session` splits it into
its loads and exchanges.

`BufWriter` is modelled as unbuffered: a write takes effect at once, and both it and a later
`flush` may fail. The private spools of child descriptors are lists whose file operations may
fail (`Access.scratch`). Page numbers are `u32`; where the source computes without a check, the
bytes of the result are the low four bytes of the unbounded number.
-/

namespace Velr

open ByteString Interleaving

/-- The constant part of `BlockAllocator`. -/
structure Allocator where
  bootstrapEnd : Nat
  blockPages : Nat
  pending : Nat
  deriving DecidableEq, Repr

/-- What a writer does to the memory and the file it shares with other writers. -/
inductive Access where
  /-- `roots.lock()?.insert(root)` -/
  | claimRoot (root : Nat)
  /-- the exchange loop of `BlockAllocator::grant`, for `pages` pages -/
  | grant (allocator : Allocator) (pages : Nat)
  /-- the ranges `return_tail` writes to `free_output` under its lock and adds to `free_count` -/
  | free (ranges : List (Nat × Nat))
  /-- `output.write_all` of one page at the stream position -/
  | write (page : Nat) (bytes : Bytes)
  /-- `output.flush()` -/
  | flush
  /-- an operation on a private temporary file -/
  | scratch
  | loadFailed
  | storeFailed
  | loadActive
  /-- `active.fetch_add(1)` -/
  | enter
  /-- `active.fetch_sub(1)` -/
  | leave
  | loadNext
  /-- `free_output.lock()?.take()`, flushed, and the ranges the spool then holds -/
  | closeFree
  | loadFreeCount
  /-- `output.get_mut().set_len` in pages -/
  | setLen (pages : Nat)
  /-- the 100 bytes at the start of the file -/
  | writeHeader (bytes : Bytes)

/-- What an access returns. -/
@[reducible] def Access.Answer : Access → Type
  | .claimRoot _ | .free _ | .write _ _ | .flush | .scratch | .setLen _ | .writeHeader _ =>
      Except Fault Unit
  | .grant _ _ => Except Fault (Nat × Nat)
  | .closeFree => Except Fault (List (Nat × Nat))
  | .loadFailed => Bool
  | .loadActive => Int
  | .loadNext | .loadFreeCount => Nat
  | .storeFailed | .enter | .leave => Unit

structure Writer where
  header : Bytes
  pageSize : PageSize
  nextPage : Nat
  rangeEnd : Option Nat
  assignedRoot : Option Nat
  allocator : Option Allocator
  dynamicWorker : Bool
  dynamicCompleted : Bool
  /-- The stream position of `output`, in pages. -/
  position : Nat

abbrev WriterM (α : Type) : Type := Method Access Access.Answer Fault Writer α

abbrev Record := Int64 × Bytes

/-- `rowid as u64` -/
def asU64 (rowid : Int64) : Nat := rowid.toUInt64.toNat

structure Child where
  page : Nat
  boundary : Bytes

def u32Max : Nat := 4294967295

def invalid (message : String) : Fault := .error message

def unwrapNone : Fault := .panic "called `Option::unwrap()` on a `None` value"

/-- The error that a page number beyond `u32` raises. -/
def exhaustedSpace : Fault := invalid "database page space exhausted"

def claimedRoot : Fault := invalid "dynamic tree root is already claimed"

/-- SQLite's pending-byte page. -/
def pendingPage (pageSize : Nat) : Nat := 0x40000000 / pageSize + 1

/-- The end that `BlockAllocator::grant` computes for a block of `pages` pages at `start`. -/
def Allocator.grantEnd (self : Allocator) (pages start : Nat) : Except Fault Nat :=
  let stop := start + pages
  if stop > u32Max then .error exhaustedSpace
  else if start ≤ self.pending ∧ self.pending < stop then
    if stop + 1 > u32Max then .error exhaustedSpace
    else .ok (stop + 1)
  else .ok stop

/-- The ranges `return_tail` writes, without the pending-byte page and without empty ones. -/
def Allocator.tailRanges (self : Allocator) (start stop : Nat) : List (Nat × Nat) :=
  let ranges :=
    if start ≤ self.pending ∧ self.pending < stop then
      [(start, self.pending), (self.pending + 1, stop)]
    else [(start, stop), (stop, stop)]
  ranges.filter fun range => range.1 < range.2

/-- The pages of a list of ranges, in order. -/
def rangePages (ranges : List (Nat × Nat)) : List Nat :=
  ranges.flatMap fun range => List.range' range.1 (range.2 - range.1)

namespace Writer

open Method

/-- An access followed by the `?` operator. -/
def flush : WriterM Unit := do ofExcept (← call .flush)

def scratch : WriterM Unit := do ofExcept (← call .scratch)

/-- `output.write_all` of one page at the stream position. -/
def writeAll (page : Bytes) : WriterM Unit := do
  let self ← get
  ofExcept (← call (.write (self.position + 1) page))
  modify fun w => { w with position := w.position + 1 }

/-- `BlockAllocator::claim_root` -/
def claimRoot (allocator : Allocator) (root : Nat) : WriterM Unit := do
  if root ≤ 1 ∨ root ≥ allocator.bootstrapEnd then
    throw (invalid "invalid dynamic tree root")
  else ofExcept (← call (.claimRoot root))

/-- `BlockAllocator::grant` -/
def grant (allocator : Allocator) (needed : Nat) : WriterM (Nat × Nat) := do
  let pages := max allocator.blockPages needed
  if pages = 0 then throw (invalid "empty dynamic allocation")
  else ofExcept (← call (.grant allocator pages))

/-- `BlockAllocator::return_tail` -/
def returnTail (allocator : Allocator) (start stop : Nat) : WriterM Unit := do
  if start ≥ stop then pure ()
  else ofExcept (← call (.free (allocator.tailRanges start stop)))

/-- The pages of the current block that can still be written. -/
def available (allocator : Allocator) (nextPage stop : Nat) : Nat :=
  if nextPage ≤ allocator.pending ∧ allocator.pending < stop then stop - nextPage - 1
  else stop - nextPage

/-- `PageWriter::ensure_contiguous` -/
def ensureContiguous (pages : Nat) : WriterM Unit := do
  let self ← get
  match self.allocator, self.rangeEnd with
  | none, _ => pure ()
  | some _, none => throw unwrapNone
  | some allocator, some stop =>
      if available allocator self.nextPage stop ≥ pages then pure ()
      else do
        flush
        returnTail allocator self.nextPage stop
        modify fun w => { w with rangeEnd := some w.nextPage }
        let range ← grant allocator pages
        modify fun w => { w with nextPage := range.1, rangeEnd := some range.2 }
        modify fun w => { w with position := range.1 - 1 }

/-- `PageWriter::next_available` -/
def nextAvailable (self : Writer) (page : Nat) : Nat :=
  if page = pendingPage self.pageSize.bytes then page + 1 else page

/-- The writer is confined to a range and has reached its end. -/
def exhausted (self : Writer) : Bool := self.rangeEnd.any fun stop => self.nextPage ≥ stop

/-- The step of `append` that fills the pending-byte page with zeros. -/
def skipPending : WriterM Unit := do
  let self ← get
  if self.nextAvailable self.nextPage ≠ self.nextPage then do
    writeAll (List.replicate self.pageSize.bytes 0)
    modify fun w => { w with nextPage := w.nextPage + 1 }

/-- The end of `append`, behind the pending-byte page. -/
def appendNext (page : Bytes) : WriterM Nat := do
  let self ← get
  if self.exhausted then throw (invalid "packed tree exceeded its reserved page range")
  else if self.nextPage + 1 > u32Max then throw exhaustedSpace
  else do
    modify fun w => { w with nextPage := w.nextPage + 1 }
    writeAll page
    pure self.nextPage

/-- `PageWriter::append` -/
def append (page : Bytes) : WriterM Nat := do
  let self ← get
  if page.length ≠ self.pageSize.bytes then
    throw (.panic "assertion failed: page.len() == self.page_size")
  else do
    ensureContiguous 1
    let self ← get
    if self.exhausted then throw (invalid "packed tree exceeded its reserved page range")
    else do
      skipPending
      appendNext page

/-- `PageWriter::root` -/
def root (root : Nat) (bytes : Bytes) : WriterM Unit := do
  let self ← get
  let rootLimit := (self.allocator.map (·.bootstrapEnd)).getD self.nextPage
  if self.assignedRoot.any (· ≠ root) then
    throw (invalid "range writer cannot replace another tree root")
  else if root ≤ 1 ∨ root ≥ rootLimit then throw (invalid "invalid body root page")
  else do
    flush
    modify fun w => { w with position := root - 1 }
    writeAll bytes
    flush
    modify fun w => { w with position := self.position }

/-! ## Cells -/

def minimumLocal (usable : Nat) : Nat := (usable - 12) * 32 / 255 - 23

def maximumLocal (usable : Nat) : Kind → Nat
  | .table => usable - 35
  | .index => (usable - 12) * 64 / 255 - 23

/-- How much of a payload of `length` bytes `cell` stores on the page itself. -/
def localLength (usable : Nat) (kind : Kind) (length : Nat) : Nat :=
  if length ≤ maximumLocal usable kind then length
  else
    let candidate := minimumLocal usable + (length - minimumLocal usable) % (usable - 4)
    if candidate ≤ maximumLocal usable kind then candidate else minimumLocal usable

/-- The varints in front of a leaf payload. -/
def cellPrefix (kind : Kind) (rowid : Int64) (length : Nat) : Bytes :=
  varint length ++ match kind with
    | .table => varint (asU64 rowid)
    | .index => []

/-- The loop of `cell` that appends the overflow pages of `remaining`; the fuel is the number of
bytes that remain, and every page takes at least one. -/
def overflow : Nat → Bytes → WriterM Unit
  | 0, remaining =>
      if remaining = [] then pure ()
      else throw (.panic "the overflow loop ran out of bytes")
  | fuel + 1, remaining =>
      if remaining = [] then pure ()
      else do
        let self ← get
        let usable := self.pageSize.bytes
        let take := min remaining.length (usable - 4)
        let id := self.nextAvailable self.nextPage
        let next := if remaining.length > take then self.nextAvailable (id + 1) else 0
        let page := overwrite (List.replicate usable 0) 0 (toBE 4 next)
        let page := overwrite page 4 (remaining.take take)
        let _ ← append page
        overflow fuel (remaining.drop take)

/-- `PageWriter::cell` -/
def cell (kind : Kind) (rowid : Int64) (record : Bytes) : WriterM Bytes := do
  let self ← get
  let usable := self.pageSize.bytes
  let stored := localLength usable kind record.length
  let out := cellPrefix kind rowid record.length ++ record.take stored
  if stored < record.length then
    let pages := (record.length - stored + (usable - 4) - 1) / (usable - 4)
    if pages > u32Max then throw (invalid "overflow chain page count exhausted")
    else do
      ensureContiguous pages
      let self ← get
      let out := out ++ toBE 4 (self.nextAvailable self.nextPage)
      overflow (record.length - stored) (record.drop stored)
      pure out
  else pure out

/-! ## Trees -/

/-- The cell of a record in two parts: the bytes in front and, when the record fits on the page,
the record itself. -/
def leafCell (kind : Kind) (rowid : Int64) (record : Bytes) : WriterM (Bytes × Bytes) := do
  let self ← get
  if record.length ≤ maximumLocal self.pageSize.bytes kind then
    pure (cellPrefix kind rowid record.length, record)
  else do
    let cell ← cell kind rowid record
    pure (cell, [])

/-- What separates a full leaf from the next one, and the leaf without it: the last rowid of a
table, the last cell of an index. -/
def leafBoundary (kind : Kind) (page : Page) (previous : Option Int64) :
    Except Fault (Bytes × Page) :=
  match kind, previous with
  | .table, some previous => .ok (varint (asU64 previous), page)
  | .table, none => .error unwrapNone
  | .index, _ => page.pop

/-- The step of `tree` that writes a full leaf and starts the next one. -/
def closeLeaf (kind : Kind) (page : Page) (previous : Option Int64) :
    WriterM (Page × Child) := do
  let (boundary, page) ← ofExcept (leafBoundary kind page previous)
  let id ← append (page.image 0)
  scratch
  pure (page.clear, ⟨id, boundary⟩)

def unordered : Fault := invalid "table rowids are not strictly increasing"

/-- The loop of `tree` over the records: the page being filled and the leaves closed so far. -/
def leaves (kind : Kind) :
    List (Except Fault Record) → Page → List Child → Option Int64 → WriterM (Page × List Child)
  | [], page, children, _ => pure (page, children)
  | .error fault :: _, _, _, _ => throw fault
  | .ok (rowid, record) :: records, page, children, previous => do
      if kind = .table ∧ previous.any (rowid ≤ ·) then throw unordered
      else do
        let (cell, payload) ← leafCell kind rowid record
        if page.fits (cell.length + payload.length) then do
          let page ← ofExcept (page.pushParts cell payload)
          leaves kind records page children (some rowid)
        else do
          let (page, child) ← closeLeaf kind page previous
          let page ← ofExcept (page.pushParts cell payload)
          leaves kind records page (children ++ [child]) (some rowid)

/-- The cells of an interior page: every child but the last, with the boundary behind it. -/
def pushChildren : Page → List Child → Except Fault Page
  | page, [] => .ok page
  | page, child :: rest => do
      let page ← page.push (toBE 4 child.page ++ child.boundary)
      pushChildren page rest

/-- `PageWriter::parent` -/
def parent (atRoot : Option Nat) (kind : Kind) (group : List Child) : WriterM Child := do
  let self ← get
  let page ← ofExcept (pushChildren (Page.new self.pageSize.bytes kind true) group.dropLast)
  match group.getLast? with
  | none => throw (.panic "attempt to subtract with overflow")
  | some last => do
      let bytes := page.image last.page
      let id ← match atRoot with
        | some page => do
            root page bytes
            pure page
        | none => append bytes
      pure ⟨id, last.boundary⟩

/-- The space the next child takes in the interior page of `group`. -/
def additional (group : List Child) : Nat :=
  (group.getLast?.map fun last => 6 + last.boundary.length).getD 0

/-- The loop of `level` over the child descriptors. -/
def groups (kind : Kind) : List Child → Option (List Child) → List Child → Nat → List Child →
    WriterM (Option (List Child) × List Child × List Child)
  | [], previous, group, _, next => pure (previous, group, next)
  | child :: rest, previous, group, used, next => do
      let self ← get
      if used + additional group > self.pageSize.bytes then do
        let next ← match previous with
          | some previous => do
              let parent ← parent none kind previous
              scratch
              pure (next ++ [parent])
          | none => pure next
        groups kind rest (some group) [child] 12 next
      else groups kind rest previous (group ++ [child]) (used + additional group) next

/-- The step of `level` in which a last group of a single child borrows one. -/
def lend (previous group : List Child) : Except Fault (List Child × List Child) :=
  if group.length = 1 then
    match previous.getLast? with
    | none => .error unwrapNone
    | some borrowed => .ok (previous.dropLast, borrowed :: group)
  else .ok (previous, group)

/-- `PageWriter::level` -/
def level (root : Nat) (kind : Kind) (children : List Child) : WriterM (Option (List Child)) := do
  scratch
  scratch
  let (previous, group, next) ← groups kind children none [] 12 []
  match previous with
  | some previous => do
      let (previous, group) ← ofExcept (lend previous group)
      let left ← parent none kind previous
      scratch
      let right ← parent none kind group
      scratch
      pure (some (next ++ [left] ++ [right]))
  | none => do
      let _ ← parent (some root) kind group
      pure none

/-- The loop at the end of `tree`. Every level has fewer children than the one below it, so the
number of leaves bounds the rounds. -/
def levels (root : Nat) (kind : Kind) : Nat → List Child → WriterM Unit
  | 0, _ => throw (.panic "the level loop ran out of rounds")
  | rounds + 1, children => do
      match ← level root kind children with
      | none => pure ()
      | some next => levels root kind rounds next

/-- The start of `tree`: with dynamic allocation no two trees have the same root. -/
def claimTree (root : Nat) : WriterM Unit := do
  let self ← get
  match self.allocator with
  | none => pure ()
  | some allocator =>
      if self.assignedRoot.any (· ≠ root) then
        throw (invalid "dynamic writer cannot replace another tree root")
      else if self.dynamicWorker then pure ()
      else claimRoot allocator root

/-- `PageWriter::tree` -/
def tree (root : Nat) (kind : Kind) (records : List (Except Fault Record)) : WriterM Unit := do
  claimTree root
  scratch
  let self ← get
  let (page, children) ←
    leaves kind records (Page.new self.pageSize.bytes kind false) [] none
  if children.length = 0 then Writer.root root (page.image 0)
  else do
    let id ← append (page.image 0)
    scratch
    let children := children ++ [⟨id, []⟩]
    levels root kind children.length children

/-- `PageWriter::table_from` and `PageWriter::index_from`: a tree that fails poisons the
allocator. A panic unwinds past the store. -/
def treeFrom (root : Nat) (kind : Kind) (records : List (Except Fault Record)) :
    WriterM Unit := do
  let result ← attempt (tree root kind records)
  match result with
  | .ok () => pure ()
  | .error (.panic message) => throw (.panic message)
  | .error (.error message) => do
      let self ← get
      if self.allocator.isSome then call Access.storeFailed
      throw (.error message)

def tableFrom (root : Nat) (records : List (Except Fault Record)) : WriterM Unit :=
  treeFrom root .table records

def indexFrom (root : Nat) (records : List (Except Fault Record)) : WriterM Unit :=
  treeFrom root .index records

end Writer

end Velr
