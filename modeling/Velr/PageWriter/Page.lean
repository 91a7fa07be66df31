import Velr.PageWriter.Varint

/-!
# B-tree pages under construction

`Page` of `page_writer.rs`: cells are copied to the end of the page, growing downwards from
`bottom`, and their offsets are kept aside until `image` writes the page header and the cell
pointer array in front. `Page.Holds` is the invariant of a page into which the cells `cells` were
pushed; every operation has one lemma that says what it does to it, and `Holds.image_eq` gives the
finished image as header, pointer array, free space and content.
-/

namespace Velr

open ByteString

/-- How a call into the writer can fail: the `io::Error` it returns, or the panic of an assertion,
an `unwrap` or a slice index. -/
inductive Fault where
  | error (message : String)
  | panic (message : String)
  deriving DecidableEq, Repr

def Fault.isPanic : Fault → Bool
  | .panic _ => true
  | .error _ => false

/-- A page size that `PageWriter::open` accepts. -/
structure PageSize where
  bytes : Nat
  lower : 512 ≤ bytes
  upper : bytes ≤ 32768
  power : bytes = 2 ^ bytes.log2

inductive Kind where
  | table
  | index
  deriving DecidableEq, Repr

structure Page where
  bytes : Bytes
  offsets : List Nat
  bottom : Nat
  interior : Bool
  kind : Kind

namespace Page

/-- `Page::new` -/
def new (size : Nat) (kind : Kind) (interior : Bool) : Page where
  bytes := List.replicate size 0
  offsets := []
  bottom := size
  interior := interior
  kind := kind

/-- `Page::header_size` -/
def headerSize (self : Page) : Nat := if self.interior then 12 else 8

/-- `Page::fits` -/
def fits (self : Page) (bytes : Nat) : Bool :=
  self.headerSize + (self.offsets.length + 1) * 2 + bytes ≤ self.bottom

/-- The body of `push_parts` behind its assertion. -/
def place (self : Page) (pre payload : Bytes) : Page :=
  let bottom := self.bottom - (pre.length + payload.length)
  let bytes := overwrite self.bytes bottom pre
  let bytes := overwrite bytes (bottom + pre.length) payload
  { self with bytes, bottom, offsets := self.offsets ++ [bottom % 65536] }

/-- `Page::push_parts` -/
def pushParts (self : Page) (pre payload : Bytes) : Except Fault Page :=
  if self.fits (pre.length + payload.length) then .ok (self.place pre payload)
  else .error (.panic "assertion failed: self.fits(length)")

/-- `Page::push` -/
def push (self : Page) (bytes : Bytes) : Except Fault Page := self.pushParts bytes []

/-- `Page::pop` -/
def pop (self : Page) : Except Fault (Bytes × Page) :=
  match self.offsets.getLast? with
  | none => .error (.panic "called `Option::unwrap()` on a `None` value")
  | some start =>
      let offsets := self.offsets.dropLast
      let stop := offsets.getLast?.getD self.bytes.length
      .ok (slice self.bytes start (stop - start), { self with offsets, bottom := stop })

/-- The page type of the file format. -/
def typeByte : Kind → Bool → UInt8
  | .table, false => 13
  | .table, true => 5
  | .index, false => 10
  | .index, true => 2

/-- The loop of `image` over the cell pointer array. -/
def writePointers (bytes : Bytes) (i : Nat) : List Nat → Bytes
  | [] => bytes
  | offset :: rest => writePointers (overwrite bytes i (toBE 2 offset)) (i + 2) rest

/-- `Page::image` -/
def image (self : Page) (right : Nat) : Bytes :=
  let bytes := overwrite self.bytes 0 [typeByte self.kind self.interior]
  let bytes := overwrite bytes 1 [0, 0]
  let bytes := overwrite bytes 3 (toBE 2 self.offsets.length)
  let bytes := overwrite bytes 5 (toBE 2 self.bottom)
  let bytes := overwrite bytes 7 [0]
  let bytes := if self.interior then overwrite bytes 8 (toBE 4 right) else bytes
  writePointers bytes self.headerSize self.offsets

/-- `Page::clear` -/
def clear (self : Page) : Page :=
  { self with bytes := List.replicate self.bytes.length 0, offsets := [],
              bottom := self.bytes.length }

/-! ## What a page holds -/

/-- The offsets of cells that were laid out downwards from `top`. -/
def cellOffsets : Nat → List Bytes → List Nat
  | _, [] => []
  | top, cell :: cells => (top - cell.length) :: cellOffsets (top - cell.length) cells

@[simp] theorem length_cellOffsets (top : Nat) (cells : List Bytes) :
    (cellOffsets top cells).length = cells.length := by
  induction cells generalizing top with
  | nil => rfl
  | cons cell cells ih => simp [cellOffsets, ih]

/-- Later cells lie below earlier ones. -/
theorem cellOffsets_append (top : Nat) (a b : List Bytes) :
    cellOffsets top (a ++ b) = cellOffsets top a ++ cellOffsets (top - a.flatten.length) b := by
  induction a generalizing top with
  | nil => simp [cellOffsets]
  | cons cell a ih => simp [cellOffsets, ih, Nat.sub_sub]

/-- The last cell begins where the cells end. -/
theorem getLast?_cellOffsets_concat (top : Nat) (a : List Bytes) (cell : Bytes) :
    (cellOffsets top (a ++ [cell])).getLast? = some (top - (a ++ [cell]).flatten.length) := by
  rw [cellOffsets_append]
  simp [cellOffsets, Nat.sub_sub]

/-- The page was built from the empty page of `size` bytes by pushing `cells`. -/
structure Holds (page : Page) (size : Nat) (cells : List Bytes) : Prop where
  length : page.bytes.length = size
  bottom : page.bottom + cells.flatten.length = size
  content : page.bytes.drop page.bottom = cells.reverse.flatten
  offsets : page.offsets = cellOffsets size cells
  room : page.headerSize + cells.length * 2 ≤ page.bottom

/-- A new page holds no cells. -/
theorem new_holds {size : Nat} (h : 12 ≤ size) (kind : Kind) (interior : Bool) :
    (new size kind interior).Holds size [] where
  length := by simp [new]
  bottom := by simp [new]
  content := by simp [new]
  offsets := rfl
  room := by cases interior <;> simp [new, headerSize] <;> omega

/-- Neither does one that is cleared. -/
theorem Holds.clear {self : Page} {size : Nat} {cells : List Bytes} (h : self.Holds size cells)
    (hsize : 12 ≤ size) : self.clear.Holds size [] where
  length := by simp [Page.clear, h.length]
  bottom := by simp [Page.clear, h.length]
  content := by simp [Page.clear]
  offsets := by simp [Page.clear, cellOffsets]
  room := by
    have := h.length
    cases hi : self.interior <;> simp [Page.clear, headerSize, hi] <;> omega

/-- `fits` is true exactly if the header, the pointers and the cells leave room. -/
theorem fits_iff {self : Page} {size : Nat} {cells : List Bytes} (h : self.Holds size cells)
    (bytes : Nat) :
    self.fits bytes = true ↔
      self.headerSize + (cells.length + 1) * 2 + bytes + cells.flatten.length ≤ size := by
  have := h.bottom
  simp only [fits, decide_eq_true_eq, h.offsets, length_cellOffsets]
  omega

/-- A cell that fits is pushed; nothing of the earlier cells moves. -/
theorem Holds.pushParts {self : Page} {size : Nat} {cells : List Bytes}
    (h : self.Holds size cells) (hsize : size ≤ 32768) {pre payload : Bytes}
    (hfits : self.fits (pre.length + payload.length)) :
    ∃ page, self.pushParts pre payload = .ok page ∧
      page.Holds size (cells ++ [pre ++ payload]) ∧
      page.kind = self.kind ∧ page.interior = self.interior := by
  have hf := (fits_iff h _).mp hfits
  have hb := h.bottom
  have hlen := h.length
  have hroom : self.bottom - (pre.length + payload.length) + pre.length ≤ self.bytes.length := by
    omega
  refine ⟨self.place pre payload, if_pos hfits, ?_, rfl, rfl⟩
  constructor <;> simp only [place]
  · rw [length_overwrite, length_overwrite, hlen] <;>
      (try rw [length_overwrite]) <;> omega
  · simp only [List.flatten_append, List.length_append, List.flatten_cons, List.flatten_nil,
      List.append_nil]
    omega
  · rw [overwrite_overwrite hroom, drop_overwrite_self (by omega), List.length_append]
    have hback : self.bottom - (pre.length + payload.length) + (pre.length + payload.length)
        = self.bottom := by omega
    rw [hback, h.content]
    simp
  · have htop : self.bottom - (pre.length + payload.length)
        = size - cells.flatten.length - (pre ++ payload).length := by
      simp only [List.length_append]; omega
    rw [cellOffsets_append, h.offsets, cellOffsets, cellOffsets, ← htop, Nat.mod_eq_of_lt]
    omega
  · simp only [headerSize, List.length_append, List.length_singleton] at hf ⊢
    omega

/-- Popping returns the cell that was pushed last and leaves the others. -/
theorem Holds.pop {self : Page} {size : Nat} {cells : List Bytes} {cell : Bytes}
    (h : self.Holds size (cells ++ [cell])) :
    ∃ page, self.pop = .ok (cell, page) ∧ page.Holds size cells ∧
      page.kind = self.kind ∧ page.interior = self.interior := by
  have hb := h.bottom
  have hlast : self.offsets.getLast? = some self.bottom := by
    rw [h.offsets, getLast?_cellOffsets_concat, Option.some.injEq]; omega
  have hdrop : self.offsets.dropLast = cellOffsets size cells := by
    rw [h.offsets, cellOffsets_append, cellOffsets, cellOffsets, List.dropLast_concat]
  have hflat : (cells ++ [cell]).flatten.length = cells.flatten.length + cell.length := by simp
  have hstop : (cellOffsets size cells).getLast?.getD self.bytes.length
      = self.bottom + cell.length := by
    rcases List.eq_nil_or_concat' cells with rfl | ⟨init, last, rfl⟩
    · have := h.length
      simp only [cellOffsets, List.getLast?_nil, Option.getD_none, List.nil_append,
        List.flatten_cons, List.flatten_nil, List.append_nil] at this hb ⊢
      omega
    · rw [getLast?_cellOffsets_concat, Option.getD_some]
      omega
  have hcontent : self.bytes.drop self.bottom = cell ++ cells.reverse.flatten := by
    rw [h.content]; simp
  refine ⟨{ self with offsets := self.offsets.dropLast,
                      bottom := self.bottom + cell.length }, ?_, ?_, rfl, rfl⟩
  · have hslice : slice self.bytes self.bottom (self.bottom + cell.length - self.bottom)
        = cell := by
      rw [slice, hcontent, Nat.add_sub_cancel_left, List.take_left]
    simp only [Page.pop, hlast, hdrop, hstop, hslice]
  · refine ⟨h.length, by simp only; omega, ?_, by simp only [hdrop], ?_⟩
    · rw [← List.drop_drop, hcontent, List.drop_left]
    · have := h.room
      simp only [headerSize, List.length_append, List.length_singleton] at this ⊢
      omega

/-! ## The finished image -/

/-- The cell pointer array. -/
def pointerArray (offsets : List Nat) : Bytes := (offsets.map (toBE 2)).flatten

@[simp] theorem length_pointerArray (offsets : List Nat) :
    (pointerArray offsets).length = offsets.length * 2 := by
  induction offsets with
  | nil => rfl
  | cons offset rest ih =>
      simp only [pointerArray, List.map_cons, List.flatten_cons, List.length_append,
        length_toBE, List.length_cons] at ih ⊢
      omega

/-- The pointers are written one behind the other. -/
theorem writePointers_eq (bytes : Bytes) (i : Nat) (offsets : List Nat)
    (h : i + offsets.length * 2 ≤ bytes.length) :
    writePointers bytes i offsets = overwrite bytes i (pointerArray offsets) := by
  induction offsets generalizing bytes i with
  | nil => simp [writePointers, pointerArray, overwrite]
  | cons offset rest ih =>
      simp only [List.length_cons] at h
      have hlen := length_overwrite (s := bytes) (b := toBE 2 offset) (i := i)
        (by rw [length_toBE]; omega)
      rw [writePointers, ih _ _ (by omega)]
      have hw := overwrite_overwrite (s := bytes) (a := toBE 2 offset)
        (b := pointerArray rest) (i := i) (by simp only [length_toBE]; omega)
      rw [length_toBE] at hw
      rw [hw]
      rfl

/-- The page header. -/
def header (self : Page) (right : Nat) : Bytes :=
  typeByte self.kind self.interior :: 0 :: 0 :: (toBE 2 self.offsets.length
    ++ (toBE 2 self.bottom ++ 0 :: if self.interior then toBE 4 right else []))

@[simp] theorem length_header (self : Page) (right : Nat) :
    (self.header right).length = self.headerSize := by
  simp only [header, headerSize, List.length_cons, List.length_append, length_toBE]
  split <;> simp

/-- An image is the header, the pointer array and the bytes behind them. -/
theorem Holds.image_eq {self : Page} {size : Nat} {cells : List Bytes}
    (h : self.Holds size cells) (right : Nat) :
    self.image right = self.header right ++ (pointerArray self.offsets
      ++ self.bytes.drop (self.headerSize + self.offsets.length * 2)) := by
  have hroom : self.headerSize + self.offsets.length * 2 ≤ self.bytes.length := by
    have := h.room; have := h.bottom; have := h.length
    rw [h.offsets, length_cellOffsets]
    omega
  have h8 : 8 ≤ self.headerSize := by unfold headerSize; split <;> omega
  have hfield {a b : Bytes} {i : Nat} (hi : i = a.length) (ha : a.length ≤ self.bytes.length) :
      overwrite (overwrite self.bytes 0 a) i b = overwrite self.bytes 0 (a ++ b) := by
    subst hi
    simpa using overwrite_overwrite (s := self.bytes) (a := a) (b := b) (i := 0) (by omega)
  have hpre : self.image right
      = writePointers (overwrite self.bytes 0 (self.header right)) self.headerSize
          self.offsets := by
    unfold image header
    simp only
    rw [hfield (by simp) (by simp; omega), hfield (by simp) (by simp; omega),
      hfield (by simp) (by simp; omega), hfield (by simp) (by simp; omega)]
    by_cases hint : self.interior
    · rw [if_pos hint, if_pos hint, hfield (by simp) (by simp; omega)]
      simp
    · rw [if_neg hint, if_neg hint]
      simp
  have hlen := length_overwrite (s := self.bytes) (b := self.header right) (i := 0)
    (by rw [length_header]; omega)
  rw [hpre, writePointers_eq _ _ _ (by omega), hfield (by simp) (by rw [length_header]; omega),
    overwrite_zero, List.append_assoc, List.length_append, length_header, length_pointerArray]

/-- The image of a page has the size of a page. -/
theorem Holds.length_image {self : Page} {size : Nat} {cells : List Bytes}
    (h : self.Holds size cells) (right : Nat) : (self.image right).length = size := by
  have hroom := h.room
  have hb := h.bottom
  have hl := h.length
  have ho : self.offsets.length = cells.length := by rw [h.offsets, length_cellOffsets]
  rw [h.image_eq]
  simp only [List.length_append, length_header, length_pointerArray, List.length_drop]
  omega

/-- In the image the content area is where the page had it. -/
theorem Holds.drop_image {self : Page} {size : Nat} {cells : List Bytes}
    (h : self.Holds size cells) (right : Nat) :
    (self.image right).drop self.bottom = cells.reverse.flatten := by
  have hroom := h.room
  have ho : self.offsets.length = cells.length := by rw [h.offsets, length_cellOffsets]
  have hlen : (self.header right ++ pointerArray self.offsets).length
      = self.headerSize + self.offsets.length * 2 := by simp
  rw [h.image_eq, ← List.append_assoc, List.drop_append,
    List.drop_eq_nil_of_le (by omega), List.nil_append, hlen, List.drop_drop, ← h.content]
  congr 1
  omega

end Page

end Velr
