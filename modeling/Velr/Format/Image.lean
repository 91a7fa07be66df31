import Mathlib.Data.List.Forall2
import Velr.Format.BTree

/-!
# The image of a page reads back as its cells

`Page.image` writes what `readNode` reads: the image of a page that holds the cells `raws` parses
to the cells these bytes encode, in the order in which they were pushed, and to the right-most
child. `Encodes` is the property a single cell needs for this, and the lemmas at the end give it
for the three cell formats the writer produces.
-/

namespace Velr.Format

open ByteString

/-- Wherever the bytes `raw` stand in a page, they parse to `cell`. -/
def Encodes (size : Nat) (kind : Kind) (interior : Bool) (raw : Bytes) (cell : Cell) : Prop :=
  ∀ page start tail, page.drop start = raw ++ tail →
    readCell size kind interior page start = some (cell, start + raw.length)

/-! ## The pointer array -/

/-- Two bytes of the pointer array are the offset of one cell. -/
theorem slice_pointerArray {a c : Bytes} {offsets : List Nat} {i : Nat} (hi : i < offsets.length) :
    slice (a ++ (Page.pointerArray offsets ++ c)) (a.length + i * 2) 2 = toBE 2 offsets[i] := by
  induction offsets generalizing a i with
  | nil => simp at hi
  | cons offset rest ih =>
      have hsplit : Page.pointerArray (offset :: rest) ++ c
          = toBE 2 offset ++ (Page.pointerArray rest ++ c) := by
        simp [Page.pointerArray]
      rw [hsplit]
      cases i with
      | zero => exact slice_middle (by simp) (by simp)
      | succ i =>
          have hlen : a.length + (i + 1) * 2 = (a ++ toBE 2 offset).length + i * 2 := by
            simp only [List.length_append, length_toBE]; omega
          rw [← List.append_assoc, hlen]
          simpa using ih (a := a ++ toBE 2 offset) (i := i) (by simpa using hi)

/-- The pointer array is read back as the offsets of the cells. -/
theorem cellStarts_eq {a c : Bytes} {offsets : List Nat} (h : ∀ offset ∈ offsets, offset < 65536) :
    cellStarts (a ++ (Page.pointerArray offsets ++ c)) a.length offsets.length = offsets := by
  apply List.ext_getElem
  · simp [cellStarts]
  · intro i h1 h2
    have hi : i < offsets.length := by simpa [cellStarts] using h1
    simp only [cellStarts, List.getElem_map, List.getElem_range]
    rw [slice_pointerArray hi]
    exact ofBE_toBE_of_lt (h _ (List.getElem_mem hi))

/-! ## The cells -/

/-- Where cells laid out downwards from `top` end. -/
def cellStops : Nat → List Bytes → List Nat
  | _, [] => []
  | top, raw :: raws => top :: cellStops (top - raw.length) raws

@[simp] theorem length_cellStops (top : Nat) (raws : List Bytes) :
    (cellStops top raws).length = raws.length := by
  induction raws generalizing top with
  | nil => rfl
  | cons raw raws ih => simp [cellStops, ih]

/-- Cells laid out downwards from `top` are read in the order in which they were laid out. -/
theorem mapM_readCell {size : Nat} {kind : Kind} {interior : Bool} {image : Bytes} :
    ∀ {raws : List Bytes} {cells : List Cell} {top : Nat} {tail : Bytes},
      List.Forall₂ (Encodes size kind interior) raws cells → raws.flatten.length ≤ top →
      image.drop (top - raws.flatten.length) = raws.reverse.flatten ++ tail →
      (Page.cellOffsets top raws).mapM (readCell size kind interior image)
        = some (cells.zip (cellStops top raws)) := by
  intro raws cells top tail h
  induction h generalizing top tail with
  | nil => intro _ _; simp [Page.cellOffsets]
  | @cons raw cell raws cells hraw _ ih =>
      intro hle hdrop
      simp only [List.flatten_cons, List.length_append] at hle hdrop
      have hrest : image.drop (top - raw.length - raws.flatten.length)
          = raws.reverse.flatten ++ (raw ++ tail) := by
        rw [Nat.sub_sub, hdrop]; simp
      have hhead : image.drop (top - raw.length) = raw ++ tail := by
        have hback : top - raw.length
            = top - raw.length - raws.flatten.length + raws.reverse.flatten.length := by
          simp only [List.length_flatten, List.map_reverse, List.sum_reverse] at hle ⊢
          omega
        rw [hback, ← List.drop_drop, hrest, List.drop_left]
      have hstop : top - raw.length + raw.length = top := by omega
      have hcell := hraw image _ _ hhead
      rw [hstop] at hcell
      rw [Page.cellOffsets, List.mapM_cons, hcell, ih (by omega) hrest]
      rfl

/-- Each cell has four bytes at least, all of them in the content area. -/
theorem extent_bounds {raws : List Bytes} {top : Nat} (hfour : ∀ raw ∈ raws, 4 ≤ raw.length)
    (hle : raws.flatten.length ≤ top) :
    ∀ extent ∈ (Page.cellOffsets top raws).zip (cellStops top raws),
      top - raws.flatten.length ≤ extent.1 ∧ extent.1 + 4 ≤ extent.2 ∧ extent.2 ≤ top := by
  induction raws generalizing top with
  | nil => simp [Page.cellOffsets]
  | cons raw raws ih =>
      simp only [List.flatten_cons, List.length_append] at hle
      have hraw := hfour raw (by simp)
      intro extent hmem
      simp only [Page.cellOffsets, cellStops, List.zip_cons_cons, List.mem_cons] at hmem
      simp only [List.flatten_cons, List.length_append]
      rcases hmem with rfl | hmem
      · simp only; omega
      · have := ih (fun r hr => hfour r (by simp [hr])) (by omega) extent hmem
        omega

/-- The cells do not overlap. -/
theorem extents_apart {raws : List Bytes} {top : Nat} (hfour : ∀ raw ∈ raws, 4 ≤ raw.length)
    (hle : raws.flatten.length ≤ top) :
    Apart ((Page.cellOffsets top raws).zip (cellStops top raws)) := by
  induction raws generalizing top with
  | nil => exact List.Pairwise.nil
  | cons raw raws ih =>
      simp only [List.flatten_cons, List.length_append] at hle
      have hfour' : ∀ r ∈ raws, 4 ≤ r.length := fun r hr => hfour r (by simp [hr])
      refine List.Pairwise.cons (fun extent hmem => .inr ?_) (ih hfour' (by omega))
      exact (extent_bounds hfour' (by omega) extent hmem).2.2

/-- Cells of four bytes or more take what they are long. -/
theorem map_taken {extents : List (Nat × Nat)} (h : ∀ extent ∈ extents, extent.1 + 4 ≤ extent.2) :
    extents.map taken = extents := by
  refine (List.map_congr_left fun extent hextent => ?_).trans (List.map_id extents)
  rw [taken, Nat.max_eq_left (h extent hextent)]
  rfl

/-- Cells of four bytes take four times their number. -/
theorem four_mul_length_le {raws : List Bytes} (hfour : ∀ raw ∈ raws, 4 ≤ raw.length) :
    4 * raws.length ≤ raws.flatten.length := by
  induction raws with
  | nil => exact Nat.le_refl _
  | cons raw raws ih =>
      have hraw := hfour raw (by simp)
      have hrest := ih fun r hr => hfour r (by simp [hr])
      simp only [List.length_cons, List.flatten_cons, List.length_append]
      omega

/-! ## The page -/

section
variable {page : Page} {size : Nat} {raws : List Bytes}

/-- A slice of a page inside its header is the slice of the header. -/
theorem slice_image {a b c : Bytes} {right i n : Nat} (h : page.Holds size raws)
    (hheader : page.header right = a ++ (b ++ c)) (hi : i = a.length) (hn : n = b.length) :
    slice (page.image right) i n = b := by
  rw [h.image_eq, hheader, List.append_assoc, List.append_assoc]
  exact slice_middle hi hn

/-- The image of a page reads back as the cells that were pushed and the right-most child. -/
theorem readNode_image {kind : Kind} {interior : Bool} {cells : List Cell} {right : Nat}
    (h : page.Holds size raws) (hsize : size ≤ 32768)
    (hkind : page.kind = kind) (hinterior : page.interior = interior) (hright : right < 2 ^ 32)
    (hfour : ∀ raw ∈ raws, 4 ≤ raw.length)
    (hcells : List.Forall₂ (Encodes size kind interior) raws cells) :
    readNode size kind interior (page.image right)
      = some ⟨cells, if interior then right else 0⟩ := by
  have hcount : page.offsets.length = raws.length := by rw [h.offsets, Page.length_cellOffsets]
  have hroom := h.room
  have hbottom := h.bottom
  have hlen := h.length
  have hle : raws.flatten.length ≤ size := by omega
  have h8 : 8 ≤ page.headerSize := by unfold Page.headerSize; split <;> omega
  have hsmall : ∀ offset ∈ page.offsets, offset < 65536 := by
    intro offset hmem
    rw [h.offsets] at hmem
    obtain ⟨i, hi, rfl⟩ := List.mem_iff_getElem.mp hmem
    have hi' : i < ((Page.cellOffsets size raws).zip (cellStops size raws)).length := by
      simpa using hi
    have := extent_bounds hfour hle _ (List.getElem_mem hi')
    simp only [List.getElem_zip] at this
    omega
  have hfirst : pageHeaderSize interior = (page.header right).length := by
    rw [Page.length_header, Page.headerSize, hinterior, pageHeaderSize]
  have h1 : slice (page.image right) 1 2 = [0, 0] :=
    slice_image (a := [Page.typeByte page.kind page.interior]) h rfl rfl rfl
  have h3 : slice (page.image right) 3 2 = toBE 2 page.offsets.length :=
    slice_image (a := [Page.typeByte page.kind page.interior, 0, 0]) h rfl rfl (by simp)
  have h5 : slice (page.image right) 5 2 = toBE 2 page.bottom :=
    slice_image (a := [Page.typeByte page.kind page.interior, 0, 0]
      ++ toBE 2 page.offsets.length) h (by simp [Page.header]; rfl) (by simp) (by simp)
  have h7 : slice (page.image right) 7 1 = [0] :=
    slice_image (a := [Page.typeByte page.kind page.interior, 0, 0]
      ++ toBE 2 page.offsets.length ++ toBE 2 page.bottom) h (by simp [Page.header]; rfl)
      (by simp) rfl
  have htype : (page.image right)[0]? = some (Page.typeByte kind interior) := by
    rw [h.image_eq, ← hkind, ← hinterior]; simp [Page.header]
  have hstarts : cellStarts (page.image right) (pageHeaderSize interior) raws.length
      = Page.cellOffsets size raws := by
    rw [← h.offsets, ← hcount, hfirst, h.image_eq]
    exact cellStarts_eq hsmall
  have hcontent : (page.image right).drop (size - raws.flatten.length)
      = raws.reverse.flatten ++ [] := by
    rw [List.append_nil, ← h.drop_image right]; congr 1; omega
  have hread := mapM_readCell hcells hle hcontent
  have hright' : (if interior then ofBE (slice (page.image right) 8 4) else 0)
      = if interior then right else 0 := by
    cases hb : interior with
    | false => rfl
    | true =>
        have h8 : slice (page.image right) 8 4 = toBE 4 right :=
          slice_image (a := [Page.typeByte page.kind page.interior, 0, 0]
            ++ toBE 2 page.offsets.length ++ toBE 2 page.bottom ++ [0]) (c := []) h
            (by simp [Page.header, hinterior, hb]) (by simp) (by simp)
        simp only [if_true, h8]
        exact ofBE_toBE_of_lt (by simpa using hright)
  have hzip : (Page.cellOffsets size raws).length = (cells.zip (cellStops size raws)).length := by
    simp [hcells.length_eq]
  have hstops : (cells.zip (cellStops size raws)).map Prod.snd = cellStops size raws :=
    List.map_snd_zip (by simp [hcells.length_eq])
  have hfst : (cells.zip (cellStops size raws)).map Prod.fst = cells :=
    List.map_fst_zip (by simp [hcells.length_eq])
  have hheader : pageHeaderSize interior = page.headerSize := by
    rw [hfirst, Page.length_header]
  unfold readNode
  simp only [h3, h5, h1, h7, htype, hright', h.length_image]
  rw [ofBE_toBE_of_lt (by rw [hcount]; omega), ofBE_toBE_of_lt (by omega), hcount, hstarts, hread]
  have htaken : ((Page.cellOffsets size raws).zip (cellStops size raws)).map taken =
      (Page.cellOffsets size raws).zip (cellStops size raws) :=
    map_taken fun extent hmem => (extent_bounds hfour hle extent hmem).2.1
  have hext : ∀ extent ∈ (Page.cellOffsets size raws).zip (cellStops size raws),
      page.bottom ≤ extent.1 ∧ extent.1 < extent.2 ∧ extent.2 ≤ size := by
    intro extent hmem
    have := extent_bounds hfour hle extent hmem
    omega
  have hfit : pageHeaderSize interior + raws.length * 2 ≤ page.bottom ∧
      raws.length ≤ (size - 8) / 6 := by
    have := four_mul_length_le hfour
    omega
  simp only [Option.bind_eq_bind, Option.bind_some, hstops, hfst, hfit, guard, and_self, if_true,
    Option.pure_def, htaken, extents_apart hfour hle]
  rw [if_pos hext]
  rfl

end

/-! ## Cell formats -/

/-- A row id is read back from its bits. -/
theorem rowidOf_toUInt64 (rowid : Int64) : rowidOf rowid.toUInt64.toNat = rowid := by
  simp [rowidOf]

theorem toUInt64_toNat_lt (rowid : Int64) : rowid.toUInt64.toNat < 2 ^ 64 :=
  rowid.toUInt64.toNat_lt

/-- The rowid of a table cell; index cells have none. -/
def keyBytes (kind : Kind) (key : Int64) : Bytes :=
  match kind with
  | .table => varint key.toUInt64.toNat
  | .index => []

/-- The number `readPayload` reads where the rowid stands. -/
def keyNumber (kind : Kind) (key : Int64) : Nat :=
  match kind with
  | .table => key.toUInt64.toNat
  | .index => 0

/-- The key of a cell is read back, up to the byte behind it. -/
theorem readKey_keyBytes {kind : Kind} {key : Int64} {page tail : Bytes} {offset : Nat}
    (hdrop : page.drop offset = keyBytes kind key ++ tail) :
    readKey kind page offset = some (keyNumber kind key, offset + (keyBytes kind key).length) := by
  cases kind with
  | table => simp [readKey, readVarint_varint (toUInt64_toNat_lt key) hdrop, keyBytes, keyNumber]
  | index => simp [readKey, keyBytes, keyNumber]

/-- The bytes of a leaf cell, or of an interior index cell behind its child. -/
def payloadBytes (kind : Kind) (cell : Cell) : Bytes :=
  varint cell.total ++ (keyBytes kind cell.key ++ (cell.inline
    ++ if cell.inline.length = cell.total then [] else toBE 4 cell.overflow))

/-- The cell can be written: its parts have the sizes the format gives them. -/
structure Cell.Writable (size : Nat) (kind : Kind) (cell : Cell) : Prop where
  total : cell.total < 2 ^ 64
  inline : cell.inline.length = inlineLength size kind cell.total
  overflow : cell.overflow < 2 ^ 32
  whole : cell.inline.length = cell.total → cell.overflow = 0
  key : kind = .index → cell.key = 0

/-- So is the payload, with the first page of its overflow chain. -/
theorem readPayload_payloadBytes {size : Nat} {kind : Kind} {cell : Cell}
    (h : cell.Writable size kind) {page tail : Bytes} {offset child : Nat}
    (hdrop : page.drop offset = payloadBytes kind cell ++ tail) :
    readPayload size kind page child offset
      = some ({ cell with child }, offset + (payloadBytes kind cell).length) := by
  have hlen := congrArg List.length hdrop
  simp only [List.length_drop, List.length_append] at hlen
  simp only [payloadBytes, List.append_assoc] at hdrop
  have htotal := readVarint_varint h.total hdrop
  have hdrop₁ : page.drop (offset + varintLen cell.total) = keyBytes kind cell.key
      ++ (cell.inline ++ ((if cell.inline.length = cell.total then []
        else toBE 4 cell.overflow) ++ tail)) := by
    rw [← List.drop_drop, hdrop, List.drop_append, List.drop_eq_nil_of_le (by simp)]
    simp
  have hrowid : rowidOf (keyNumber kind cell.key) = cell.key := by
    cases kind with
    | table => exact rowidOf_toUInt64 _
    | index => rw [h.key rfl]; rfl
  have hdrop₂ : page.drop (offset + varintLen cell.total + (keyBytes kind cell.key).length)
      = cell.inline ++ ((if cell.inline.length = cell.total then []
        else toBE 4 cell.overflow) ++ tail) := by
    rw [← List.drop_drop, hdrop₁, List.drop_left]
  have hinline : slice page (offset + varintLen cell.total + (keyBytes kind cell.key).length)
      (inlineLength size kind cell.total) = cell.inline := by
    rw [slice, hdrop₂, ← h.inline, List.take_left]
  have hoverflow : slice page (offset + varintLen cell.total + (keyBytes kind cell.key).length
      + inlineLength size kind cell.total) 4
        = ((if cell.inline.length = cell.total then [] else toBE 4 cell.overflow)
          ++ tail).take 4 := by
    rw [slice, ← List.drop_drop, hdrop₂, ← h.inline, List.drop_left]
  have hbytes : (payloadBytes kind cell).length = varintLen cell.total
      + (keyBytes kind cell.key).length + cell.inline.length
      + if cell.inline.length = cell.total then 0 else 4 := by
    simp only [payloadBytes, List.length_append, length_varint]
    split <;> simp <;> omega
  have hpos := varintLen_pos cell.total
  have hinl := h.inline
  unfold readPayload
  simp only [htotal, Option.bind_eq_bind, Option.bind_some, readKey_keyBytes hdrop₁, hrowid,
    hinline]
  by_cases hw : cell.inline.length = cell.total
  · rw [if_pos (by omega)]
    rw [if_pos hw] at hbytes
    have hfit : offset + varintLen cell.total + (keyBytes kind cell.key).length
        + inlineLength size kind cell.total ≤ page.length := by omega
    have hz := h.whole hw
    have hnext : offset + varintLen cell.total + (keyBytes kind cell.key).length
        + inlineLength size kind cell.total = offset + (payloadBytes kind cell).length := by omega
    rw [hnext] at hfit ⊢
    simp only [guard, hfit, if_true, Option.pure_def, Option.bind_some, hz]
  · rw [if_neg (by omega)]
    rw [if_neg hw] at hbytes
    have hfit : offset + varintLen cell.total + (keyBytes kind cell.key).length
        + inlineLength size kind cell.total + 4 ≤ page.length := by omega
    have hnext : offset + varintLen cell.total + (keyBytes kind cell.key).length
        + inlineLength size kind cell.total + 4 = offset + (payloadBytes kind cell).length := by
      omega
    have hfour : (toBE 4 cell.overflow ++ tail).take 4 = toBE 4 cell.overflow := by
      rw [List.take_append_of_le_length (by simp), List.take_of_length_le (by simp)]
    rw [hnext] at hfit ⊢
    simp only [guard, hfit, if_true, Option.pure_def, Option.bind_some, hoverflow, if_neg hw,
      hfour, ofBE_toBE_of_lt (n := 4) (by simpa using h.overflow)]

/-- A leaf cell. -/
theorem encodes_leaf {size : Nat} {kind : Kind} {cell : Cell} (h : cell.Writable size kind)
    (hchild : cell.child = 0) : Encodes size kind false (payloadBytes kind cell) cell := by
  intro page start tail hdrop
  have hcell : { cell with child := 0 } = cell := by rw [← hchild]
  cases kind <;> simp only [readCell, readPayload_payloadBytes h hdrop, hcell]

/-- The bytes behind the child of an interior cell. -/
theorem drop_child {page raw tail : Bytes} {start child : Nat}
    (hdrop : page.drop start = (toBE 4 child ++ raw) ++ tail) :
    page.drop (start + 4) = raw ++ tail ∧ slice page start 4 = toBE 4 child := by
  rw [List.append_assoc] at hdrop
  constructor
  · rw [← List.drop_drop, hdrop, List.drop_append, List.drop_eq_nil_of_le (by simp)]
    simp
  · rw [slice, hdrop, List.take_append_of_le_length (by simp), List.take_of_length_le (by simp)]

/-- An interior index cell: the child, then a leaf cell. -/
theorem encodes_separator {size : Nat} {cell : Cell} {child : Nat}
    (h : cell.Writable size .index) (hchild : child < 2 ^ 32) :
    Encodes size .index true (toBE 4 child ++ payloadBytes .index cell)
      { cell with child } := by
  intro page start tail hdrop
  obtain ⟨hrest, hslice⟩ := drop_child hdrop
  simp only [readCell, hslice, ofBE_toBE_of_lt (n := 4) (by simpa using hchild),
    readPayload_payloadBytes h hrest, List.length_append, length_toBE, Nat.add_assoc]

/-- An interior table cell: the child, then the largest rowid on the left. -/
theorem encodes_rowid {size child : Nat} {rowid : Int64} (hchild : child < 2 ^ 32) :
    Encodes size .table true (toBE 4 child ++ varint rowid.toUInt64.toNat)
      { child, key := rowid } := by
  intro page start tail hdrop
  obtain ⟨hrest, hslice⟩ := drop_child hdrop
  simp only [readCell, hslice, ofBE_toBE_of_lt (n := 4) (by simpa using hchild),
    readVarint_varint (toUInt64_toNat_lt rowid) hrest, Option.bind_eq_bind, Option.bind_some,
    rowidOf_toUInt64, List.length_append, length_toBE, length_varint, Nat.add_assoc]

end Velr.Format
