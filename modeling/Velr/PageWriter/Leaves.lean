import Velr.PageWriter.Overflow

/-!
# Leaves

The loop of `tree` over the records. `Filling` is its invariant: the page being filled holds the
cells of the records since the last split, and every leaf closed so far reads back as its
records and is separated from the next one by its last rowid (tables) or by the cell promoted out
of it (indexes). The loop never panics: a cell fits in an empty page, a full index page keeps a
cell when its last one is promoted, and a full table page has a previous rowid.
-/

namespace Velr

open ByteString Interleaving Format

namespace Writer

open Method

/-! ## What a leaf reads back as -/

/-- A cell has at most the bytes of its lengths, its inline part and the number of its overflow
page. -/
theorem length_payloadBytes_le {size : Nat} {kind : Kind} {cell : Cell}
    (h : cell.Writable size kind) :
    (payloadBytes kind cell).length ≤ 22 + inlineLength size kind cell.total ∧
      (kind = .index → (payloadBytes kind cell).length ≤ 13 + inlineLength size kind cell.total) ∧
      0 < (payloadBytes kind cell).length := by
  have htotal := varintLen_le cell.total
  have hpos := varintLen_pos cell.total
  have hkey := varintLen_le cell.key.toUInt64.toNat
  have hinline := h.inline
  have hover : (if cell.inline.length = cell.total then [] else toBE 4 cell.overflow).length
      ≤ 4 := by split <;> simp
  cases kind with
  | table =>
      simp only [payloadBytes, keyBytes, List.length_append, length_varint, reduceCtorEq,
        false_implies, true_and] at hover ⊢
      omega
  | index =>
      simp only [payloadBytes, keyBytes, List.length_append, length_varint, List.length_nil,
        forall_const] at hover ⊢
      omega

section
variable {size : PageSize} {kind : Kind} {view : View}

/-- A stored cell leaves room for the page header and its pointer. -/
theorem Stored.length_le {record : Record} {raw : Bytes}
    (h : Stored size.bytes kind view record raw) :
    raw.length + 10 ≤ size.bytes ∧ 0 < raw.length := by
  obtain ⟨cell, rfl, hcell, _, _⟩ := h
  have hlow := size.lower
  obtain ⟨hle, hindex, hpos⟩ := length_payloadBytes_le hcell
  have hmax := (localLength_le size kind cell.total).2
  rw [localLength_eq] at hmax
  cases kind with
  | table => simp only [maximumLocal] at hmax; omega
  | index => simp only [maximumLocal] at hmax; have := hindex rfl; omega

/-- An index cell takes at most a third of a page. -/
theorem Stored.length_index {record : Record} {raw : Bytes}
    (h : Stored size.bytes .index view record raw) :
    6 + raw.length ≤ (size.bytes - 12) / 3 := by
  obtain ⟨cell, rfl, hcell, _, _⟩ := h
  have hlow := size.lower
  have hle := (length_payloadBytes_le hcell).2.1 rfl
  have hmax := (localLength_le size .index cell.total).2
  rw [localLength_eq] at hmax
  simp only [maximumLocal] at hmax
  omega

/-- The cells of stored records are read back as the records. -/
theorem cells_of_stored {records : List Record} {raws : List Bytes}
    (h : List.Forall₂ (Stored size.bytes kind view) records raws) :
    ∃ cells, List.Forall₂ (Encodes size.bytes kind false) raws cells ∧
      cells.mapM (entry size.bytes view) = some records := by
  induction h with
  | nil => exact ⟨[], .nil, rfl⟩
  | @cons record raw records raws hraw _ ih =>
      obtain ⟨cells, hencodes, hentries⟩ := ih
      obtain ⟨cell, rfl, hcell, hchild, hentry⟩ := hraw
      refine ⟨cell :: cells, .cons (encodes_leaf hcell hchild) hencodes, ?_⟩
      rw [List.mapM_cons, hentry, hentries]
      rfl

/-- A record whose leaf cell has four bytes or more, unless it overflows: its length, its rowid in a
table, and its bytes. A shorter cell is not padded by the code, as the file format wants it. -/
def Roomy (kind : Kind) (record : Record) : Prop :=
  4 ≤ varintLen record.2.length + (keyBytes kind record.1).length + record.2.length

instance decidableRoomy (kind : Kind) (record : Record) : Decidable (Roomy kind record) :=
  inferInstanceAs (Decidable (_ ≤ _))

/-- The cell of a roomy record has four bytes at least. -/
theorem Stored.four_le {record : Record} {raw : Bytes}
    (h : Stored size.bytes kind view record raw) (hroomy : Roomy kind record) :
    4 ≤ raw.length := by
  obtain ⟨cell, rfl, hcell, _, hentry⟩ := h
  by_cases hlocal : cell.inline.length = cell.total
  · rw [entry, if_pos hlocal] at hentry
    obtain rfl := Option.some.inj hentry
    rw [Roomy] at hroomy
    simp only [hlocal] at hroomy
    simp only [payloadBytes, List.length_append, length_varint]
    omega
  · simp only [payloadBytes, if_neg hlocal, List.length_append, length_toBE]
    omega

/-- So have the cells of a page of such records. -/
theorem four_le_of_stored {records : List Record} {raws : List Bytes}
    (h : List.Forall₂ (Stored size.bytes kind view) records raws)
    (hroomy : ∀ record ∈ records, Roomy kind record) : ∀ raw ∈ raws, 4 ≤ raw.length := by
  induction h with
  | nil => simp
  | @cons record raw records raws hraw _ ih =>
      intro r hr
      rcases List.mem_cons.mp hr with rfl | hr
      · exact hraw.four_le (hroomy record (by simp))
      · exact ih (fun record hrecord => hroomy record (by simp [hrecord])) r hr

/-- The image of a leaf is a tree of height zero over its records. -/
theorem readTree_leaf {page : Page} {records : List Record} {raws : List Bytes} {isRoot : Bool}
    {id : Nat} (h : page.Holds size.bytes raws) (hkind : page.kind = kind)
    (hinterior : page.interior = false)
    (hstored : List.Forall₂ (Stored size.bytes kind view) records raws)
    (hview : view id = some (page.image 0)) (hne : isRoot = true ∨ records ≠ [])
    (hroomy : ∀ record ∈ records, Roomy kind record) :
    readTree size.bytes kind view 0 isRoot id = some records := by
  obtain ⟨cells, hencodes, hentries⟩ := cells_of_stored hstored
  have hnode := readNode_image h size.upper hkind hinterior (show 0 < 2 ^ 32 by decide)
    (four_le_of_stored hstored hroomy) hencodes
  have hguard : isRoot = true ∨ cells ≠ [] := by
    refine hne.imp_right fun hrecords hnil => hrecords ?_
    rw [hnil] at hentries
    exact (Option.some.inj hentries).symm
  unfold readTree
  simp only [hview, hnode, Option.bind_eq_bind, Option.bind_some, hentries, guard, if_pos hguard,
    Option.pure_def]

end

/-! ## The spans of a row of children -/

/-- A child with what it stands for: the records below it and those between it and the next. -/
structure Span where
  child : Child
  records : List Record
  separator : List Record

/-- All records of a row of children, in order. -/
def contents (spans : List Span) : List Record := spans.flatMap fun s => s.records ++ s.separator

@[simp] theorem contents_nil : contents [] = [] := rfl

@[simp] theorem contents_append (a b : List Span) : contents (a ++ b) = contents a ++ contents b :=
  List.flatMap_append

@[simp] theorem contents_singleton (s : Span) : contents [s] = s.records ++ s.separator := by
  simp [contents]

/-- The child is a tree over these records, if they are roomy. -/
def Span.Reads (size : Nat) (kind : Kind) (view : View) (height : Nat) (s : Span) : Prop :=
  s.child.page < 2 ^ 32 ∧ ((∀ record ∈ s.records, Roomy kind record) →
    readTree size kind view height false s.child.page = some s.records)

/-- The boundary separates the child from the next one: it is the last rowid of a table, or the
cell of the record between the two in an index. -/
def Span.Bounded (size : Nat) (kind : Kind) (view : View) (s : Span) : Prop :=
  match kind with
  | .table => s.separator = [] ∧ ∃ rowid, s.records.getLast?.map Prod.fst = some rowid ∧
      s.child.boundary = varint (asU64 rowid)
  | .index => ∃ record, s.separator = [record] ∧
      Stored size .index view record s.child.boundary

structure Span.Closed (size : Nat) (kind : Kind) (view : View) (height : Nat) (s : Span) :
    Prop where
  reads : s.Reads size kind view height
  bounded : s.Bounded size kind view

section
variable {size : Nat} {kind : Kind} {view view' : View} {height : Nat} {s : Span}

/-- A child reads the same in every view with more pages. -/
theorem Span.Reads.within (h : s.Reads size kind view height) (hview : view.Within view') :
    s.Reads size kind view' height :=
  ⟨h.1, fun hroomy => readTree_within hview (h.2 hroomy)⟩

/-- So does its separator. -/
theorem Span.Bounded.within (h : s.Bounded size kind view) (hview : view.Within view') :
    s.Bounded size kind view' := by
  cases kind with
  | table => exact h
  | index =>
      obtain ⟨record, hseparator, hstored⟩ := h
      exact ⟨record, hseparator, hstored.within hview⟩

theorem Span.Closed.within (h : s.Closed size kind view height) (hview : view.Within view') :
    s.Closed size kind view' height := ⟨h.reads.within hview, h.bounded.within hview⟩

/-- A boundary takes at most a third of an interior page. -/
theorem Span.Bounded.short {size : PageSize} (h : s.Bounded size.bytes kind view) :
    6 + s.child.boundary.length ≤ (size.bytes - 12) / 3 := by
  have hlow := size.lower
  cases kind with
  | table =>
      obtain ⟨_, rowid, _, hboundary⟩ := h
      have := varintLen_le (asU64 rowid)
      rw [hboundary, length_varint]
      omega
  | index =>
      obtain ⟨record, _, hstored⟩ := h
      exact hstored.length_index

end

/-! ## The loop -/

/-- The state of the loop: `spans` are the leaves closed so far and `current` the records since
then, the page holding their cells. -/
structure Filling (size : PageSize) (kind : Kind) (view : View) (page : Page)
    (children : List Child) (previous : Option Int64) (spans : List Span)
    (current : List Record) (raws : List Bytes) : Prop where
  holds : page.Holds size.bytes raws
  pageKind : page.kind = kind
  leaf : page.interior = false
  stored : List.Forall₂ (Stored size.bytes kind view) current raws
  closed : ∀ s ∈ spans, s.Closed size.bytes kind view 0
  children : children = spans.map Span.child
  previous : kind = .table → previous = current.getLast?.map Prod.fst

section
variable {faults : Prop} {w : Writer} {l : Ledger} {kind : Kind}

/-- The leaves that are closed read the same in every view with more pages. -/
theorem Filling.within {size : PageSize} {view view' : View} {page : Page}
    {children : List Child} {previous : Option Int64} {spans : List Span} {current : List Record}
    {raws : List Bytes} (h : Filling size kind view page children previous spans current raws)
    (hview : view.Within view') :
    Filling size kind view' page children previous spans current raws :=
  { h with
    stored := h.stored.imp fun _ _ hs => hs.within hview
    closed := fun s hs => (h.closed s hs).within hview }

/-- `cell` stores the record, its overflow chain included. -/
theorem leafCell_ensures (h : w.Ready l) (rowid : Int64) {record : Bytes}
    (hlen : Storable faults record) :
    Ensures (protocol faults) (leafCell kind rowid record) w l
      (fun parts w' l' => w.Advances l w' l' ∧
        Stored w.pageSize.bytes kind l'.view (rowKey kind rowid, record) (parts.1 ++ parts.2))
      (fun fault w' _ => Failed faults w' fault) := by
  simp only [leafCell, ensures_bind, ensures_get]
  by_cases hlocal : record.length ≤ maximumLocal w.pageSize.bytes kind
  · rw [if_pos hlocal]
    exact ⟨.refl h, stored_local _ hlen.1 hlocal⟩
  · rw [if_neg hlocal]
    refine (cell_ensures h kind rowid hlen).bind ?_ fun _ _ _ he => he
    rintro raw w' l' ⟨hadv, hstored⟩
    exact ⟨hadv, by simpa using hstored⟩

/-- A page on which the next cell does not fit holds two cells if it is an index page, and one in
any case. -/
theorem Filling.crowded {size : PageSize} {view : View} {page : Page} {children : List Child}
    {previous : Option Int64} {spans : List Span} {current : List Record} {raws : List Bytes}
    {record : Record} {raw : Bytes}
    (h : Filling size kind view page children previous spans current raws)
    (hraw : Stored size.bytes kind view record raw) (hfull : page.fits raw.length = false) :
    raws ≠ [] ∧ (kind = .index → 2 ≤ raws.length) := by
  have hlow := size.lower
  have hroom : ¬ (page.headerSize + (raws.length + 1) * 2 + raw.length + raws.flatten.length
      ≤ size.bytes) := by
    rw [← Page.fits_iff h.holds, hfull]; simp
  have hheader : page.headerSize = 8 := by rw [Page.headerSize, h.leaf]; rfl
  have hbound := hraw.length_le.1
  refine ⟨?_, ?_⟩
  · rintro rfl
    simp only [List.length_nil, List.flatten_nil] at hroom
    omega
  · rintro rfl
    have hthird := hraw.length_index
    rcases raws with _ | ⟨first, _ | ⟨second, raws⟩⟩
    · simp only [List.length_nil, List.flatten_nil] at hroom; omega
    · have hfirst := (List.forall₂_cons_right_iff.mp h.stored)
      obtain ⟨_, _, hfirst, -, -⟩ := hfirst
      have := hfirst.length_index
      simp only [List.length_singleton, List.flatten_cons, List.flatten_nil,
        List.append_nil] at hroom
      omega
    · simp

/-- The boundary of a full leaf exists, and what stays on the page is not empty. -/
theorem Filling.leafBoundary {size : PageSize} {view : View} {page : Page}
    {children : List Child} {previous : Option Int64} {spans : List Span} {current : List Record}
    {raws : List Bytes} (h : Filling size kind view page children previous spans current raws)
    (hraws : raws ≠ []) (htwo : kind = .index → 2 ≤ raws.length) :
    ∃ boundary page₁ records separator raws₁,
      leafBoundary kind page previous = .ok (boundary, page₁) ∧ page₁.Holds size.bytes raws₁ ∧
      page₁.kind = kind ∧ page₁.interior = false ∧
      List.Forall₂ (Stored size.bytes kind view) records raws₁ ∧ records ≠ [] ∧
      records ++ separator = current ∧
      ∀ id, Span.Bounded size.bytes kind view ⟨⟨id, boundary⟩, records, separator⟩ := by
  cases kind with
  | table =>
      have hcurrent : current ≠ [] := by
        rintro rfl
        exact hraws (List.forall₂_nil_left_iff.mp h.stored)
      obtain ⟨init, last, rfl⟩ := (List.eq_nil_or_concat' current).resolve_left hcurrent
      have hprevious : previous = some last.1 := by simpa using h.previous rfl
      refine ⟨varint (asU64 last.1), page, init ++ [last], [], raws, by rw [hprevious]; rfl,
        h.holds, h.pageKind, h.leaf, h.stored, hcurrent, by simp, fun _ => ⟨rfl, last.1, ?_, rfl⟩⟩
      simp
  | index =>
      obtain ⟨init, last, rfl⟩ := (List.eq_nil_or_concat' raws).resolve_left hraws
      obtain ⟨page₁, hpop, hholds, hkind, hleaf⟩ := h.holds.pop
      have htake := List.forall₂_take_append _ _ _ h.stored
      have hdrop := List.forall₂_drop_append _ _ _ h.stored
      obtain ⟨record, _, hlast, hnil, hseparator⟩ := List.forall₂_cons_right_iff.mp hdrop
      obtain rfl := List.forall₂_nil_right_iff.mp hnil
      have hinit := htwo rfl
      have hlen := h.stored.length_eq
      rw [List.length_append, List.length_singleton] at hinit hlen
      refine ⟨last, page₁, current.take init.length, [record], init, hpop, hholds,
        hkind.trans h.pageKind, hleaf.trans h.leaf, htake, ?_, ?_, fun _ => ⟨record, rfl, hlast⟩⟩
      · refine List.ne_nil_of_length_pos ?_
        rw [List.length_take]
        omega
      · rw [← hseparator, List.take_append_drop]

/-- Closing a leaf appends it: a child that reads as the records of the page, and for an index its
last record as the separator. -/
theorem closeLeaf_ensures {page : Page} {children : List Child} {previous : Option Int64}
    {spans : List Span} {current : List Record} {raws : List Bytes} (h : w.Ready l)
    (hfill : Filling w.pageSize kind l.view page children previous spans current raws)
    (hraws : raws ≠ []) (htwo : kind = .index → 2 ≤ raws.length) :
    Ensures (protocol faults) (closeLeaf kind page previous) w l
      (fun closed w' l' => w.Advances l w' l' ∧ closed.1.Holds w.pageSize.bytes [] ∧
        closed.1.kind = kind ∧ closed.1.interior = false ∧
        ∃ s : Span, s.child = closed.2 ∧ s.Closed w.pageSize.bytes kind l'.view 0 ∧
          s.records ++ s.separator = current)
      (fun fault w' _ => Failed faults w' fault) := by
  obtain ⟨boundary, page₁, records, separator, raws₁, hboundary, hholds, hkind, hleaf, hstored,
    hne, hcurrent, hbounded⟩ := hfill.leafBoundary hraws htwo
  have hlow := w.pageSize.lower
  refine (ensures_bind_ok hboundary).mpr ?_
  refine (append_ensures h (hholds.length_image 0)).bind ?_ fun _ _ _ he => he.1
  intro id w₁ l₁ hputs
  refine ensures_bind.mpr (ensures_scratch ?_ fun fault hf hp => ⟨hp, .inl hf⟩)
  have hview := view_within hputs.advances
  refine ⟨hputs.advances, hholds.clear (by omega), hkind, hleaf,
    ⟨⟨id, boundary⟩, records, separator⟩, rfl, ⟨⟨?_, ?_⟩, (hbounded id).within hview⟩, hcurrent⟩
  · have := hputs.id_le
    simp only [u32Max] at this ⊢
    omega
  · exact readTree_leaf hholds hkind hleaf (hstored.imp fun _ _ hs => hs.within hview)
      hputs.view (.inr hne)

/-- A record as it is read back. -/
def keyed (kind : Kind) (record : Record) : Record := (rowKey kind record.1, record.2)

/-- The rowids of the stream increase strictly, from `previous` on. -/
def Increasing : Option Int64 → List (Except Fault Record) → Prop
  | _, [] => True
  | previous, .error _ :: records => Increasing previous records
  | previous, .ok (rowid, _) :: records =>
      (∀ last, previous = some last → last < rowid) ∧ Increasing (some rowid) records

/-- Why the loop over the records stops early. -/
def LeavesFailed (faults : Prop) (kind : Kind) (previous : Option Int64)
    (records : List (Except Fault Record)) (w : Writer) (fault : Fault) : Prop :=
  Failed faults w fault ∨ .error fault ∈ records ∨
    fault = unordered ∧ kind = .table ∧ ¬ Increasing previous records

/-- What fails behind a record fails with it. -/
theorem LeavesFailed.cons {record : Record} {records : List (Except Fault Record)}
    {previous : Option Int64} {fault : Fault}
    (h : LeavesFailed faults kind (some record.1) records w fault) :
    LeavesFailed faults kind previous (.ok record :: records) w fault := by
  rcases h with h | h | ⟨h, hkind, hinc⟩
  · exact .inl h
  · exact .inr (.inl (List.mem_cons_of_mem _ h))
  · exact .inr (.inr ⟨h, hkind, fun hall => hinc hall.2⟩)

/-- The next cell joins the page. -/
theorem Filling.push {size : PageSize} {view : View} {page : Page} {children : List Child}
    {previous : Option Int64} {spans : List Span} {current : List Record} {raws : List Bytes}
    (h : Filling size kind view page children previous spans current raws) {rowid : Int64}
    {record cell payload : Bytes}
    (hstored : Stored size.bytes kind view (rowKey kind rowid, record) (cell ++ payload))
    (hfits : page.fits (cell.length + payload.length) = true) :
    ∃ page', page.pushParts cell payload = .ok page' ∧
      Filling size kind view page' children (some rowid) spans
        (current ++ [(rowKey kind rowid, record)]) (raws ++ [cell ++ payload]) := by
  obtain ⟨page', hpush, hholds, hkind, hleaf⟩ := h.holds.pushParts size.upper hfits
  refine ⟨page', hpush, hholds, hkind.trans h.pageKind, hleaf.trans h.leaf, ?_, h.closed,
    h.children, ?_⟩
  · exact List.rel_append h.stored (.cons hstored .nil)
  · rintro rfl
    simp [rowKey]

/-- The loop closes leaves over all the records of the stream but the last ones, which are on
the page it ends with. -/
theorem leaves_ensures : ∀ {records : List (Except Fault Record)} {page : Page}
    {children : List Child} {previous : Option Int64} {spans : List Span}
    {current : List Record} {raws : List Bytes} {w : Writer} {l : Ledger}, w.Ready l →
    Filling w.pageSize kind l.view page children previous spans current raws →
    (spans ≠ [] → current ≠ []) →
    (∀ record, .ok record ∈ records → Storable faults record.2) →
    Ensures (protocol faults) (leaves kind records page children previous) w l
      (fun result w' l' => w.Advances l w' l' ∧
        ∃ read : List Record, ∃ previous' spans' current' raws',
        records = read.map .ok ∧
        Filling w.pageSize kind l'.view result.1 result.2 previous' spans' current' raws' ∧
        (spans' ≠ [] → current' ≠ []) ∧
        contents spans' ++ current' = contents spans ++ current ++ read.map (keyed kind))
      (fun fault w' _ => LeavesFailed faults kind previous records w' fault)
  | [], page, children, previous, spans, current, raws, w, l, h, hfill, hstarted, _ =>
      ⟨.refl h, [], previous, spans, current, raws, rfl, hfill, hstarted, by simp⟩
  | .error fault :: records, _, _, _, _, _, _, _, _, _, _, _, _ =>
      .inr (.inl (List.mem_cons_self ..))
  | .ok (rowid, record) :: records, page, children, previous, spans, current, raws, w, l, h,
      hfill, hstarted, hlen => by
      have hrecord := hlen (rowid, record) (by simp)
      have hlen' : ∀ r, .ok r ∈ records → Storable faults r.2 := fun r hr => hlen r (by simp [hr])
      rw [leaves]
      by_cases hsorted : kind = .table ∧ previous.any (rowid ≤ ·) = true
      · rw [if_pos hsorted]
        refine .inr (.inr ⟨rfl, hsorted.1, fun hinc => ?_⟩)
        obtain ⟨last, hlast, hle⟩ := (Option.any_eq_true _ _).mp hsorted.2
        have := hinc.1 last hlast
        simp only [decide_eq_true_eq] at hle
        exact Int64.not_le.mpr this hle
      rw [if_neg hsorted]
      refine (leafCell_ensures h rowid hrecord).bind ?_ fun fault w' l' he => .inl he
      rintro ⟨cell, payload⟩ w₁ l₁ ⟨hadv₁, hstored⟩
      have hsame₁ := hadv₁.same.pageSize
      have hfill₁ := hfill.within (view_within hadv₁)
      rw [← hsame₁] at hfill₁ hstored
      -- the rest of the loop, from any page on which this record is the last one
      have hrest : ∀ {page' : Page} {children' : List Child} {spans' : List Span}
          {current' : List Record} {raws' : List Bytes} {w₂ : Writer} {l₂ : Ledger},
          w.Advances l w₂ l₂ →
          Filling w₂.pageSize kind l₂.view page' children' (some rowid) spans'
            (current' ++ [(rowKey kind rowid, record)]) raws' →
          contents spans' ++ current' = contents spans ++ current →
          Ensures (protocol faults) (leaves kind records page' children' (some rowid)) w₂ l₂
            (fun result w' l' => w.Advances l w' l' ∧
              ∃ read : List Record, ∃ previous' spans' current' raws',
              .ok (rowid, record) :: records = read.map .ok ∧
              Filling w.pageSize kind l'.view result.1 result.2 previous' spans' current' raws' ∧
              (spans' ≠ [] → current' ≠ []) ∧
              contents spans' ++ current' = contents spans ++ current ++ read.map (keyed kind))
            (fun fault w' _ =>
              LeavesFailed faults kind previous (.ok (rowid, record) :: records) w' fault) := by
        intro page' children' spans' current' raws' w₂ l₂ hadv₂ hfill₂ hcontents
        refine (leaves_ensures hadv₂.ready hfill₂ (by simp) hlen').mono ?_ fun _ _ _ he => he.cons
        rintro result w₃ l₃ ⟨hadv₃, read, previous₃, spans₃, current₃, raws₃, hread, hfill₃,
          hstarted₃, hcontents₃⟩
        refine ⟨hadv₂.trans hadv₃, (rowid, record) :: read, previous₃, spans₃, current₃, raws₃,
          by rw [hread]; rfl, hadv₂.same.pageSize ▸ hfill₃, hstarted₃, ?_⟩
        rw [hcontents₃, ← List.append_assoc, hcontents]
        simp [keyed]
      cases hfits : page.fits (cell.length + payload.length) with
      | true =>
          obtain ⟨page', hpush, hfill'⟩ := hfill₁.push hstored hfits
          simp only [if_pos hfits]
          exact (ensures_bind_ok hpush).mpr (hrest hadv₁ hfill' rfl)
      | false =>
          obtain ⟨hraws, htwo⟩ := hfill₁.crowded hstored (by simpa using hfits)
          simp only [if_neg (Bool.eq_false_iff.mp hfits)]
          refine (closeLeaf_ensures hadv₁.ready hfill₁ hraws htwo).bind ?_
            fun fault w' l' he => .inl he
          rintro ⟨page₂, child⟩ w₂ l₂ ⟨hadv₂, hholds, hkind, hleaf, s, rfl, hclosed, hcurrent⟩
          have hview := view_within hadv₂
          have hsame₂ := hadv₂.same.pageSize
          have hempty : Filling w₁.pageSize kind l₂.view page₂ (children ++ [s.child]) none
              (spans ++ [s]) [] [] := by
            refine ⟨hholds, hkind, hleaf, .nil, ?_, by simp [hfill₁.children], fun _ => rfl⟩
            intro s' hs'
            rcases List.mem_append.mp hs' with hs' | hs'
            · exact (hfill₁.closed s' hs').within hview
            · exact List.mem_singleton.mp hs' ▸ hclosed
          have hroom : page₂.fits (cell.length + payload.length) = true := by
            have hlength := hstored.length_le.1
            have hheader : page₂.headerSize = 8 := by
              simp only at hleaf
              rw [Page.headerSize, hleaf]; rfl
            rw [Page.fits_iff hholds, hheader]
            simp only [List.length_append, List.length_nil, List.flatten_nil] at hlength ⊢
            omega
          obtain ⟨page', hpush, hfill'⟩ := hempty.push (hstored.within hview) hroom
          refine (ensures_bind_ok hpush).mpr (hrest (hadv₁.trans hadv₂) (hsame₂.symm ▸ hfill') ?_)
          simp [hcurrent]

end

end Writer

end Velr
