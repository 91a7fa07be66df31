import Velr.Common.Packing
import Velr.PageWriter.Leaves

/-!
# Interior levels

`parent` writes one interior page over a group of children, and `level` cuts a row of children
into such groups (`Packing.pack`), lends the last group a child when it has a single one
(`Packing.balance`) and writes a page for each. `groups_ensures` says that the loop of `level`,
which writes a group as soon as two others follow it, writes the groups of `pack`;
`level_ensures` that the row of parents reads back as the row of children did.
-/

namespace Velr

open ByteString Interleaving Format

namespace Writer

open Method

/-! ## Interior pages -/

/-- The cell of a child in the page above it. -/
def childBytes (child : Child) : Bytes := toBE 4 child.page ++ child.boundary

/-- The cell of the page above the child reads back as the child and what follows it. -/
def Span.Separates (size : Nat) (kind : Kind) (view : View) (s : Span) (cell : Cell) : Prop :=
  cell.child = s.child.page ∧
    match kind with
    | .table => s.separator = [] ∧ s.records.getLast?.map Prod.fst = some cell.key
    | .index => ∃ record, s.separator = [record] ∧ entry size view cell = some record

section
variable {size : PageSize} {kind : Kind} {view : View} {height : Nat}

/-- A closed child has a cell in its parent, which separates it from the next. -/
theorem Span.Closed.cell {s : Span} (h : s.Closed size.bytes kind view height) :
    ∃ cell, Encodes size.bytes kind true (childBytes s.child) cell ∧
      s.Separates size.bytes kind view cell := by
  have hpage := h.reads.1
  have hbounded := h.bounded
  cases kind with
  | table =>
      obtain ⟨hseparator, rowid, hlast, hboundary⟩ := hbounded
      refine ⟨{ child := s.child.page, key := rowid }, ?_, rfl, hseparator, hlast⟩
      rw [childBytes, hboundary]
      exact encodes_rowid hpage
  | index =>
      obtain ⟨record, hseparator, cell, hboundary, hcell, _, hentry⟩ := hbounded
      refine ⟨{ cell with child := s.child.page }, ?_, rfl, record, hseparator, hentry⟩
      rw [childBytes, hboundary]
      exact encodes_separator hcell hpage

/-- So has each of several children. -/
theorem cells_of_closed {spans : List Span}
    (h : ∀ s ∈ spans, s.Closed size.bytes kind view height) :
    ∃ cells, List.Forall₂ (Encodes size.bytes kind true)
        (spans.map fun s => childBytes s.child) cells ∧
      List.Forall₂ (Span.Separates size.bytes kind view) spans cells := by
  induction spans with
  | nil => exact ⟨[], .nil, .nil⟩
  | cons s spans ih =>
      obtain ⟨cell, hencodes, hseparates⟩ := (h s (by simp)).cell
      obtain ⟨cells, hcells, hspans⟩ := ih fun s' hs' => h s' (by simp [hs'])
      exact ⟨cell :: cells, .cons hencodes hcells, .cons hseparates hspans⟩

/-- The records of a child and its separator are those the reader finds. -/
theorem Span.Separates.separated {s : Span} {cell : Cell}
    (h : s.Separates size.bytes kind view cell) :
    separated size.bytes kind view cell s.records = some (s.records ++ s.separator) := by
  obtain ⟨_, h⟩ := h
  cases kind with
  | table =>
      obtain ⟨hseparator, hlast⟩ := h
      simp only [Format.separated, if_pos hlast, hseparator, List.append_nil]
  | index =>
      obtain ⟨record, hseparator, hentry⟩ := h
      simp only [Format.separated, hentry, hseparator, Option.map_some]

/-- The part of `readTree` over the cells of an interior page. -/
theorem mapM_separates {spans : List Span} {cells : List Cell}
    (h : List.Forall₂ (Span.Separates size.bytes kind view) spans cells)
    (hreads : ∀ s ∈ spans, readTree size.bytes kind view height false s.child.page =
      some s.records) :
    (cells.mapM fun cell => (readTree size.bytes kind view height false cell.child).bind
        (separated size.bytes kind view cell))
      = some (spans.map fun s => s.records ++ s.separator) := by
  induction h with
  | nil => rfl
  | @cons s cell spans cells hs _ ih =>
      rw [List.mapM_cons, ih fun s' hs' => hreads s' (by simp [hs']), hs.1,
        hreads s (by simp), Option.bind_some, hs.separated]
      rfl

/-- The image of an interior page is a tree over what its children read back as. -/
theorem readTree_interior {page : Page} {init : List Span} {last : Span} {isRoot : Bool}
    {id : Nat} (h : page.Holds size.bytes (init.map fun s => childBytes s.child))
    (hkind : page.kind = kind) (hinterior : page.interior = true) (hne : init ≠ [])
    (hinit : ∀ s ∈ init, s.Closed size.bytes kind view height)
    (hlast : last.Reads size.bytes kind view height)
    (hview : view id = some (page.image last.child.page))
    (hroomy : ∀ record ∈ contents init ++ last.records, Roomy kind record) :
    readTree size.bytes kind view (height + 1) isRoot id
      = some (contents init ++ last.records) := by
  obtain ⟨cells, hencodes, hseparates⟩ := cells_of_closed hinit
  have hraws : ∀ raw ∈ init.map fun s => childBytes s.child, 4 ≤ raw.length := by
    intro raw hraw
    obtain ⟨s, _, rfl⟩ := List.mem_map.mp hraw
    simp [childBytes]
  have hnode := readNode_image h size.upper hkind hinterior hlast.1 hraws hencodes
  have hcells : cells ≠ [] := by
    have hlen := hseparates.length_eq
    refine List.ne_nil_of_length_pos ?_
    rw [← hlen]
    exact List.length_pos_iff.mpr hne
  have hleft := mapM_separates hseparates fun s hs => (hinit s hs).reads.2 fun record hrecord =>
    hroomy record (List.mem_append_left _ (List.mem_flatMap.mpr
      ⟨s, hs, List.mem_append_left _ hrecord⟩))
  have hright := hlast.2 fun record hrecord => hroomy record (List.mem_append_right _ hrecord)
  unfold readTree
  simp only [hview, hnode, Option.bind_eq_bind, Option.bind_some, guard, if_pos hcells,
    Option.pure_def, if_true, hleft, hright, List.flatMap_def, contents]

end

/-! ## `parent` -/

/-- What a child takes in the page above it when another child follows: its cell and pointer. -/
def childWeight (child : Child) : Nat := 6 + child.boundary.length

theorem additional_eq (group : List Child) :
    additional group = Packing.additional childWeight group := rfl

/-- Children that fit are pushed one after another. -/
theorem pushChildren_holds {size : PageSize} : ∀ (children : List Child) {page : Page}
    {raws : List Bytes}, page.Holds size.bytes raws → page.interior = true →
    12 + raws.length * 2 + raws.flatten.length + (children.map childWeight).sum ≤ size.bytes →
    ∃ page', pushChildren page children = .ok page' ∧
      page'.Holds size.bytes (raws ++ children.map childBytes) ∧ page'.kind = page.kind ∧
      page'.interior = true
  | [], page, raws, h, hinterior, _ => ⟨page, rfl, by simpa using h, rfl, hinterior⟩
  | child :: rest, page, raws, h, hinterior, hfit => by
      simp only [List.map_cons, List.sum_cons, childWeight] at hfit
      have hlen : (childBytes child).length = 4 + child.boundary.length := by simp [childBytes]
      have hfits : page.fits ((childBytes child).length + ([] : Bytes).length) = true := by
        rw [Page.fits_iff h, Page.headerSize, hinterior, hlen]
        simp only [if_true, List.length_nil]
        omega
      obtain ⟨page₁, hpush, hholds, hkind, hinterior₁⟩ := h.pushParts size.upper hfits
      rw [List.append_nil] at hholds
      obtain ⟨page', hrest, hholds', hkind', hinterior'⟩ := pushChildren_holds rest hholds
        (hinterior₁.trans hinterior) (by
          simp only [List.length_append, List.length_singleton, List.flatten_append,
            List.flatten_cons, List.flatten_nil, List.append_nil, hlen]
          omega)
      refine ⟨page', ?_, by simpa using hholds', hkind'.trans hkind, hinterior'⟩
      rw [pushChildren]
      have hpush' : page.push (toBE 4 child.page ++ child.boundary) = .ok page₁ := hpush
      rw [hpush']
      exact hrest

def Span.weight (s : Span) : Nat := childWeight s.child

/-- The span of a page over the children `init` and `last`. -/
def merged (init : List Span) (last : Span) (child : Child) : Span :=
  ⟨child, contents init ++ last.records, last.separator⟩

/-- A group of children that fits on one page. -/
structure Group (size : PageSize) (kind : Kind) (view : View) (height : Nat) (init : List Span)
    (last : Span) : Prop where
  nonempty : init ≠ []
  closed : ∀ s ∈ init, s.Closed size.bytes kind view height
  reads : last.Reads size.bytes kind view height
  fits : 12 + (init.map Span.weight).sum ≤ size.bytes

section
variable {faults : Prop} {w : Writer} {l : Ledger} {kind : Kind} {height : Nat}
  {init : List Span} {last : Span}

/-- A group reads the same in every view with more pages. -/
theorem Group.within {size : PageSize} {view view' : View}
    (h : Group size kind view height init last) (hview : view.Within view') :
    Group size kind view' height init last :=
  ⟨h.nonempty, fun s hs => (h.closed s hs).within hview, h.reads.within hview, h.fits⟩

/-- The interior page over a group. -/
theorem Group.page {size : PageSize} {view : View} (h : Group size kind view height init last) :
    ∃ page, pushChildren (Page.new size.bytes kind true)
        ((init ++ [last]).map Span.child).dropLast = .ok page ∧
      page.Holds size.bytes (init.map fun s => childBytes s.child) ∧ page.kind = kind ∧
      page.interior = true := by
  have hlow := size.lower
  have hdrop : ((init ++ [last]).map Span.child).dropLast = init.map Span.child := by simp
  have hweight : (init.map Span.child).map childWeight = init.map Span.weight := by
    rw [List.map_map]; rfl
  have hempty := Page.new_holds (show 12 ≤ size.bytes by omega) kind true
  obtain ⟨page, hpush, hholds, hkind, hinterior⟩ :=
    pushChildren_holds (init.map Span.child) hempty rfl (by simpa [hweight] using h.fits)
  refine ⟨page, by rw [hdrop]; exact hpush, ?_, hkind, hinterior⟩
  rw [List.nil_append, List.map_map] at hholds
  exact hholds

/-- The page over a group is a tree over what the group stands for. -/
theorem parent_ensures (h : w.Ready l) (hgroup : Group w.pageSize kind l.view height init last) :
    Ensures (protocol faults) (parent none kind ((init ++ [last]).map Span.child)) w l
      (fun child w' l' => w.Advances l w' l' ∧ child.boundary = last.child.boundary ∧
        (merged init last child).Reads w.pageSize.bytes kind l'.view (height + 1))
      (fun fault w' _ => Failed faults w' fault) := by
  obtain ⟨page, hpush, hholds, hkind, hinterior⟩ := hgroup.page
  have hlast : ((init ++ [last]).map Span.child).getLast? = some last.child := by simp
  simp only [parent, hlast, ensures_bind, ensures_get]
  refine (ensures_ofExcept _).mpr ⟨?_, fun fault hfault => by rw [hpush] at hfault; cases hfault⟩
  rintro _ hpage
  obtain rfl := Except.ok.inj (hpush.symm.trans hpage)
  refine (append_ensures h (hholds.length_image _)).mono ?_ fun _ _ _ he => he.1
  intro id w' l' hputs
  have hview := view_within hputs.advances
  have hgroup' := hgroup.within hview
  refine ⟨hputs.advances, rfl, ?_, ?_⟩
  · have := hputs.id_le
    simp only [u32Max, merged] at this ⊢
    omega
  · exact readTree_interior hholds hkind hinterior hgroup.nonempty hgroup'.closed hgroup'.reads
      hputs.view

/-- A write shows its page and hides no other. -/
theorem Ledger.view_write {l : Ledger} {root : Nat} {bytes : Bytes} (h : l.Wf)
    (hroot : l.roots root) :
    (l.write root bytes).view root = some bytes ∧ l.view.Within (l.write root bytes).view :=
  ⟨Ledger.view_concat rfl (h.roots root hroot),
    fun _ _ hv => Ledger.view_mono (List.prefix_append _ _) hv⟩

/-- The last page of a tree is written over its root. -/
theorem root_parent_ensures {root : Nat} (h : w.Ready l) (hroot : l.roots root)
    (hgroup : Group w.pageSize kind l.view height init last) :
    Ensures (protocol faults) (parent (some root) kind ((init ++ [last]).map Span.child)) w l
      (fun _ w' l' => w' = w ∧ (∃ bytes, l' = l.write root bytes) ∧ w.Accepts root ∧
        ((∀ record ∈ contents init ++ last.records, Roomy kind record) →
          readTree w.pageSize.bytes kind l'.view (height + 1) true root
            = some (contents init ++ last.records)))
      (fun fault _ _ => fault.isPanic = false ∧ (faults ∨ ¬ w.Accepts root)) := by
  obtain ⟨page, hpush, hholds, hkind, hinterior⟩ := hgroup.page
  have hlast : ((init ++ [last]).map Span.child).getLast? = some last.child := by simp
  simp only [parent, hlast, ensures_bind, ensures_get]
  refine (ensures_ofExcept _).mpr ⟨?_, fun fault hfault => by rw [hpush] at hfault; cases hfault⟩
  rintro _ hpage
  obtain rfl := Except.ok.inj (hpush.symm.trans hpage)
  refine (root_ensures hroot).mono ?_ fun _ _ _ he => he
  rintro ⟨⟩ w' l' ⟨rfl, rfl, haccepts⟩
  obtain ⟨hview, hwithin⟩ := Ledger.view_write h.wf hroot
  have hgroup' := hgroup.within hwithin
  exact ⟨rfl, ⟨_, rfl⟩, haccepts, readTree_interior hholds hkind hinterior hgroup.nonempty
    hgroup'.closed hgroup'.reads hview⟩

end

/-! ## `level` -/

/-- The groups `level` cuts a row of spans into. -/
abbrev pack (size : PageSize) (rest group : List Span) (used : Nat) : List (List Span) :=
  Packing.pack 12 size.bytes Span.weight rest group used

/-- A group that is followed by another one. -/
def Good (size : PageSize) (kind : Kind) (view : View) (height : Nat) (group : List Span) : Prop :=
  ∃ init last, group = init ++ [last] ∧ Group size kind view height init last ∧
    last.Bounded size.bytes kind view

/-- The span of the page over a group that is followed by another one. -/
def Parent (size : PageSize) (kind : Kind) (view : View) (height : Nat) (group : List Span)
    (s : Span) : Prop :=
  s.Closed size.bytes kind view (height + 1) ∧ s.records ++ s.separator = contents group

section
variable {size : PageSize} {kind : Kind} {view view' : View} {height : Nat}

theorem Good.within {group : List Span} (h : Good size kind view height group)
    (hview : view.Within view') : Good size kind view' height group := by
  obtain ⟨init, last, rfl, hgroup, hbounded⟩ := h
  exact ⟨init, last, rfl, hgroup.within hview, hbounded.within hview⟩

theorem Parent.within {group : List Span} {s : Span} (h : Parent size kind view height group s)
    (hview : view.Within view') : Parent size kind view' height group s :=
  ⟨h.1.within hview, h.2⟩

/-- A page over a group is separated from the next one as the last child of the group was. -/
theorem merged_bounded {init : List Span} {last : Span} {child : Child}
    (h : last.Bounded size.bytes kind view) (hchild : child.boundary = last.child.boundary) :
    (merged init last child).Bounded size.bytes kind view := by
  cases kind with
  | table =>
      obtain ⟨hseparator, rowid, hlast, hboundary⟩ := h
      refine ⟨hseparator, rowid, ?_, hchild.trans hboundary⟩
      obtain ⟨record, hrecord, hrowid⟩ := Option.map_eq_some_iff.mp hlast
      simp [merged, List.getLast?_append, hrecord, hrowid]
  | index =>
      obtain ⟨record, hseparator, hstored⟩ := h
      refine ⟨record, hseparator, ?_⟩
      simp only [merged, hchild]
      exact hstored

/-- Two closed children or more that fit a page make a good group. -/
theorem good_of_closed {group : List Span} (htwo : 2 ≤ group.length)
    (hfits : Packing.cost 12 Span.weight group ≤ size.bytes)
    (hclosed : ∀ s ∈ group, s.Closed size.bytes kind view height) :
    Good size kind view height group := by
  obtain ⟨init, last, rfl⟩ :=
    (List.eq_nil_or_concat' group).resolve_left (by rintro rfl; simp at htwo)
  have hlast := hclosed last (by simp)
  refine ⟨init, last, rfl, ⟨?_, fun s hs => hclosed s (by simp [hs]), hlast.reads, ?_⟩,
    hlast.bounded⟩
  · rintro rfl
    simp at htwo
  · simpa [Packing.cost] using hfits

end

section
variable {faults : Prop} {kind : Kind} {height : Nat}

/-- `parent` appends the page of a good group: a child that reads as its children. -/
theorem good_parent_ensures {w : Writer} {l : Ledger} {group : List Span} (h : w.Ready l)
    (hgood : Good w.pageSize kind l.view height group) :
    Ensures (protocol faults) (parent none kind (group.map Span.child)) w l
      (fun child w' l' => w.Advances l w' l' ∧
        ∃ s : Span, s.child = child ∧ Parent w.pageSize kind l'.view height group s)
      (fun fault w' _ => Failed faults w' fault) := by
  obtain ⟨init, last, rfl, hgroup, hbounded⟩ := hgood
  refine (parent_ensures h hgroup).mono ?_ fun _ _ _ he => he
  rintro child w' l' ⟨hadv, hchild, hreads⟩
  refine ⟨hadv, merged init last child, rfl, ⟨hreads, ?_⟩, ?_⟩
  · exact (merged_bounded hbounded hchild).within (view_within hadv)
  · simp [merged]

/-- The loop of `level` leaves the last two groups, or the only one, for its end. -/
theorem groups_ensures : ∀ {rest group : List Span} {previous : Option (List Span)} {used : Nat}
    {next : List Child} {w : Writer} {l : Ledger}, w.Ready l →
    (∀ g ∈ (previous.toList ++ pack w.pageSize rest group used).dropLast,
      Good w.pageSize kind l.view height g) →
    Ensures (protocol faults) (groups kind (rest.map Span.child)
        (previous.map (List.map Span.child)) (group.map Span.child) used next) w l
      (fun result w' l' => w.Advances l w' l' ∧ ∃ done previous' group' parents,
        previous.toList ++ pack w.pageSize rest group used
          = done ++ (Option.toList previous' ++ [group']) ∧
        (previous' = none → done = []) ∧
        List.Forall₂ (Parent w.pageSize kind l'.view height) done parents ∧
        result = (previous'.map (List.map Span.child), group'.map Span.child,
          next ++ parents.map Span.child))
      (fun fault w' _ => Failed faults w' fault)
  | [], group, previous, used, next, w, l, h, _ =>
      ⟨.refl h, [], previous, group, [], rfl, fun _ => rfl, .nil, by simp⟩
  | x :: rest, group, previous, used, next, w, l, h, hgood => by
      have hadditional : additional (group.map Span.child)
          = Packing.additional Span.weight group := by
        rw [additional_eq, Packing.additional, Packing.additional, List.getLast?_map,
          Option.map_map]
        rfl
      simp only [List.map_cons, groups, ensures_bind, ensures_get, hadditional]
      by_cases hfull : used + Packing.additional Span.weight group > w.pageSize.bytes
      · have hpack : pack w.pageSize (x :: rest) group used
            = group :: pack w.pageSize rest [x] 12 := if_pos hfull
        rw [if_pos hfull]
        rw [hpack] at hgood ⊢
        cases previous with
        | none =>
            have hrest := @groups_ensures rest [x] (some group) 12 next w l h hgood
            exact hrest
        | some previous =>
            have hne : group :: pack w.pageSize rest [x] 12 ≠ [] := List.cons_ne_nil _ _
            simp only [Option.toList_some, List.singleton_append,
              List.dropLast_cons_of_ne_nil hne] at hgood
            simp only [Option.map_some, ensures_bind]
            refine (good_parent_ensures h (hgood previous (by simp))).mono ?_ fun _ _ _ he => he
            rintro child w₁ l₁ ⟨hadv₁, s, rfl, hparent⟩
            have hsame := hadv₁.same.pageSize
            refine ensures_scratch ((ensures_pure _).mpr ?_) fun fault hf hp => ⟨hp, .inl hf⟩
            have hgood₁ : ∀ g ∈ ((some group).toList ++ pack w₁.pageSize rest [x] 12).dropLast,
                Good w₁.pageSize kind l₁.view height g := by
              intro g hg
              rw [hsame] at hg ⊢
              exact (hgood g (List.mem_cons_of_mem _ hg)).within (view_within hadv₁)
            refine (@groups_ensures rest [x] (some group) 12 _ w₁ l₁ hadv₁.ready hgood₁).mono ?_
              fun _ _ _ he => he
            rintro result w₂ l₂ ⟨hadv₂, done, previous', group', parents, hlist, hdone, hparents,
              rfl⟩
            rw [hsame] at hlist hparents
            refine ⟨hadv₁.trans hadv₂, previous :: done, previous', group', s :: parents, ?_, ?_,
              .cons (hparent.within (view_within hadv₂)) hparents, by simp⟩
            · simpa using hlist
            · rintro rfl
              have hpne : pack w.pageSize rest [x] 12 ≠ [] := Packing.pack_ne_nil _ _ _
              rw [hdone rfl] at hlist
              simp only [Option.toList_some, Option.toList_none, List.nil_append,
                List.singleton_append, List.cons.injEq] at hlist
              exact absurd hlist.2 hpne
      · have hpack : pack w.pageSize (x :: rest) group used = pack w.pageSize rest (group ++ [x])
            (used + Packing.additional Span.weight group) := if_neg hfull
        rw [if_neg hfull]
        rw [hpack] at hgood ⊢
        have hmap : group.map Span.child ++ [x.child] = (group ++ [x]).map Span.child := by simp
        rw [hmap]
        exact groups_ensures h hgood

end

/-- A row of children of one height, in order: each but the last is separated from the next. -/
structure Row (size : PageSize) (kind : Kind) (view : View) (height : Nat) (init : List Span)
    (last : Span) : Prop where
  nonempty : init ≠ []
  closed : ∀ s ∈ init, s.Closed size.bytes kind view height
  reads : last.Reads size.bytes kind view height
  final : last.separator = [] ∧ last.child.boundary = []

section
variable {size : PageSize} {kind : Kind} {view view' : View} {height : Nat} {init : List Span}
  {last : Span}

theorem Row.within (h : Row size kind view height init last) (hview : view.Within view') :
    Row size kind view' height init last :=
  ⟨h.nonempty, fun s hs => (h.closed s hs).within hview, h.reads.within hview, h.final⟩

/-- Three children of a row fit a page. -/
theorem Row.weight (h : Row size kind view height init last) :
    ∀ s ∈ init ++ [last], s.weight ≤ (size.bytes - 12) / 3 := by
  have hlow := size.lower
  intro s hs
  rcases List.mem_append.mp hs with hs | hs
  · exact (h.closed s hs).bounded.short
  · obtain rfl := List.mem_singleton.mp hs
    simp only [Span.weight, childWeight, h.final.2, List.length_nil]
    omega

/-- The last group of a row ends with its last child. -/
theorem split_row {front : List (List Span)} {final : List Span} (hne : final ≠ [])
    (hflat : (front ++ [final]).flatten = init ++ [last]) :
    ∃ tail, final = tail ++ [last] ∧ front.flatten ++ tail = init := by
  obtain ⟨tail, last', rfl⟩ := (List.eq_nil_or_concat' final).resolve_left hne
  have hsplit : (front.flatten ++ tail) ++ [last'] = init ++ [last] := by simpa using hflat
  obtain ⟨hinit, hlast⟩ := List.append_inj' hsplit rfl
  obtain rfl : last' = last := by simpa using hlast
  exact ⟨tail, rfl, hinit⟩

/-- Every group of a row but the last can be given its page. -/
theorem Row.good (h : Row size kind view height init last) {front : List (List Span)}
    {final : List Span} (hne : final ≠ []) (hflat : (front ++ [final]).flatten = init ++ [last])
    (hgroups : ∀ g ∈ front, 2 ≤ g.length ∧ Packing.cost 12 Span.weight g ≤ size.bytes) :
    ∀ g ∈ front, Good size kind view height g := by
  obtain ⟨tail, _, hinit⟩ := split_row hne hflat
  intro g hg
  obtain ⟨htwo, hcost⟩ := hgroups g hg
  refine good_of_closed htwo hcost fun s hs => h.closed s ?_
  rw [← hinit]
  exact List.mem_append_left _ (List.mem_flatten.mpr ⟨g, hg, hs⟩)

/-- So can the last one, if it has two children. -/
theorem Row.group (h : Row size kind view height init last) {front : List (List Span)}
    {final : List Span} (htwo : 2 ≤ final.length)
    (hfits : Packing.cost 12 Span.weight final ≤ size.bytes)
    (hflat : (front ++ [final]).flatten = init ++ [last]) :
    ∃ tail, final = tail ++ [last] ∧ Group size kind view height tail last ∧
      front.flatten ++ tail = init := by
  obtain ⟨tail, rfl, hinit⟩ := split_row (by rintro rfl; simp at htwo) hflat
  refine ⟨tail, rfl, ⟨?_, fun s hs => h.closed s ?_, h.reads, ?_⟩, hinit⟩
  · rintro rfl
    simp at htwo
  · rw [← hinit]
    exact List.mem_append_right _ hs
  · simpa [Packing.cost] using hfits

/-- What the pages of the level above stand for. -/
theorem contents_parents {groups : List (List Span)} {parents : List Span}
    (h : List.Forall₂ (Parent size kind view height) groups parents) :
    contents parents = contents groups.flatten := by
  induction h with
  | nil => rfl
  | @cons group s groups parents hs _ ih =>
      have : s :: parents = [s] ++ parents := rfl
      rw [this, contents_append, contents_singleton, hs.2, ih, List.flatten_cons, contents_append]

/-- The parents of a level are the closed children of the next. -/
theorem closed_parents {groups : List (List Span)} {parents : List Span}
    (h : List.Forall₂ (Parent size kind view height) groups parents) :
    ∀ s ∈ parents, s.Closed size.bytes kind view (height + 1) := by
  induction h with
  | nil => simp
  | @cons group s groups parents hs _ ih =>
      intro s' hs'
      rcases List.mem_cons.mp hs' with rfl | hs'
      · exact hs.1
      · exact ih s' hs'

/-- `lend` is `Packing.balance` on the last two groups. -/
theorem lend_eq {previous : List Span} (group : List Span) (hprevious : previous ≠ []) :
    ∃ left right, Packing.balance [previous, group] = [left, right] ∧
      lend (previous.map Span.child) (group.map Span.child)
        = .ok (left.map Span.child, right.map Span.child) := by
  obtain ⟨front, borrowed, rfl⟩ := (List.eq_nil_or_concat' previous).resolve_left hprevious
  by_cases hone : group.length = 1
  · refine ⟨front, borrowed :: group, ?_, ?_⟩
    · simp [Packing.balance, hone]
    · simp [lend, hone]
  · refine ⟨front ++ [borrowed], group, ?_, ?_⟩
    · simp [Packing.balance, hone]
    · simp [lend, hone]

end

/-- The tree is complete: the last page has replaced the root, and the root reads back as the
records, if they are roomy. -/
structure Planted (w : Writer) (l : Ledger) (root : Nat) (kind : Kind) (records : List Record)
    (w' : Writer) (l' : Ledger) : Prop where
  intro ::
  advances : ∃ l₁ bytes, w.Advances l w' l₁ ∧ l' = l₁.write root bytes
  accepts : w'.Accepts root
  reads : ∃ height, (∀ record ∈ records, Roomy kind record) →
    readTree w.pageSize.bytes kind l'.view height true root = some records

/-- Why a level cannot be written: no page for it, or the root is not the writer's. -/
def LevelFailed (faults : Prop) (start : Writer) (root : Nat) (w : Writer) (fault : Fault) :
    Prop :=
  Failed faults w fault ∨ fault.isPanic = false ∧ ¬ start.Accepts root

section
variable {faults : Prop} {w : Writer} {l : Ledger} {kind : Kind} {height : Nat}
  {init : List Span} {last : Span}

/-- The groups of a row: each but the last has its page, and the balanced ones all have. -/
theorem Row.groups {size : PageSize} {view : View} (h : Row size kind view height init last) :
    (pack size (init ++ [last]) [] 12).flatten = init ++ [last] ∧
      (∀ g ∈ pack size (init ++ [last]) [] 12, Packing.cost 12 Span.weight g ≤ size.bytes) ∧
      (∀ g ∈ (pack size (init ++ [last]) [] 12).dropLast, g ≠ [] ∧
        Good size kind view height g) ∧
      (2 ≤ (pack size (init ++ [last]) [] 12).length →
        (∀ g ∈ Packing.balance (pack size (init ++ [last]) [] 12),
          2 ≤ g.length ∧ Packing.cost 12 Span.weight g ≤ size.bytes) ∧
        (pack size (init ++ [last]) [] 12).length ≤ init.length) := by
  have hlow := size.lower
  have hbase : 12 + 3 * ((size.bytes - 12) / 3) ≤ size.bytes := by omega
  have hopen : Packing.Open 12 Span.weight ([] : List Span) 12 := rfl
  have hflat : (pack size (init ++ [last]) [] 12).flatten = init ++ [last] :=
    Packing.flatten_pack ..
  have hcosts := Packing.cost_pack (init ++ [last]) hopen (show 12 ≤ size.bytes by omega)
    (by omega)
  refine ⟨hflat, hcosts, ?_, fun htwo => ⟨Packing.balance_pack hbase h.weight htwo, ?_⟩⟩
  · have hlong := Packing.four_le_length_pack (init ++ [last]) hopen (by omega) hbase
      (by simpa using h.weight)
    have hnonempty := Packing.nonempty_pack Span.weight (show 12 ≤ size.bytes by omega)
      (show 12 ≤ size.bytes by omega) (show [] ++ (init ++ [last]) ≠ [] by simp)
    have hne : Packing.pack 12 size.bytes Span.weight (init ++ [last]) [] 12 ≠ [] :=
      Packing.pack_ne_nil _ _ _
    obtain ⟨front, final, hsplit⟩ := (List.eq_nil_or_concat' _).resolve_left hne
    rw [pack, hsplit] at hflat ⊢
    rw [hsplit] at hcosts hlong hnonempty
    rw [List.dropLast_concat] at hlong ⊢
    intro g hg
    refine ⟨hnonempty g (by simp [hg]), h.good (hnonempty final (by simp)) hflat ?_ g hg⟩
    exact fun g hg => ⟨(hlong g hg).trans' (by omega), hcosts g (by simp [hg])⟩
  · have := Packing.length_balance_pack_lt hbase h.weight htwo
    simp only [List.length_append, List.length_singleton] at this
    exact Nat.le_of_lt_succ this

/-- One level: either the page over the whole row is the root, or the row above has fewer
children and reads back as the same records. -/
theorem level_ensures {root : Nat} (h : w.Ready l) (hroot : l.roots root)
    (hrow : Row w.pageSize kind l.view height init last) :
    Ensures (protocol faults) (level root kind ((init ++ [last]).map Span.child)) w l
      (fun result w' l' =>
        match result with
        | none => Planted w l root kind (contents init ++ last.records) w' l'
        | some next => w.Advances l w' l' ∧ ∃ init' last',
            next = (init' ++ [last']).map Span.child ∧
            Row w.pageSize kind l'.view (height + 1) init' last' ∧
            contents init' ++ last'.records = contents init ++ last.records ∧
            init'.length < init.length)
      (fun fault w' _ => LevelFailed faults w root w' fault) := by
  obtain ⟨hflat, hcosts, hgood, hbalanced⟩ := hrow.groups
  have hherr : ∀ {w₁ : Writer} (fault : Fault), faults → fault.isPanic = false →
      LevelFailed faults w root w₁ fault := fun _ hf hp => .inl ⟨hp, .inl hf⟩
  simp only [level, ensures_bind]
  refine ensures_scratch (ensures_scratch ?_ hherr) hherr
  refine (@groups_ensures faults kind height (init ++ [last]) [] none 12 [] w l h
    fun g hg => (hgood g hg).2).mono ?_ fun _ _ _ he => .inl he
  rintro result w₁ l₁ ⟨hadv₁, done, previous, group, parents, hlist, hdone, hparents, rfl⟩
  rw [Option.toList_none, List.nil_append] at hlist
  have hrow₁ := hrow.within (view_within hadv₁)
  have hsame₁ := hadv₁.same.pageSize
  rw [hlist] at hflat hcosts hgood hbalanced
  cases previous with
  | none =>
      rw [hdone rfl] at hflat hcosts
      simp only [Option.toList_none, List.nil_append, List.flatten_cons, List.flatten_nil,
        List.append_nil] at hflat hcosts
      subst hflat
      have hfits := hcosts (init ++ [last]) (by simp)
      have hgroup : Group w₁.pageSize kind l₁.view height init last := by
        rw [hsame₁]
        exact ⟨hrow.nonempty, hrow₁.closed, hrow₁.reads, by simpa [Packing.cost] using hfits⟩
      have hroot₁ : l₁.roots root := by rw [hadv₁.roots]; exact hroot
      refine ensures_bind.mpr ((root_parent_ensures hadv₁.ready hroot₁ hgroup).mono ?_ ?_)
      · rintro child w₂ l₂ ⟨rfl, ⟨bytes, rfl⟩, haccepts, hread⟩
        rw [hsame₁] at hread
        exact ⟨⟨l₁, bytes, hadv₁, rfl⟩, haccepts, height + 1, hread⟩
      · rintro fault w₂ l₂ ⟨hpanic, hf | hrejects⟩
        · exact hherr fault hf hpanic
        · exact .inr ⟨hpanic, fun haccepts => hrejects (haccepts.advances hadv₁)⟩
  | some previous =>
      simp only [Option.toList_some, List.singleton_append] at hlist hflat hgood hbalanced
      obtain ⟨hsizes, hfewer⟩ := hbalanced (by simp)
      have hprevious := (hgood previous (by simp [List.dropLast_append_of_ne_nil])).1
      obtain ⟨left, right, hbalance, hlend⟩ := lend_eq group hprevious
      rw [Packing.balance_append, hbalance] at hsizes
      have hflat' : (done ++ [left] ++ [right]).flatten = init ++ [last] := by
        rw [← hflat, ← Packing.flatten_balance (done ++ [previous, group]),
          Packing.balance_append, hbalance]
        simp
      rw [← hsame₁] at hsizes hrow₁
      have hright := hsizes right (by simp)
      have hgood₁ := hrow₁.good (List.ne_nil_of_length_pos (by omega)) hflat'
        fun g hg => hsizes g (by
          rcases List.mem_append.mp hg with hg | hg
          · simp [hg]
          · simp [List.mem_singleton.mp hg])
      obtain ⟨tail, rfl, hgroup, hinit⟩ := hrow₁.group hright.1 hright.2 hflat'
      refine (ensures_bind_ok hlend).mpr ?_
      refine (good_parent_ensures hadv₁.ready (hgood₁ left (by simp))).bind ?_
        fun _ _ _ he => .inl he
      rintro _ w₂ l₂ ⟨hadv₂, s, rfl, hparent⟩
      have hsame₂ := hadv₂.same.pageSize
      refine ensures_bind.mpr (ensures_scratch ?_ hherr)
      have hgroup₂ := hgroup.within (view_within hadv₂)
      rw [← hsame₂] at hgroup₂
      refine (parent_ensures hadv₂.ready hgroup₂).bind ?_ fun _ _ _ he => .inl he
      rintro child w₃ l₃ ⟨hadv₃, hboundary, hreads⟩
      refine ensures_bind.mpr (ensures_scratch ?_ hherr)
      have hview₃ := view_within hadv₃
      have hview₂ := (view_within hadv₂).trans hview₃
      rw [hsame₂, hsame₁] at hreads
      rw [hsame₁] at hparent
      refine ⟨(hadv₁.trans hadv₂).trans hadv₃, parents ++ [s], merged tail last child, ?_,
        ⟨by simp, ?_, hreads, hrow.final.1, hboundary.trans hrow.final.2⟩, ?_, ?_⟩
      · simp [merged]
      · intro s' hs'
        rcases List.mem_append.mp hs' with hs' | hs'
        · exact (closed_parents hparents s' hs').within hview₂
        · obtain rfl := List.mem_singleton.mp hs'
          exact (hparent.within hview₃).1
      · rw [contents_append, contents_singleton, hparent.2, contents_parents hparents, ← hinit]
        simp [merged]
      · have hlen := hparents.length_eq
        simp only [List.length_append, List.length_cons, List.length_nil] at hfewer ⊢
        omega

end

end Writer

end Velr
