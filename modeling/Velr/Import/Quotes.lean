import Velr.Import.Ordered
import Velr.Import.Panics

/-!
# Rows that panic

Converting a data row panics exactly at a lone quote in the text of a point (`values_panic_iff`). A
worker comes to the rows of its source up to the first error, and so it panics only at such a row:
where sequential parsing comes to none, no worker panics before the first error
(`allEffects_calm`).
-/

namespace Velr.Import

open Csv Record
open FirstWins (Map)
open IdMap (Failure)
open Results

variable {F T : Type}

/-! ## The header of a source -/

section
variable {opts : HeaderOptions} {relationship : Bool} {st st' : Columns}

/-- A header with cells has columns. -/
theorem columnsFrom_ne_nil {index : Nat} {cells : List Cell} (hcells : cells ≠ [])
    (h : columnsFrom opts relationship index cells st = .ok st') : st'.columns ≠ [] := by
  induction cells generalizing index st with
  | nil => exact absurd rfl hcells
  | cons cell cells ih =>
      obtain ⟨st₁, hnext, hrest⟩ := bind_eq_ok_iff.mp h
      cases cells with
      | nil =>
          cases hrest
          obtain ⟨parsed, -, hnext⟩ := bind_eq_ok_iff.mp hnext
          obtain ⟨⟨kind, st₂⟩, -, hnext⟩ := bind_eq_ok_iff.mp hnext
          cases hnext
          exact List.append_ne_nil_of_right_ne_nil _ (List.cons_ne_nil _ _)
      | cons next cells => exact ih (List.cons_ne_nil _ _) hrest

/-- The columns of a header that is accepted are those of a source's header. -/
theorem exists_header {groups groups' : Map String ValueType} {source : HeaderSource}
    {cells : List Cell} {parsed : ParsedHeader} (hdeclared : Declared opts groups)
    (h : ParsedHeader.parse opts source relationship cells groups = .ok (parsed, groups')) :
    ∃ header : Header, header.columns = parsed.columns := by
  have hknown := (parse_known (declared_ofIds hdeclared) h).2
  refine ⟨⟨parsed.columns, ?_, hknown⟩, rfl⟩
  rw [ParsedHeader.parse] at h
  split at h
  · cases h
  · next hcells =>
      obtain ⟨st, hcolumns, hfinish⟩ := bind_eq_ok_iff.mp h
      rw [(finish_ok hfinish).1]
      exact columnsFrom_ne_nil (by simpa using hcells) hcolumns

end

/-! ## The cells of a row -/

section
variable (c : Conversions F T) (opts : HeaderOptions)

/-- The cell of a row in a column; one that is missing is empty. -/
def cellAt (cells : List Cell) (index : Nat) : Cell :=
  cells[index]?.getD { text := "", quoted := false }

/-- The columns come to a lone quote: a cell of a point has one, and those in front of it can be
converted. -/
def ColumnsQuoted (columns : List Column) (cells : List Cell) : Prop :=
  ∃ front column back type, columns = front ++ column :: back ∧
    (∀ (index : Nat) (column' : Column), front[index]? = some column' →
      ∃ parsed, column'.parseCell c.parsers opts (cellAt cells index) = .ok parsed) ∧
    column.kind = .property type ∧ type.Quoted c.parsers opts (cellAt cells front.length)

/-- Converting a data row comes to a lone quote in the text of a point. -/
def DataRow.Quoted (d : DataRow) : Prop :=
  (d.row.cells.length ≤ d.header.columns.length ∨ opts.ignoreExtraColumns = true) ∧
    ColumnsQuoted c opts d.header.columns d.row.cells

/-- `values` of a data row -/
def DataRow.values (d : DataRow) : Except (Failure String) (List Value) :=
  d.header.values c opts d.row.cells

end

variable {c : Conversions F T} {opts : HeaderOptions}

theorem cellAt_zero (cells : List Cell) :
    cellAt cells 0 = cells.headD { text := "", quoted := false } := by
  cases cells <;> rfl

theorem cellAt_succ (cells : List Cell) (index : Nat) :
    cellAt cells (index + 1) = cellAt cells.tail index := by
  cases cells <;> rfl

/-- Converting the cells of a row panics exactly at a quoted column behind columns that convert. -/
theorem appendColumns_panic_iff {σ : Type} [ValueSink σ] {columns : List Column} {index : Nat}
    {cells : List Cell} {output : σ} (hknown : ∀ column ∈ columns, KindKnown column.kind) :
    appendColumns c opts columns index cells output = .error .panic ↔
      ColumnsQuoted c opts columns cells := by
  induction columns generalizing index cells output with
  | nil =>
      refine ⟨nofun, ?_⟩
      rintro ⟨front, column, back, type, hsplit, -⟩
      cases front <;> cases hsplit
  | cons column columns ih =>
      obtain ⟨hcolumn, hcolumns⟩ := List.forall_mem_cons.mp hknown
      rw [appendColumns, bind_eq_error_iff, located_eq_panic, ← cellAt_zero,
        parseCell_panic_iff hcolumn]
      constructor
      · rintro (⟨type, hkind, hquoted⟩ | ⟨parsed, hparsed, hrest⟩)
        · exact ⟨[], column, columns, type, rfl, (fun _ _ hfront => by simp at hfront), hkind,
            hquoted⟩
        · obtain ⟨front, column', back, type, rfl, hfront, hkind, hquoted⟩ := (ih hcolumns).mp hrest
          refine ⟨column :: front, column', back, type, rfl, fun i first hi => ?_, hkind, ?_⟩
          · cases i with
            | zero =>
                cases hi
                exact ⟨parsed, located_eq_ok.mp hparsed⟩
            | succ i =>
                rw [cellAt_succ]
                exact hfront i first hi
          · rw [List.length_cons, cellAt_succ]
            exact hquoted
      · rintro ⟨front, column', back, type, hsplit, hfront, hkind, hquoted⟩
        cases front with
        | nil =>
            obtain ⟨rfl, rfl⟩ := List.cons.inj hsplit
            exact .inl ⟨type, hkind, hquoted⟩
        | cons first front =>
            obtain ⟨rfl, rfl⟩ := List.cons.inj hsplit
            obtain ⟨parsed, hparsed⟩ := hfront 0 column rfl
            refine .inr ⟨parsed, located_eq_ok.mpr hparsed, (ih hcolumns).mpr ?_⟩
            refine ⟨front, column', back, type, rfl, fun i first hi => ?_, hkind, ?_⟩
            · rw [← cellAt_succ]
              exact hfront (i + 1) first hi
            · rw [← cellAt_succ]
              exact hquoted

/-- A row panics exactly at a lone quote. -/
theorem values_panic_iff {d : DataRow} : d.values c opts = .error .panic ↔ d.Quoted c opts := by
  unfold DataRow.values DataRow.Quoted Header.values Header.appendCells
  split
  · next hwide =>
      simp only [Bool.and_eq_true, decide_eq_true_eq, Bool.not_eq_true'] at hwide
      refine ⟨fun h => absurd h (invalid_ne_panic _), ?_⟩
      rintro ⟨hlength | hextra, -⟩
      · omega
      · rw [hwide.2] at hextra
        cases hextra
  · next hwide =>
      simp only [Bool.and_eq_true, decide_eq_true_eq, Bool.not_eq_true', not_and,
        Bool.not_eq_false] at hwide
      rw [appendColumns_panic_iff d.header.known, and_iff_right]
      exact (Nat.lt_or_ge d.header.columns.length d.row.cells.length).elim
        (fun hlength => .inr (hwide hlength)) .inl

/-- Whether a record can be converted does not depend on where its values go. -/
theorem appendColumns_error_iff {σ σ' : Type} [ValueSink σ] [ValueSink σ'] {columns : List Column}
    {index : Nat} {cells : List Cell} {output : σ} {output' : σ'} {f : Failure String} :
    appendColumns c opts columns index cells output = .error f ↔
      appendColumns c opts columns index cells output' = .error f := by
  induction columns generalizing index cells output output' with
  | nil => exact ⟨nofun, nofun⟩
  | cons column columns ih =>
      rw [appendColumns, appendColumns, bind_eq_error_iff, bind_eq_error_iff]
      refine or_congr_right (exists_congr fun parsed => and_congr_right fun _ => ih)

/-- A row fails the same whatever its values go to. -/
theorem appendCells_error_iff {σ : Type} [ValueSink σ] {header : Header} {cells : List Cell}
    {output : σ} {f : Failure String} :
    header.appendCells c opts cells output = .error f ↔ header.values c opts cells = .error f := by
  unfold Header.values Header.appendCells
  split
  · simp [invalid]
  · exact appendColumns_error_iff

/-! ## The rows that parsing comes to -/

section
variable (c : Conversions F T) (opts : HeaderOptions)

/-- What the reader of a file delivers behind its header. -/
def fileItems (source : Nat) (src : Source) (fileIndex : Nat) (file : SourceFile) :
    List (Except String DataRow) :=
  match file.contents with
  | .error e => [.error e]
  | .ok (rows, error) =>
      ((dropHeader opts src fileIndex rows).map fun row =>
        .ok { source, path := file.path, header := src.header, row }) ++ error.toList.map .error

/-- What the readers of the files of a source deliver. -/
def filesItems (source : Nat) (src : Source) : Nat → List SourceFile → List (Except String DataRow)
  | _, [] => []
  | fileIndex, file :: files =>
      fileItems opts source src fileIndex file ++ filesItems source src (fileIndex + 1) files

/-- What the readers of all sources deliver, in declaration order. -/
def allItems (sources : List Source) : List (Except String DataRow) :=
  (sources.mapIdx fun source src => filesItems opts source src 0 src.files).flatten

/-- The data rows up to the first error. -/
def reached : List (Except String DataRow) → List DataRow
  | [] => []
  | .error _ :: _ => []
  | .ok d :: items =>
      match d.values c opts with
      | .error _ => [d]
      | .ok _ => d :: reached items

/-- No error is delivered, and each row can be converted. -/
def Converts (items : List (Except String DataRow)) : Prop :=
  ∀ item ∈ items, ∃ d values, item = .ok d ∧ d.values c opts = .ok values

/-- A worker with this input comes to a panic only at a row that does, and to its end only behind
its last row. -/
def Follows (items : List (Except String DataRow)) (effects : List Effect) : Prop :=
  (∀ d ∈ reached c opts items, d.values c opts ≠ .error .panic) →
    .error .panic ∉ effects ∧ ((∀ f, .error f ∉ effects) → Converts c opts items)

end

/-- Two parts that convert convert together. -/
theorem Converts.append {items items' : List (Except String DataRow)} (h : Converts c opts items)
    (h' : Converts c opts items') : Converts c opts (items ++ items') :=
  fun item hitem => (List.mem_append.mp hitem).elim (h item) (h' item)

/-- The rows that are reached are reached with more behind them. -/
theorem reached_subset (items items' : List (Except String DataRow)) :
    ∀ d ∈ reached c opts items, d ∈ reached c opts (items ++ items') := by
  induction items with
  | nil => exact fun _ hd => by cases hd
  | cons item items ih =>
      intro d hd
      cases item with
      | error e => cases hd
      | ok d' =>
          rw [List.cons_append]
          unfold reached at hd ⊢
          split at hd
          · exact hd
          · rcases List.mem_cons.mp hd with rfl | hd
            · exact List.mem_cons_self
            · exact List.mem_cons_of_mem _ (ih d hd)

/-- Behind a part that converts, the rows that the rest reaches are reached. -/
theorem Converts.reached {items : List (Except String DataRow)} (h : Converts c opts items)
    (items' : List (Except String DataRow)) :
    ∀ d ∈ Import.reached c opts items', d ∈ Import.reached c opts (items ++ items') := by
  induction items with
  | nil => exact fun _ hd => hd
  | cons item items ih =>
      intro d hd
      obtain ⟨⟨d', values, rfl, hvalues⟩, hitems⟩ := List.forall_mem_cons.mp h
      rw [List.cons_append, Import.reached, hvalues]
      exact List.mem_cons_of_mem _ (ih hitems d hd)

/-- What follows a part that has failed is not produced. -/
theorem Follows.append {items items' : List (Except String DataRow)}
    {effects effects' : List Effect}
    (h : Follows c opts items effects) (h' : Follows c opts items' effects') :
    Follows c opts (items ++ items')
      (if effects.any fun e => e matches .error _ then effects else effects ++ effects') := by
  intro hclean
  obtain ⟨hpanic, hconverts⟩ := h fun d hd => hclean d (reached_subset items items' d hd)
  split
  · next hany =>
      obtain ⟨effect, heffect, herror⟩ := List.any_eq_true.mp hany
      refine ⟨hpanic, fun hok => ?_⟩
      cases effect with
      | error f => exact absurd heffect (hok f)
      | ok batch => cases herror
  · next hany =>
      have hok : ∀ f, .error f ∉ effects := fun f hf =>
        hany (List.any_eq_true.mpr ⟨.error f, hf, rfl⟩)
      have hitems := hconverts hok
      obtain ⟨hpanic', hconverts'⟩ := h' fun d hd => hclean d (hitems.reached items' d hd)
      refine ⟨fun hmem => (List.mem_append.mp hmem).elim hpanic hpanic', fun hall => ?_⟩
      exact hitems.append (hconverts' fun f hf => hall f (List.mem_append_right _ hf))

/-- The first row is reached. -/
theorem mem_reached (d : DataRow) (items : List (Except String DataRow)) :
    d ∈ reached c opts (.ok d :: items) := by
  unfold reached
  split <;> exact List.mem_cons_self

/-- A record that is added to a batch can be converted. -/
theorem Building.values_of_add {b b' : Building} {d : DataRow}
    (h : b.add c opts d.header d.row = .ok b') : ∃ values, d.values c opts = .ok values := by
  obtain ⟨rows, hrows, -⟩ := bind_eq_ok_iff.mp h
  cases hvalues : d.values c opts with
  | ok values => exact ⟨values, rfl⟩
  | error f =>
      rw [appendCells_error_iff.mpr hvalues] at hrows
      cases located_eq_ok.mp hrows

/-- A record at which adding it to a batch panics is one whose conversion does. -/
theorem Building.panic_of_add {b : Building} {d : DataRow}
    (h : b.add c opts d.header d.row = .error .panic) : d.values c opts = .error .panic := by
  rcases bind_eq_error_iff.mp h with hrows | ⟨rows, -, hrest⟩
  · exact appendCells_error_iff.mp (located_eq_panic.mp hrows)
  · cases hrest

/-- The rows of a block are converted one after another up to the first error. -/
theorem produceRows_follows (d₀ : DataRow) {rows : List Row} {error : Option String}
    (b : Building) :
    Follows c opts (rows.map (fun row => .ok { d₀ with row }) ++ error.toList.map .error)
      (produceRows c opts d₀.header b rows error) := by
  induction rows generalizing b with
  | nil =>
      intro _
      cases error with
      | some e =>
          refine ⟨fun hmem => ?_, fun hok => absurd (List.mem_singleton.mpr rfl) (hok (.error _))⟩
          cases List.mem_singleton.mp hmem
      | none =>
          refine ⟨fun hmem => ?_, fun _ _ hitem => by cases hitem⟩
          unfold produceRows at hmem
          split at hmem
          · cases hmem
          · cases List.mem_singleton.mp hmem
  | cons row rows ih =>
      intro hclean
      rw [List.map_cons, List.cons_append] at hclean ⊢
      unfold produceRows
      cases hadd : b.add c opts d₀.header row with
      | error f =>
          refine ⟨fun hmem => ?_, fun hok => absurd (List.mem_singleton.mpr rfl) (hok f)⟩
          obtain rfl := Except.error.inj (List.mem_singleton.mp hmem)
          exact hclean _ (mem_reached _ _) (Building.panic_of_add (d := { d₀ with row }) hadd)
      | ok b' =>
          obtain ⟨values, hvalues⟩ := Building.values_of_add (d := { d₀ with row }) hadd
          have hhead : Converts c opts [.ok { d₀ with row }] := by
            intro item hitem
            rw [List.mem_singleton.mp hitem]
            exact ⟨_, values, rfl, hvalues⟩
          have hclean' := fun d hd => hclean d (hhead.reached _ d hd)
          dsimp only
          split
          · obtain ⟨hpanic, hconverts⟩ := ih (.new b'.batch.source b'.batch.path d₀.header) hclean'
            refine ⟨fun hmem => ?_, fun hok => ?_⟩
            · rcases List.mem_cons.mp hmem with hmem | hmem
              · cases hmem
              · exact hpanic hmem
            · exact hhead.append (hconverts fun f hf => hok f (List.mem_cons_of_mem _ hf))
          · obtain ⟨hpanic, hconverts⟩ := ih b' hclean'
            exact ⟨hpanic, fun hok => hhead.append (hconverts hok)⟩

/-- So are the rows of a file. -/
theorem produceFile_follows (source : Nat) (src : Source) (fileIndex : Nat) (file : SourceFile) :
    Follows c opts (fileItems opts source src fileIndex file)
      (produceFile c opts source src fileIndex file) := by
  unfold fileItems produceFile
  cases file.contents with
  | error e =>
      intro _
      refine ⟨fun hmem => ?_, fun hok => absurd (List.mem_singleton.mpr rfl) (hok (.error e))⟩
      cases List.mem_singleton.mp hmem
  | ok contents => exact produceRows_follows ⟨source, file.path, src.header, ⟨0, []⟩⟩ _

/-- So are the rows of the files of a source. -/
theorem produceFiles_follows (source : Nat) (src : Source) (files : List SourceFile)
    (fileIndex : Nat) :
    Follows c opts (filesItems opts source src fileIndex files)
      (produceFiles c opts source src fileIndex files) := by
  induction files generalizing fileIndex with
  | nil => exact fun _ => ⟨List.not_mem_nil, fun _ _ hitem => by cases hitem⟩
  | cons file files ih =>
      exact (produceFile_follows source src fileIndex file).append (ih (fileIndex + 1))

/-! ## Panics behind the first error -/

/-- Effects without a panic stay calm with calm effects behind them. -/
theorem Calm.append {effects effects' : List Effect} (h : .error .panic ∉ effects)
    (h' : (∀ f, .error f ∉ effects) → Calm effects') : Calm (effects ++ effects') := by
  induction effects with
  | nil => exact h' fun _ hf => by cases hf
  | cons effect effects ih =>
      rcases effect with (e | _) | batch
      · trivial
      · exact absurd List.mem_cons_self h
      · refine ih (fun hmem => h (List.mem_cons_of_mem _ hmem)) fun hok => h' fun f hf => ?_
        rcases List.mem_cons.mp hf with hf | hf
        · cases hf
        · exact hok f hf

/-- Workers that follow their input are calm, when sequential parsing of all of it comes to no
panic. -/
theorem calm_flatten {parts : List (List (Except String DataRow) × List Effect)}
    (h : ∀ part ∈ parts, Follows c opts part.1 part.2)
    (hclean : ∀ d ∈ reached c opts (parts.map Prod.fst).flatten, d.values c opts ≠ .error .panic) :
    Calm (parts.map Prod.snd).flatten := by
  induction parts with
  | nil => trivial
  | cons part parts ih =>
      obtain ⟨hpart, hparts⟩ := List.forall_mem_cons.mp h
      rw [List.map_cons, List.flatten_cons] at hclean ⊢
      obtain ⟨hpanic, hconverts⟩ := hpart fun d hd => hclean d (reached_subset _ _ d hd)
      exact .append hpanic fun hok =>
        ih hparts fun d hd => hclean d ((hconverts hok).reached _ d hd)

/-- Where sequential parsing comes to no lone quote, no worker panics before the first error. -/
theorem allEffects_calm {sources : List Source}
    (hclean : ∀ d ∈ reached c opts (allItems opts sources), ¬d.Quoted c opts) :
    Calm (allEffects c opts sources).flatten := by
  let parts := sources.mapIdx fun source src =>
    (filesItems opts source src 0 src.files, produceSource c opts source src)
  have hparts : Calm (parts.map Prod.snd).flatten :=
    calm_flatten (fun part hpart => ?_) fun d hd hpanic => hclean d ?_ (values_panic_iff.mp hpanic)
  · simpa [parts, allEffects, List.mapIdx_eq_zipIdx_map, Function.comp_def] using hparts
  · obtain ⟨source, hsource, rfl⟩ := List.mem_mapIdx.mp hpart
    exact produceFiles_follows source _ _ 0
  · simpa [parts, allItems, List.mapIdx_eq_zipIdx_map, Function.comp_def] using hd

end Velr.Import
