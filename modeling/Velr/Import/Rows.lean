import Mathlib.Data.List.Forall2
import Velr.Import.Source

/-!
# Every data row is in one batch

The data rows of the sources, in order, are cut into one group for each batch, and the batch holds
the values of its group (`Batch.Holds`). `produceRows_groups` is the induction along a file's
records; the groups of a file's batches, of a source's and of all sources are put together from it.
-/

namespace Velr.Import

open Csv Record
open IdMap (Failure)
open Results

variable {F T : Type} (c : Conversions F T) (opts : HeaderOptions)

/-- A data row of a file of a source. -/
structure DataRow where
  source : Nat
  path : String
  header : Header
  row : Row

/-- The data rows of a file. -/
def fileRows (source : Nat) (src : Source) (fileIndex : Nat) (file : SourceFile) : List DataRow :=
  match file.contents with
  | .error _ => []
  | .ok (rows, _) =>
      (dropHeader opts src fileIndex rows).map fun row =>
        { source, path := file.path, header := src.header, row }

/-- The data rows of the files of a source. -/
def filesRows (source : Nat) (src : Source) : Nat → List SourceFile → List DataRow
  | _, [] => []
  | fileIndex, file :: files =>
      fileRows opts source src fileIndex file ++ filesRows source src (fileIndex + 1) files

/-- The data rows of all sources, in declaration order. -/
def dataRows (sources : List Source) : List DataRow :=
  (sources.mapIdx fun source src => filesRows opts source src 0 src.files).flatten

/-- The columns of a data row that are ignored. -/
def DataRow.extra (d : DataRow) : Nat := extraColumns opts d.header d.row

/-- A batch holds the values of a group of data rows of one file. -/
structure Batch.Holds (batch : Batch) (group : List DataRow) : Prop where
  origin : ∀ d ∈ group,
    d.source = batch.source ∧ d.path = batch.path ∧ d.header.columns.length = batch.columns
  values : ∃ values, group.mapM (fun d => d.header.values c opts d.row.cells) = .ok values ∧
    batch.rows.iter = some values.flatten
  whole : batch.rows.len = group.length * batch.columns
  first : ∀ d, group.head? = some d → batch.firstLine = d.row.line
  last : ∀ d, group.getLast? = some d → batch.lastLine = d.row.line
  extra : batch.extraColumns = (group.map (DataRow.extra opts)).sum

variable {c opts}

/-- A new batch holds no row. -/
theorem holds_new (source : Nat) (path : String) (header : Header) :
    (Building.new source path header).batch.Holds c opts [] where
  origin := fun d hd => by cases hd
  values := ⟨[], rfl, rfl⟩
  whole := by simp [Building.new, BatchValues.empty, BatchValues.len]
  first := fun d hd => by cases hd
  last := fun d hd => by cases hd
  extra := rfl

/-- No rows, no cells. -/
theorem Batch.Holds.isEmpty_iff {batch : Batch} {group : List DataRow}
    (h : batch.Holds c opts group) (hcolumns : 0 < batch.columns) :
    batch.rows.isEmpty = true ↔ group = [] := by
  have hlen : batch.rows.cells.length = group.length * batch.columns := h.whole
  rw [BatchValues.isEmpty, List.isEmpty_iff, ← List.length_eq_zero_iff, hlen, Nat.mul_eq_zero,
    List.length_eq_zero_iff, or_iff_left hcolumns.ne']

/-- What a record adds to the batch. -/
theorem Building.add_ok {b b' : Building} {header : Header} {row : Row} {group : List DataRow}
    (h : b.batch.Holds c opts group) (hcolumns : b.batch.columns = header.columns.length)
    (hadd : b.add c opts header row = .ok b') :
    b'.batch.Holds c opts
        (group ++ [{ source := b.batch.source, path := b.batch.path, header, row }]) ∧
      b'.batch.source = b.batch.source ∧ b'.batch.path = b.batch.path ∧
      b'.batch.columns = b.batch.columns := by
  have hpos : 0 < b.batch.columns := by
    rw [hcolumns]
    exact List.length_pos_iff.mpr header.nonempty
  have hempty := h.isEmpty_iff hpos
  obtain ⟨rows, hlocated, hadd⟩ := bind_eq_ok_iff.mp hadd
  cases hadd
  obtain ⟨values, hvalues, hiter⟩ := h.values
  obtain ⟨more, hmore, hiter', hlen⟩ := Header.appendCells_ok hiter (located_eq_ok.mp hlocated)
  refine ⟨?_, rfl, rfl, rfl⟩
  constructor
  case origin =>
    intro d hd
    rcases List.mem_append.mp hd with hd | hd
    · exact h.origin d hd
    · rw [List.mem_singleton.mp hd]
      exact ⟨rfl, rfl, hcolumns.symm⟩
  case values =>
    refine ⟨values ++ [more], ?_, by simpa using hiter'⟩
    rw [List.mapM_append, hvalues]
    simp [hmore, bind, Except.bind, pure, Except.pure]
  case whole =>
    have hwhole : b.batch.rows.len = group.length * b.batch.columns := h.whole
    change rows.len = _
    rw [hlen, hwhole, List.length_append, List.length_singleton, Nat.add_mul, Nat.one_mul,
      hcolumns]
  case first =>
    intro d hd
    by_cases hnil : group = []
    · subst hnil
      cases hd
      change (if b.batch.rows.isEmpty then row.line else b.batch.firstLine) = row.line
      rw [if_pos (hempty.mpr rfl)]
    · change (if b.batch.rows.isEmpty then row.line else b.batch.firstLine) = d.row.line
      rw [if_neg fun he => hnil (hempty.mp he)]
      rw [List.head?_append_of_ne_nil _ hnil] at hd
      exact h.first d hd
  case last =>
    intro d hd
    rw [List.getLast?_concat] at hd
    cases hd
    rfl
  case extra =>
    rw [List.map_append, List.sum_append, ← h.extra]
    simp [DataRow.extra]

/-- The batches of a file are the cut of its data rows, where there is no error. -/
theorem produceRows_groups {header : Header} {rows : List Row} {error : Option String}
    {b : Building} {group : List DataRow} (h : b.batch.Holds c opts group)
    (hcolumns : b.batch.columns = header.columns.length)
    (hok : ∀ e, .error e ∉ produceRows c opts header b rows error) :
    ∃ batches groups, produceRows c opts header b rows error = List.map Except.ok batches ∧
      List.Forall₂ (fun batch group => group ≠ [] ∧ batch.Holds c opts group) batches groups ∧
      groups.flatten = group ++ rows.map fun row =>
        { source := b.batch.source, path := b.batch.path, header, row } := by
  induction rows generalizing b group with
  | nil =>
      have hpos : 0 < b.batch.columns := by
        rw [hcolumns]
        exact List.length_pos_iff.mpr header.nonempty
      cases error with
      | some e => exact absurd (List.mem_singleton.mpr rfl) (hok (.error s!"{b.batch.path}: {e}"))
      | none =>
          have hempty := h.isEmpty_iff hpos
          unfold produceRows
          split
          · next he => exact ⟨[], [], rfl, .nil, by simp [hempty.mp he]⟩
          · next he =>
              exact ⟨[b.batch], [group], rfl, .cons ⟨fun hnil => he (hempty.mpr hnil), h⟩ .nil,
                by simp⟩
  | cons row rows ih =>
      unfold produceRows at hok ⊢
      cases hadd : b.add c opts header row with
      | error e =>
          rw [hadd] at hok
          exact absurd (List.mem_singleton.mpr rfl) (hok e)
      | ok b' =>
          simp only [hadd] at hok ⊢
          obtain ⟨hholds, hsource, hpath, hcolumns'⟩ := Building.add_ok h hcolumns hadd
          split
          · next hfull =>
              simp only [if_pos hfull] at hok
              obtain ⟨batches, groups, hmessages, hgroups, hflat⟩ :=
                ih (holds_new b'.batch.source b'.batch.path header) rfl
                  fun e he => hok e (List.mem_cons_of_mem _ he)
              refine ⟨b'.batch :: batches, _ :: groups, by rw [hmessages, List.map_cons],
                .cons ⟨by simp, hholds⟩ hgroups, ?_⟩
              rw [List.flatten_cons, hflat]
              simp [Building.new, hsource, hpath]
          · next hfull =>
              simp only [if_neg hfull] at hok
              obtain ⟨batches, groups, hmessages, hgroups, hflat⟩ :=
                ih hholds (hcolumns'.trans hcolumns) hok
              refine ⟨batches, groups, hmessages, hgroups, ?_⟩
              rw [hflat, hsource, hpath]
              simp

/-- What is claimed of a list without an error: it is one of batches, each with its group of data
rows. -/
def Partition {ε : Type} (c : Conversions F T) (opts : HeaderOptions)
    (messages : List (Except ε Batch)) (rows : List DataRow) : Prop :=
  ∃ batches groups, messages = List.map Except.ok batches ∧
    List.Forall₂ (fun batch group => group ≠ [] ∧ Batch.Holds c opts batch group) batches groups ∧
    groups.flatten = rows

/-- No message has no row. -/
theorem Partition.nil {ε : Type} : Partition (ε := ε) c opts [] [] := ⟨[], [], rfl, .nil, rfl⟩

/-- Messages behind messages have the rows behind the rows. -/
theorem Partition.append {ε : Type} {messages messages' : List (Except ε Batch)}
    {rows rows' : List DataRow}
    (h : Partition c opts messages rows) (h' : Partition c opts messages' rows') :
    Partition c opts (messages ++ messages') (rows ++ rows') := by
  obtain ⟨batches, groups, rfl, hgroups, rfl⟩ := h
  obtain ⟨batches', groups', rfl, hgroups', rfl⟩ := h'
  exact ⟨batches ++ batches', groups ++ groups', by simp, List.rel_append hgroups hgroups', by simp⟩

/-- The extra columns of the batches add up to those of the rows. -/
theorem Partition.extra {ε : Type} {messages : List (Except ε Batch)} {rows : List DataRow}
    (h : Partition c opts messages rows) :
    ∃ batches : List Batch, messages = batches.map Except.ok ∧
      (batches.map Batch.extraColumns).sum = (rows.map (DataRow.extra opts)).sum := by
  obtain ⟨batches, groups, rfl, hgroups, rfl⟩ := h
  refine ⟨batches, rfl, ?_⟩
  induction hgroups with
  | nil => rfl
  | cons hbatch _ ih =>
      rw [List.map_cons, List.sum_cons, List.flatten_cons, List.map_append, List.sum_append, ih,
        hbatch.2.extra]

/-- Without an error the batches of a file have its rows, each once and in order. -/
theorem produceFile_partition (source : Nat) (src : Source) (fileIndex : Nat) (file : SourceFile)
    (hok : ∀ e, .error e ∉ produceFile c opts source src fileIndex file) :
    Partition c opts (produceFile c opts source src fileIndex file)
      (fileRows opts source src fileIndex file) := by
  unfold produceFile at hok ⊢
  unfold fileRows
  cases hcontents : file.contents with
  | error e =>
      rw [hcontents] at hok
      exact absurd (List.mem_singleton.mpr rfl) (hok (.error e))
  | ok contents =>
      obtain ⟨rows, error⟩ := contents
      rw [hcontents] at hok
      obtain ⟨batches, groups, hmessages, hgroups, hflat⟩ :=
        produceRows_groups (holds_new source file.path src.header) rfl hok
      exact ⟨batches, groups, hmessages, hgroups, by simpa [Building.new] using hflat⟩

/-- So have the batches of the files of a source. -/
theorem produceFiles_partition (source : Nat) (src : Source) (files : List SourceFile)
    (fileIndex : Nat) (hok : ∀ e, .error e ∉ produceFiles c opts source src fileIndex files) :
    Partition c opts (produceFiles c opts source src fileIndex files)
      (filesRows opts source src fileIndex files) := by
  induction files generalizing fileIndex with
  | nil => exact .nil
  | cons file files ih =>
      simp only [produceFiles] at hok ⊢
      split at hok
      · next hany =>
          obtain ⟨m, hm, he⟩ := List.any_eq_true.mp hany
          cases m with
          | error e => exact absurd hm (hok e)
          | ok batch => cases he
      · next hany =>
          rw [if_neg hany]
          exact (produceFile_partition source src fileIndex file fun e he =>
              hok e (List.mem_append_left _ he)).append
            (ih (fileIndex + 1) fun e he => hok e (List.mem_append_right _ he))

/-- Everything that `produce_source` does, source after source. -/
def allEffects (c : Conversions F T) (opts : HeaderOptions) (sources : List Source) :
    List (List Effect) :=
  sources.mapIdx (produceSource c opts)

/-- Without an error every data row of every file is in exactly one batch, in order. -/
theorem allEffects_partition (sources : List Source)
    (hok : ∀ e, .error e ∉ (allEffects c opts sources).flatten) :
    Partition c opts (allEffects c opts sources).flatten (dataRows opts sources) := by
  have hfrom (offset : Nat) (srcs : List Source)
      (hok : ∀ e, .error e ∉
        (srcs.mapIdx fun i src => produceSource c opts (i + offset) src).flatten) :
      Partition c opts (srcs.mapIdx fun i src => produceSource c opts (i + offset) src).flatten
        (srcs.mapIdx fun i src => filesRows opts (i + offset) src 0 src.files).flatten := by
    induction srcs generalizing offset with
    | nil => exact .nil
    | cons src srcs ih =>
        simp only [List.mapIdx_cons, List.flatten_cons, Nat.zero_add, Nat.add_right_comm _ 1,
          Nat.add_assoc _ offset 1] at hok ⊢
        exact (produceFiles_partition offset src src.files 0 fun e he =>
            hok e (List.mem_append_left _ he)).append
          (ih (offset + 1) fun e he => hok e (List.mem_append_right _ he))
  simpa [allEffects, dataRows] using hfrom 0 sources hok

end Velr.Import
