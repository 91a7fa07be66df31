import Velr.Import.Batch
import Velr.Import.Values

/-!
# Parsing a source into batches

`produce_source` of `import/mod.rs` and `append_cells` of `import/header.rs`. A source is a list of
files with one header; its data rows are converted cell by cell and gathered into batches. A file is
given by what its reader delivers: the error of opening it, or its records and the error that ended
them. What a worker does is the list of its batches, and of the error or the panic that is the last.
-/

namespace Velr.Import

open Csv Utf8 Record
open IdMap (Failure)
open Results

/-- What converting a cell and writing a diagnostic rest on. -/
structure Conversions (F T : Type) extends parsers : Parsers F T where
  /-- The `Debug` form of a string. -/
  debug : String → String

/-- The columns of a `Header`: `Header::parse` refuses a header without cells, and its types are
those of `ValueType::parse`. -/
structure Header where
  columns : List Column
  nonempty : columns ≠ []
  known : ∀ column ∈ columns, KindKnown column.kind

variable {F T : Type}

/-! ## Records -/

/-- `ValueSink` -/
class ValueSink (σ : Type) where
  push : σ → Value → σ

instance : ValueSink BatchValues := ⟨BatchValues.push u32Max⟩

instance : ValueSink (List Value) := ⟨fun values value => values ++ [value]⟩

/-- `ParsedValue::into_owned` -/
def ParsedValue.value : ParsedValue → Value
  | .text value => .text value
  | .canonical value => value

/-- An error with more about its place; a panic has none. -/
def located {α : Type} (place : String → String) :
    Except (Failure String) α → Except (Failure String) α
  | .ok value => .ok value
  | .error (.error e) => invalid (place e)
  | .error .panic => .error .panic

/-- `append_cells`: the columns from `index` on. Cells that are missing are empty. -/
def appendColumns {σ : Type} [ValueSink σ] (c : Conversions F T) (opts : HeaderOptions) :
    List Column → Nat → List Cell → σ → Except (Failure String) σ
  | [], _, _, output => .ok output
  | column :: columns, index, cells, output => do
      let name := if column.name.isEmpty then "anonymous" else column.name
      let parsed ← located (fun e => s!"column {index + 1} ({name}): {e}")
        (column.parseCell c.parsers opts (cells.headD { text := "", quoted := false }))
      appendColumns c opts columns (index + 1) cells.tail (ValueSink.push output parsed.value)

/-- `append_cells` -/
def Header.appendCells {σ : Type} [ValueSink σ] (c : Conversions F T) (opts : HeaderOptions)
    (header : Header) (cells : List Cell) (output : σ) : Except (Failure String) σ :=
  if header.columns.length < cells.length && !opts.ignoreExtraColumns then
    invalid (s!"row has {cells.length} columns but header has {header.columns.length}; " ++
      "use --ignore-extra-columns=true")
  else appendColumns c opts header.columns 0 cells output

/-- `values` -/
def Header.values (c : Conversions F T) (opts : HeaderOptions) (header : Header)
    (cells : List Cell) : Except (Failure String) (List Value) :=
  header.appendCells c opts cells []

/-- Adding its place to an error changes no value. -/
theorem located_eq_ok {α : Type} {place : String → String} {x : Except (Failure String) α}
    {value : α} : located place x = .ok value ↔ x = .ok value := by
  rcases x with (e | _) | value' <;> simp [located, invalid]

/-- Neither does it change a panic. -/
theorem located_eq_panic {α : Type} {place : String → String} {x : Except (Failure String) α} :
    located place x = .error .panic ↔ x = .error .panic := by
  rcases x with (e | _) | value' <;> simp [located, invalid]

/-- Appending the values of a row to a batch appends the same to a list. -/
theorem appendColumns_list (c : Conversions F T) (opts : HeaderOptions) (columns : List Column)
    {index : Nat} {cells : List Cell} {b b' : BatchValues} {vs : List Value}
    (hiter : b.iter = some vs) (h : appendColumns c opts columns index cells b = .ok b')
    (values : List Value) :
    ∃ more, appendColumns c opts columns index cells values = .ok (values ++ more) ∧
      b'.iter = some (vs ++ more) ∧ b'.len = b.len + columns.length := by
  induction columns generalizing index cells b vs values with
  | nil =>
      cases h
      exact ⟨[], by simp [appendColumns], by simpa using hiter, rfl⟩
  | cons column columns ih =>
      simp only [appendColumns] at h ⊢
      obtain ⟨parsed, hparsed, h⟩ := bind_eq_ok_iff.mp h
      obtain ⟨more, hlist, hiter', hlen⟩ :=
        ih (BatchValues.iter_push u32Max hiter parsed.value) h (values ++ [parsed.value])
      refine ⟨parsed.value :: more, bind_eq_ok_iff.mpr ⟨parsed, hparsed, ?_⟩, ?_, ?_⟩
      · simpa [ValueSink.push] using hlist
      · simpa using hiter'
      · rw [hlen, BatchValues.len_push, List.length_cons]
        omega

/-- A record that a batch takes adds its values to the batch, one for each column. -/
theorem Header.appendCells_ok {c : Conversions F T} {opts : HeaderOptions} {header : Header}
    {cells : List Cell} {b b' : BatchValues} {vs : List Value} (hiter : b.iter = some vs)
    (h : header.appendCells c opts cells b = .ok b') :
    ∃ more, header.values c opts cells = .ok more ∧ b'.iter = some (vs ++ more) ∧
      b'.len = b.len + header.columns.length := by
  unfold Header.values
  unfold Header.appendCells at h ⊢
  split at h
  · cases h
  · next hwide =>
      rw [if_neg hwide]
      obtain ⟨more, hlist, hrest⟩ := appendColumns_list c opts header.columns hiter h []
      exact ⟨more, hlist, hrest⟩

/-! ## Batches -/

/-- A file as its reader delivers it. -/
structure SourceFile where
  path : String
  contents : Except String (List Row × Option String)

/-- A source: its files, its header and the header's cells. -/
structure Source where
  files : List SourceFile
  header : Header
  headerCells : List Cell

/-- `Batch` -/
structure Batch where
  source : Nat
  path : String
  firstLine : Nat
  lastLine : Nat
  columns : Nat
  rows : BatchValues
  extraColumns : Nat
  diagnostics : List String

/-- What a worker sends. -/
abbrev Message := Except String Batch

/-- What a worker does: it sends a batch, or ends with an error that it sends, or with a panic. -/
abbrev Effect := Except (Failure String) Batch

/-- The batch under construction, `Batch::diagnostics` with their total length. -/
structure Building where
  batch : Batch
  diagnosticBytes : Nat

/-- The bytes a batch may take. -/
def batchLimit (opts : Options) : Nat :=
  max (64 * 1024) (min (16 * 1024 * 1024) (opts.memoryBytes / 8))

/-- The columns of a record that its header does not have, where they are ignored. -/
def extraColumns (opts : HeaderOptions) (header : Header) (row : Row) : Nat :=
  if opts.ignoreExtraColumns then row.cells.length - header.columns.length else 0

/-- The diagnostics of a record. -/
def diagnostics (c : Conversions F T) (opts : HeaderOptions) (header : Header) (path : String)
    (row : Row) :
    List String :=
  if opts.ignoreExtraColumns && !opts.skipBadLogging then
    (row.cells.drop header.columns.length).mapIdx fun index cell =>
      s!"{path} line {row.line}: ignored extra column {header.columns.length + index + 1} value " ++
        c.debug cell.text
  else []

/-- An empty batch. -/
def Building.new (source : Nat) (path : String) (header : Header) : Building where
  batch :=
    { source, path
      firstLine := 0
      lastLine := 0
      columns := header.columns.length
      rows := .empty
      extraColumns := 0
      diagnostics := [] }
  diagnosticBytes := 0

/-- `produce_source`: one record. -/
def Building.add (c : Conversions F T) (opts : HeaderOptions) (header : Header) (b : Building)
    (row : Row) :
    Except (Failure String) Building := do
  let rows ← located (fun e => s!"{b.batch.path} line {row.line}: {e}")
    (header.appendCells c opts row.cells b.batch.rows)
  let found := diagnostics c opts header b.batch.path row
  .ok
    { batch :=
        { b.batch with
          firstLine := if b.batch.rows.isEmpty then row.line else b.batch.firstLine
          lastLine := row.line
          rows
          extraColumns := b.batch.extraColumns + extraColumns opts header row
          diagnostics := b.batch.diagnostics ++ found }
      diagnosticBytes := b.diagnosticBytes + (found.map fun text => (asBytes text).length).sum }

/-- A batch is sent once it has this many rows or bytes. -/
def Building.isFull (opts : HeaderOptions) (b : Building) : Bool :=
  16384 ≤ b.batch.rows.len / b.batch.columns ||
    batchLimit opts.importOptions ≤ b.batch.rows.byteLen + b.diagnosticBytes

/-- `produce_source`: what is done for the data rows of a file and the error behind them. -/
def produceRows (c : Conversions F T) (opts : HeaderOptions) (header : Header) :
    Building → List Row → Option String → List Effect
  | b, [], none => if b.batch.rows.isEmpty then [] else [.ok b.batch]
  | b, [], some e => [invalid s!"{b.batch.path}: {e}"]
  | b, row :: rows, error =>
      match b.add c opts header row with
      | .error e => [.error e]
      | .ok b =>
          if b.isFull opts then
            .ok b.batch ::
              produceRows c opts header (.new b.batch.source b.batch.path header) rows error
          else produceRows c opts header b rows error

/-- Whether the first record of a file is a header: of the first file it is, of a later one where
`auto_headers` finds the cells of the source's header in it. -/
def isHeader (opts : HeaderOptions) (src : Source) (fileIndex : Nat) (row : Row) : Bool :=
  fileIndex == 0 ||
    (opts.autoHeaders && row.cells.length == src.headerCells.length &&
      (row.cells.zip src.headerCells).all fun (cell, header) => cell.text == header.text)

/-- The records of a file without its header. -/
def dropHeader (opts : HeaderOptions) (src : Source) (fileIndex : Nat) : List Row → List Row
  | [] => []
  | row :: rows => if isHeader opts src fileIndex row then rows else row :: rows

/-- `produce_source`: one file. -/
def produceFile (c : Conversions F T) (opts : HeaderOptions) (source : Nat) (src : Source)
    (fileIndex : Nat)
    (file : SourceFile) : List Effect :=
  match file.contents with
  | .error e => [invalid e]
  | .ok (rows, error) =>
      produceRows c opts src.header (.new source file.path src.header)
        (dropHeader opts src fileIndex rows) error

/-- `produce_source`: the files from `file_index` on, up to the first error or panic. -/
def produceFiles (c : Conversions F T) (opts : HeaderOptions) (source : Nat) (src : Source) :
    Nat → List SourceFile → List Effect
  | _, [] => []
  | fileIndex, file :: files =>
      let effects := produceFile c opts source src fileIndex file
      if effects.any fun e => e matches .error _ then effects
      else effects ++ produceFiles c opts source src (fileIndex + 1) files

/-- `produce_source` and the error its worker sends: everything that the worker does. -/
def produceSource (c : Conversions F T) (opts : HeaderOptions) (source : Nat) (src : Source) :
    List Effect :=
  produceFiles c opts source src 0 src.files

end Velr.Import
