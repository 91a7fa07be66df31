import Velr.Common.FirstWins
import Velr.Common.Results
import Velr.Common.StrSlice
import Velr.Common.Whitespace
import Velr.Import.Column
import Velr.Native.Import

/-!
# Headers

`Header::parse` of `import/header.rs`: the cells of a CSV header as columns with their types. A
panic is an outcome of its own. The one slice of the code is in `map`, at the quotes around the
value of an option.
-/

namespace Velr.Import

open Csv
open FirstWins (Map)
open IdMap (Failure)
open Native (ImportIdType ImportPropertyColumn NodeImportSpec RelationshipImportSpec)

deriving instance DecidableEq for ValueType

/-- The options that headers and values use. -/
structure HeaderOptions extends importOptions : Options where
  idType : ImportIdType
  normalizeTypes : Bool
  skipDuplicates : Bool
  skipBadRelationships : Bool

/-- `Source`, as far as a header depends on it. -/
structure HeaderSource where
  labels : List String
  relationshipType : Option String

/-- An error with its message. -/
def invalid {α : Type} (message : String) : Except (Failure String) α := .error (.error message)

/-! ## Text -/

/-- `str::split_once` -/
def splitOnce (c : Char) (text : List Char) : Option (List Char × List Char) :=
  if c ∈ text then some (text.takeWhile (· ≠ c), (text.dropWhile (· ≠ c)).drop 1) else none

/-- `str::strip_prefix` -/
def stripPrefix (c : Char) : List Char → Option (List Char)
  | first :: rest => if first = c then some rest else none
  | [] => none

/-- `str::strip_suffix` -/
def stripSuffix (c : Char) (text : List Char) : Option (List Char) :=
  if text.getLast? = some c then some text.dropLast else none

/-! ## Option maps -/

/-- Whether a text starts and ends with a quote; one character may be both. -/
def isQuoted (quote : Char) (value : List Char) : Bool :=
  value.head? = some quote ∧ value.getLast? = some quote

/-- `map`: the value of an item, without its quotes; `none` where the slice panics. -/
def optionValue (value : List Char) : Option (List Char) :=
  if isQuoted '\'' value ∨ isQuoted '"' value then
    StrSlice.slice value 1 (StrSlice.len value - 1)
  else some value

/-- `map`: the items from one on. A `BTreeMap` is a list of its entries; nothing reads their
order. -/
def mapItems : List (List Char) → List (String × String) →
    Except (Failure String) (List (String × String))
  | [], values => .ok values
  | item :: items, values =>
      match splitOnce ':' item with
      | none => invalid s!"invalid header/map option '{String.ofList item}'"
      | some (k, v) =>
          match optionValue (Whitespace.trim v) with
          | none => .error .panic
          | some value =>
              let key := String.ofList (Whitespace.trim k)
              if (values.lookup key).isSome then invalid s!"duplicate map key {key}"
              else mapItems items (values ++ [(key, .ofList value)])

/-- `map` -/
def map (text : List Char) : Except (Failure String) (List (String × String)) :=
  mapItems (text.splitOn ',') []

/-! ## Types -/

/-- The names of the types. -/
def typeNames : List String :=
  ["string", "char", "byte", "short", "int", "long", "float", "double", "boolean", "date",
    "localtime", "time", "localdatetime", "datetime", "duration", "point"]

/-- The integers of a type. -/
def rangeOf (name : String) : Option (Int × Int) :=
  if name = "byte" then some (-2 ^ 7, 2 ^ 7 - 1)
  else if name = "short" then some (-2 ^ 15, 2 ^ 15 - 1)
  else if name = "int" then some (-2 ^ 31, 2 ^ 31 - 1)
  else if name = "long" then some (-2 ^ 63, 2 ^ 63 - 1)
  else none

/-- `ValueType::parse` -/
def ValueType.parse (name : String) (options : List (String × String)) :
    Except (Failure String) ValueType :=
  let name := name.toList.map Char.toLower
  let (array, name) :=
    match (stripSuffix ']' name).bind (stripSuffix '[') with
    | some name => (true, String.ofList name)
    | none => (false, String.ofList name)
  if name ∉ typeNames then invalid s!"unknown Neo4j CSV property type '{name}'"
  else .ok ⟨name, array, options, rangeOf name⟩

/-- A type that `ValueType::parse` returns. -/
structure ValueType.Known (type : ValueType) : Prop where
  name : type.name ∈ typeNames
  range : type.integerRange = rangeOf type.name

/-- A type of ids. -/
structure ValueType.OfIds (type : ValueType) : Prop where
  name : type.name ∈ ["string", "byte", "short", "int", "long"]
  range : type.integerRange = rangeOf type.name

/-- What a column's kind has of types. -/
def KindKnown : Kind → Prop
  | .id type | .start type | .stop type => type.OfIds
  | .property type => type.Known
  | .label | .type | .ignore => True

/-- `default_id_type` -/
def defaultIdType (opts : HeaderOptions) : Except (Failure String) ValueType :=
  ValueType.parse (if opts.idType = .string then "string" else "long") []

/-! ## Columns -/

/-- A header cell, taken apart. -/
structure HeaderCell where
  text : String
  name : String
  base : String
  group : String
  settings : List (String × String)

/-- `Header::parse`: the options of a column, and what stands in front of them. -/
def headerSettings (text : String) (definition : List Char) :
    Except (Failure String) (List Char × List (String × String)) :=
  match splitOnce '{' definition with
  | some (base, tail) =>
      match stripSuffix '}' tail with
      | some contents => (map contents).map fun settings => (base, settings)
      | none => invalid s!"invalid header options '{text}'"
  | none => .ok (definition, [])

/-- `Header::parse`: the group of a column, and what stands in front of it. -/
def headerGroup (text : String) (base : List Char) :
    Except (Failure String) (List Char × List Char) :=
  match splitOnce '(' base with
  | some (base, tail) =>
      match stripSuffix ')' tail with
      | some group => .ok (base, group)
      | none => invalid s!"invalid ID group '{text}'"
  | none => .ok (base, [])

/-- `Header::parse`: a cell's text. -/
def headerCell (cell : Cell) : Except (Failure String) HeaderCell := do
  let text := trim cell.text
  let (name, definition) := (splitOnce ':' text.toList).getD (text.toList, "string".toList)
  let (base, settings) ← headerSettings text definition
  let (base, group) ← headerGroup text base
  .ok ⟨text, .ofList name, .ofList base, .ofList group, settings⟩

/-- The variables of `Header::parse`. -/
structure Columns where
  columns : List Column
  properties : List ImportPropertyColumn
  names : List String
  ids : List Nat
  starts : List Nat
  ends : List Nat
  labels : List Nat
  typeColumn : Option Nat
  idGroup : Option String
  startGroup : Option String
  endGroup : Option String
  groups : Map String ValueType

/-- `same_group` -/
def sameGroup (current : Option String) (group name : String) :
    Except (Failure String) (Option String) :=
  if current.any (· ≠ group) then invalid s!"all {name} columns must use the same ID group"
  else .ok (some group)

/-- A property column, of a name that no other has. -/
def Columns.addProperty (st : Columns) (index : Nat) (name : String) :
    Except (Failure String) Columns :=
  if name ∈ st.names then invalid s!"duplicate property in header: {name}"
  else .ok { st with
    names := name :: st.names
    properties := st.properties ++ [⟨index, name⟩] }

/-- The property that an id column with a name is as well. -/
def Columns.addIdProperty (opts : HeaderOptions) (st : Columns) (index : Nat) (name : String) :
    Except (Failure String) Columns :=
  if name ≠ "" ∧ opts.idType ≠ .actual then st.addProperty index name else .ok st

/-- The type that an id column declares, or that of its group. -/
def Columns.declaredIdType (opts : HeaderOptions) (c : HeaderCell) (st : Columns) :
    Except (Failure String) ValueType :=
  match c.settings.lookup "id-type" with
  | some override => ValueType.parse override []
  | none =>
      match st.groups.find c.group with
      | some existing => .ok existing
      | none => defaultIdType opts

/-- The type of an id column, which is the one of its group. -/
def Columns.idColumnType (opts : HeaderOptions) (c : HeaderCell) (st : Columns) :
    Except (Failure String) (ValueType × Columns) := do
  let type ← st.declaredIdType opts c
  if type.array ∨ type.name ∉ ["string", "byte", "short", "int", "long"] then
    invalid "ID type must be string or integer"
  else
    match st.groups.find c.group with
    | some existing =>
        if existing ≠ type then invalid s!"inconsistent ID type in group '{c.group}'"
        else .ok (type, st)
    | none => .ok (type, { st with groups := (st.groups.insert c.group type).2 })

/-- The type of an endpoint, which is the one of its group. -/
def Columns.endpointType (opts : HeaderOptions) (c : HeaderCell) (st : Columns) :
    Except (Failure String) ValueType :=
  (defaultIdType opts).map fun type => (st.groups.find c.group).getD type

/-- `Header::parse`: the kind of a column. -/
def Columns.kind (opts : HeaderOptions) (relationship : Bool) (index : Nat) (c : HeaderCell)
    (st : Columns) : Except (Failure String) (Kind × Columns) :=
  match String.ofList (c.base.toList.map Char.toUpper) with
  | "ID" =>
      if relationship then invalid ":ID is only valid in node headers"
      else do
        let idGroup ← sameGroup st.idGroup c.group "ID"
        let (type, st) ← { st with idGroup, ids := st.ids ++ [index] }.idColumnType opts c
        let st ← st.addIdProperty opts index c.name
        .ok (.id type, st)
  | "START_ID" =>
      if ¬relationship then invalid ":START_ID is only valid in relationship headers"
      else do
        let startGroup ← sameGroup st.startGroup c.group "START_ID"
        let type ← st.endpointType opts c
        .ok (.start type, { st with startGroup, starts := st.starts ++ [index] })
  | "END_ID" =>
      if ¬relationship then invalid ":END_ID is only valid in relationship headers"
      else do
        let endGroup ← sameGroup st.endGroup c.group "END_ID"
        let type ← st.endpointType opts c
        .ok (.stop type, { st with endGroup, ends := st.ends ++ [index] })
  | "LABEL" =>
      if relationship then invalid ":LABEL is only valid in node headers"
      else .ok (.label, { st with labels := st.labels ++ [index] })
  | "TYPE" =>
      if ¬relationship then invalid ":TYPE is only valid in relationship headers"
      else if st.typeColumn.isSome then invalid "multiple :TYPE columns"
      else .ok (.type, { st with typeColumn := some index })
  | "IGNORE" => .ok (.ignore, st)
  | _ =>
      if c.name = "" then invalid s!"property name is empty in '{c.text}'"
      else if c.group ≠ "" then invalid "ID groups are only valid for ID columns"
      else do
        let st ← st.addProperty index c.name
        let type ← ValueType.parse c.base c.settings
        .ok (.property type, st)

/-- `Header::parse`: one round of the loop. -/
def Columns.next (opts : HeaderOptions) (relationship : Bool) (index : Nat) (cell : Cell)
    (st : Columns) : Except (Failure String) Columns := do
  let c ← headerCell cell
  let (kind, st) ← st.kind opts relationship index c
  .ok { st with columns := st.columns ++ [⟨kind, c.name⟩] }

/-- `Header::parse`: the loop, from an index on. -/
def columnsFrom (opts : HeaderOptions) (relationship : Bool) :
    Nat → List Cell → Columns → Except (Failure String) Columns
  | _, [], st => .ok st
  | index, cell :: cells, st => do
      let st ← st.next opts relationship index cell
      columnsFrom opts relationship (index + 1) cells st

/-- `Header` -/
structure ParsedHeader where
  columns : List Column
  node : Option NodeImportSpec
  relationship : Option RelationshipImportSpec

/-- `Header::parse`: the specification of the nodes. -/
def Columns.nodeSpec (opts : HeaderOptions) (source : HeaderSource) (st : Columns) :
    NodeImportSpec where
  labels := source.labels
  idColumns := st.ids
  idGroup := st.idGroup.getD ""
  idType :=
    if opts.idType = .actual then .actual
    else if (st.idGroup.bind st.groups.find).any (·.name ≠ "string") then .integer
    else .string
  labelColumns := st.labels
  properties := st.properties
  skipDuplicates := opts.skipDuplicates

/-- `Header::parse`: the specification of the relationships. -/
def Columns.relationshipSpec (opts : HeaderOptions) (source : HeaderSource) (st : Columns) :
    RelationshipImportSpec where
  relationshipType := source.relationshipType
  typeColumn := st.typeColumn
  startColumns := st.starts
  startGroup := st.startGroup.getD ""
  endColumns := st.ends
  endGroup := st.endGroup.getD ""
  idType := opts.idType
  properties := st.properties
  skipBadRelationships := opts.skipBadRelationships

/-- `Header::parse`, behind the loop. -/
def Columns.finish (opts : HeaderOptions) (source : HeaderSource) (relationship : Bool)
    (st : Columns) : Except (Failure String) (ParsedHeader × Map String ValueType) :=
  if [st.ids.length, st.starts.length, st.ends.length].any (1 < ·) ∧ opts.idType ≠ .string then
    invalid "composite IDs require --id-type=STRING"
  else if relationship then
    if st.starts = [] ∨ st.ends = [] then
      invalid "relationship header requires :START_ID and :END_ID"
    else if source.relationshipType = none ∧ st.typeColumn = none then
      invalid "relationship type requires --relationships=TYPE=... or :TYPE header"
    else .ok (⟨st.columns, none, some (st.relationshipSpec opts source)⟩, st.groups)
  else .ok (⟨st.columns, some (st.nodeSpec opts source), none⟩, st.groups)

/-- The variables of `Header::parse` before the loop. -/
def Columns.start (groups : Map String ValueType) : Columns :=
  ⟨[], [], [], [], [], [], [], none, none, none, none, groups⟩

/-- `Header::parse`; the groups as they are afterwards. -/
def ParsedHeader.parse (opts : HeaderOptions) (source : HeaderSource) (relationship : Bool)
    (cells : List Cell) (groups : Map String ValueType) :
    Except (Failure String) (ParsedHeader × Map String ValueType) :=
  if cells.isEmpty then invalid "CSV header is empty"
  else do
    let st ← columnsFrom opts relationship 0 cells (.start groups)
    st.finish opts source relationship

/-- The options of an import, without any set. -/
def plainHeaderOptions : HeaderOptions where
  delimiter := ','
  quote := '"'
  multiline := false
  legacyQuoting := false
  trimStrings := false
  bufferBytes := 4 * 1024 * 1024
  memoryBytes := 512 * 1024 * 1024
  arrayDelimiter := ';'
  ignoreEmptyStrings := false
  ignoreExtraColumns := false
  autoHeaders := false
  skipBadLogging := false
  idType := .string
  normalizeTypes := true
  skipDuplicates := false
  skipBadRelationships := false

end Velr.Import
