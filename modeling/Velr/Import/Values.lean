import Velr.Import.Header

/-!
# Values

`ValueType::parse_value`, `scalar` and `point` of `import/header.rs`, and the columns that
`append_cells` reads with them. The parsers of `velr_types` and of the standard library's floats,
and the clock, are parameters, and so are the types of what they return.
-/

namespace Velr.Import

open Csv
open IdMap (Failure)
open Record (Value)

/-- `PointValue` -/
structure PointValue (F : Type) where
  srid : Nat
  x : F
  y : F
  z : Option F

/-- `PropertyValue`, without lists. -/
inductive Scalar (F T : Type) where
  | string (value : String)
  | bool (value : Bool)
  | integer (value : Int64)
  | float (value : F)
  | date (value : T)
  | localTime (value : T)
  | zonedTime (value : T)
  | localDateTime (value : T)
  | zonedDateTime (value : T)
  | duration (value : T)
  | point (value : PointValue F)

/-- `ListValue` -/
inductive ListValue (F T : Type) where
  | string (values : List (Option String))
  | bool (values : List (Option Bool))
  | int64 (values : List (Option Int64))
  | float64 (values : List (Option F))
  | generic (values : List (Scalar F T))

/-- `PropertyValue` -/
inductive PropertyValue (F T : Type) where
  | scalar (value : Scalar F T)
  | list (value : ListValue F T)

/-- What values are parsed with. -/
structure Parsers (F T : Type) where
  /-- `parse::<f64>` -/
  f64 : String → Option F
  /-- `parse::<f32>`, as an `f64` -/
  f32 : String → Option F
  isFinite : F → Bool
  /-- `(-90.0..=90.0).contains` -/
  isLatitude : F → Bool
  date : String → Except String T
  localTime : String → Except String T
  zonedTime : String → Except String T
  localDateTime : String → Except String T
  zonedDateTime : String → Except String T
  duration : String → Except String T
  /-- The seconds and nanoseconds since the epoch. -/
  now : Except String (Int64 × UInt32)
  fromEpoch : Int64 → UInt32 → Except String T
  withNamedZoneSameInstant : T → String → Except String T
  /-- `datetime.date()` of a time with a zone -/
  dateOf : T → T
  fromDateAndTime : T → T → Except String T
  inNamedZone : T → String → Except String T
  /-- `ZonedTimeValue::new`, with the offset of a time with a zone -/
  withOffsetOf : T → T → T
  /-- `encode_import_value` -/
  encode : PropertyValue F T → Except String Value

/-- `ParsedValue` -/
inductive ParsedValue where
  | text (value : String)
  | canonical (value : Value)

/-- A result of code that does not panic. -/
def external {α : Type} (x : Except String α) : Except (Failure String) α := x.mapError .error

/-! ## Numbers and zones -/

/-- `encode_utf16().count()` -/
def utf16Length (text : String) : Nat :=
  (text.toList.map fun c => if c.toNat < 0x10000 then 1 else 2).sum

/-- `parse::<u32>` -/
def parseU32 (text : String) : Option Nat :=
  let digits :=
    match text.toList with
    | '+' :: digits => digits
    | digits => digits
  if digits.isEmpty || !digits.all Char.isDigit then none
  else
    let value := Nat.ofDigitChars 10 digits 0
    if value < 2 ^ 32 then some value else none

/-- `ValueType::integer`, with the panic of its `expect`. -/
def ValueType.checkedInteger (type : ValueType) (text : String) (normalized : Bool) :
    Except (Failure String) Int64 :=
  if (parseI64 (trim text)).isSome ∧ type.integerRange.isNone then .error .panic
  else external (type.integer text normalized)

/-- `has_time_offset` -/
def hasTimeOffset (text : List Char) : Bool :=
  text.getLast? = some 'Z' ∨ '+' ∈ text ∨ (StrSlice.sliceFrom text 1).any ('-' ∈ ·)

/-- Whether a zone is an offset. -/
def isOffset (zone : List Char) : Bool :=
  zone = ['Z'] ∨ zone.head? = some '+' ∨ zone.head? = some '-'

section
variable {F T : Type} (p : Parsers F T)

/-- `zoned_time`, where the zone has a name. -/
def namedZoneTime (time zone : String) : Except (Failure String) T := do
  let (seconds, nanoseconds) ← external p.now
  let current ← external (p.fromEpoch seconds nanoseconds)
  let current ← external (p.withNamedZoneSameInstant current zone)
  let time ← external (p.localTime time)
  let datetime ← external (p.fromDateAndTime (p.dateOf current) time)
  let datetime ← external (p.inNamedZone datetime zone)
  .ok (p.withOffsetOf time datetime)

/-- `zoned_time` -/
def zonedTime (text : String) (defaultZone : String) : Except (Failure String) T := do
  let (time, explicitZone) ←
    match splitOnce '[' text.toList with
    | some (time, zone) =>
        match stripSuffix ']' zone with
        | some zone => .ok (time, some zone)
        | none => invalid "invalid time zone suffix"
    | none => .ok (text.toList, none)
  if hasTimeOffset time then external (p.zonedTime (.ofList time))
  else
    let zone := explicitZone.getD defaultZone.toList
    if isOffset zone then external (p.zonedTime (.ofList (time ++ zone)))
    else namedZoneTime p (.ofList time) (.ofList zone)

/-- `scalar`: the text of a `datetime` with its zone. -/
def datetimeText (text : List Char) (zone : List Char) : List Char :=
  if '[' ∈ text ∨ (splitOnce 'T' text).any (hasTimeOffset ·.2) then text
  else if isOffset zone then text ++ zone
  else text ++ '[' :: zone ++ [']']

/-! ## Points -/

/-- `point`: the text between the braces. -/
def pointInner (text : String) : Option (List Char) :=
  (stripPrefix '{' (trim text).toList).bind (stripSuffix '}')

/-- `BTreeMap::extend` -/
def extend (values : List (String × String)) (entries : List (String × String)) :
    List (String × String) :=
  entries ++ values

/-- `point`: a coordinate. -/
def coordinate (values : List (String × String)) (a b : String) : Except (Failure String) F :=
  match (values.lookup a).or (values.lookup b) with
  | none => invalid s!"point is missing {a}"
  | some text =>
      match p.f64 text with
      | some value => .ok value
      | none => invalid s!"invalid point coordinate {a}"

/-- `point`: the third coordinate. -/
def thirdCoordinate (values : List (String × String)) : Except (Failure String) (Option F) :=
  match (values.lookup "z").or (values.lookup "height") with
  | none => .ok none
  | some text =>
      match p.f64 text with
      | some value => .ok (some value)
      | none => invalid "invalid point z/height"

/-- `point`: the reference system. -/
def pointSrid (values : List (String × String)) (geographic third : Bool) :
    Except (Failure String) Nat :=
  match values.lookup "srid" with
  | some srid =>
      match parseU32 srid with
      | some srid => .ok srid
      | none => invalid "invalid point SRID"
  | none =>
      match values.lookup "crs" with
      | some crs =>
          match String.ofList (crs.toList.map Char.toLower) with
          | "wgs-84" => .ok 4326
          | "wgs-84-3d" => .ok 4979
          | "cartesian" => .ok 7203
          | "cartesian-3d" => .ok 9157
          | _ => invalid s!"unknown point CRS {crs}"
      | none =>
          .ok (match geographic, third with
            | true, false => 4326
            | true, true => 4979
            | false, false => 7203
            | false, true => 9157)

/-- `point` -/
def point (text : String) (defaults : List (String × String)) :
    Except (Failure String) (PointValue F) :=
  match pointInner text with
  | none => invalid "point requires a Cypher coordinate map"
  | some inner => do
      let values := extend defaults (← map inner)
      let geographic := (values.lookup "latitude").isSome ∨ (values.lookup "longitude").isSome
      let x ← coordinate p values "x" "longitude"
      let y ← coordinate p values "y" "latitude"
      let z ← thirdCoordinate p values
      let srid ← pointSrid values geographic z.isSome
      if srid ∉ [4326, 4979, 7203, 9157] then invalid s!"unsupported Neo4j point SRID {srid}"
      else if decide (srid ∈ [4979, 9157]) ≠ z.isSome then
        invalid "point dimensionality does not match CRS"
      else if srid ∈ [4326, 4979] ∧ ¬p.isLatitude y then
        invalid "point latitude must be between -90 and 90"
      else if ¬p.isFinite x ∨ ¬p.isFinite y ∨ z.any (!p.isFinite ·) then
        invalid "point coordinates must be finite"
      else .ok ⟨srid, x, y, z⟩

/-! ## Cells -/

/-- `ValueType::scalar` -/
def ValueType.scalar (type : ValueType) (text : String) (normalized : Bool) :
    Except (Failure String) (Scalar F T) :=
  let orInvalid (value : Option F) : Except (Failure String) (Scalar F T) :=
    match value with
    | some value => .ok (.float value)
    | none => invalid s!"invalid {type.name} value '{text}'"
  let zone := (type.options.lookup "timezone").getD "Z"
  match type.name with
  | "string" => .ok (.string text)
  | "char" =>
      if normalized ∨ utf16Length text = 1 then .ok (.string text)
      else invalid s!"invalid {type.name} value '{text}'"
  | "boolean" => .ok (.bool (trim text == "true"))
  | "byte" | "short" | "int" | "long" => (type.checkedInteger text normalized).map .integer
  | "float" => orInvalid (if normalized then p.f64 (trim text) else p.f32 (trim text))
  | "double" => orInvalid (p.f64 (trim text))
  | "date" => external ((p.date text).map .date)
  | "localtime" => external ((p.localTime text).map .localTime)
  | "localdatetime" => external ((p.localDateTime text).map .localDateTime)
  | "time" => (zonedTime p text zone).map .zonedTime
  | "datetime" =>
      external ((p.zonedDateTime (.ofList (datetimeText text.toList zone.toList))).map
        .zonedDateTime)
  | "duration" => external ((p.duration text).map .duration)
  | "point" => (point p text type.options).map .point
  | _ => .error .panic

/-- `parse_value`: the elements of an array, which have the type of its name. -/
def listOf (name : String) (elements : List (Scalar F T)) :
    Except (Failure String) (ListValue F T) :=
  match name with
  | "string" | "char" => do
      let values ← elements.mapM fun
        | .string value => .ok (some value)
        | _ => .error .panic
      .ok (.string values)
  | "boolean" => do
      let values ← elements.mapM fun
        | .bool value => .ok (some value)
        | _ => .error .panic
      .ok (.bool values)
  | "byte" | "short" | "int" | "long" => do
      let values ← elements.mapM fun
        | .integer value => .ok (some value)
        | _ => .error .panic
      .ok (.int64 values)
  | "float" | "double" => do
      let values ← elements.mapM fun
        | .float value => .ok (some value)
        | _ => .error .panic
      .ok (.float64 values)
  | _ => .ok (.generic elements)

variable (opts : HeaderOptions)

/-- The elements of an array's text. -/
def arrayParts (type : ValueType) (text : String) : List String :=
  (text.toList.splitOn opts.arrayDelimiter).map fun part =>
    if opts.trimStrings && type.name == "string" then trim (.ofList part) else .ofList part

/-- `ValueType::parse_value` -/
def ValueType.parseValue (type : ValueType) (cell : Cell) : Except (Failure String) ParsedValue :=
  let text := cellText opts.importOptions cell
  let stringType := type.name == "string" || (opts.normalizeTypes && type.name == "char")
  if text.isEmpty &&
      (type.array || !stringType || !cell.quoted || opts.ignoreEmptyStrings) then
    .ok (.canonical .null)
  else if !type.array && stringType then .ok (.text text)
  else if !type.array && type.integerRange.isSome then
    (type.checkedInteger text opts.normalizeTypes).map fun value => .canonical (.integer value)
  else if !type.array && type.name == "char" then
    if utf16Length text ≠ 1 then invalid s!"invalid char value '{text}'" else .ok (.text text)
  else if type.array then do
    let elements ← (arrayParts opts type text).mapM fun part => type.scalar p part false
    let list ← listOf type.name elements
    external ((p.encode (.list list)).map .canonical)
  else do
    let value ← type.scalar p text opts.normalizeTypes
    external ((p.encode (.scalar value)).map .canonical)

/-- `append_cells`: an id column. -/
def ValueType.parseId (type : ValueType) (cell : Cell) : Except (Failure String) ParsedValue :=
  let text := cellText opts.importOptions cell
  if text.isEmpty && (type.name != "string" || !cell.quoted || opts.ignoreEmptyStrings) then
    .ok (.canonical .null)
  else if type.name == "string" then .ok (.text text)
  else
    match type.checkedInteger text false with
    | .ok value => .ok (.canonical (.integer value))
    | .error (.error e) => invalid s!"invalid import ID: {e}"
    | .error .panic => .error .panic

/-- `append_cells`: a label column. -/
def parseLabels (cell : Cell) : Except (Failure String) ParsedValue :=
  if cell.text.isEmpty then .ok (.canonical .null)
  else
    let parts := (cell.text.toList.splitOn opts.arrayDelimiter).map String.ofList
    let labels := (parts.filter fun s => !s.isEmpty).map fun s =>
      some (if opts.trimStrings then trim s else s)
    external ((p.encode (.list (.string labels))).map .canonical)

/-- `append_cells`: a relationship type column. -/
def parseType (cell : Cell) : ParsedValue :=
  let text := cellText opts.importOptions cell
  if text.isEmpty && (!cell.quoted || opts.ignoreEmptyStrings) then .canonical .null
  else .text text

/-- `append_cells`: a cell in a column. -/
def Column.parseCell (column : Column) (cell : Cell) : Except (Failure String) ParsedValue :=
  match column.kind with
  | .ignore => .ok (.canonical .null)
  | .property type => type.parseValue p opts cell
  | .id type | .start type | .stop type => type.parseId opts cell
  | .label => parseLabels p opts cell
  | .type => .ok (parseType opts cell)

end

end Velr.Import
