import Mathlib.Data.List.DropRight
import Velr.Csv.Reader
import Velr.Record.Codec

/-!
# Columns

The options, the types and the kinds of columns that `import/header.rs` and `import/mod.rs` share,
and the text and the integer of a cell.
-/

namespace Velr.Import

open Csv Utf8 Record

/-- The options that parsing a source uses. -/
structure Options extends Csv.Options where
  arrayDelimiter : Char
  ignoreEmptyStrings : Bool
  ignoreExtraColumns : Bool
  autoHeaders : Bool
  skipBadLogging : Bool

/-- `ValueType` -/
structure ValueType where
  name : String
  array : Bool
  options : List (String × String)
  integerRange : Option (Int × Int)

/-- `Kind` -/
inductive Kind where
  | id (type : ValueType)
  | start (type : ValueType)
  | stop (type : ValueType)
  | label
  | type
  | ignore
  | property (type : ValueType)

/-- `Column` -/
structure Column where
  kind : Kind
  name : String

/-! ## Cells -/

/-- `char::is_whitespace` -/
def isWhitespace (c : Char) : Bool :=
  let n := c.toNat
  (9 ≤ n && n ≤ 13) || n == 0x20 || n == 0x85 || n == 0xa0 || n == 0x1680 ||
    (0x2000 ≤ n && n ≤ 0x200a) || n == 0x2028 || n == 0x2029 || n == 0x202f || n == 0x205f ||
    n == 0x3000

/-- `str::trim` -/
def trim (text : String) : String :=
  .ofList ((text.toList.dropWhile isWhitespace).rdropWhile isWhitespace)

/-- `str::parse::<i64>` -/
def parseI64 (text : String) : Option Int64 :=
  let (negative, digits) :=
    match text.toList with
    | '-' :: digits => (true, digits)
    | '+' :: digits => (false, digits)
    | digits => (false, digits)
  if digits.isEmpty || !digits.all Char.isDigit then none
  else
    let magnitude : Int := digits.foldl (fun n c => 10 * n + (c.toNat - '0'.toNat : Nat)) 0
    let value := if negative then -magnitude else magnitude
    if -(2 ^ 63) ≤ value ∧ value < 2 ^ 63 then some (.ofInt value) else none

/-- `ValueType::integer`; `parse` gives every integer type its range. -/
def ValueType.integer (type : ValueType) (text : String) (normalized : Bool) :
    Except String Int64 :=
  match parseI64 (trim text), type.integerRange with
  | some value, some (minimum, maximum) =>
      if !normalized && (value.toInt < minimum || maximum < value.toInt) then
        .error s!"invalid {type.name} value '{text}'"
      else .ok value
  | _, _ => .error s!"invalid {type.name} value '{text}'"

/-- The text of a cell, trimmed where it is not quoted. -/
def cellText (opts : Options) (cell : Cell) : String :=
  if opts.trimStrings && !cell.quoted then trim cell.text else cell.text

end Velr.Import
