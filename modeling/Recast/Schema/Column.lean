import Recast.Nesting
import Recast.Number.Integer

/-!
# Columns

Declared types fall into a few classes (`ColumnClass`); what is done to a column depends on its
class alone. An enumeration counts as integer when all its members are whole numbers.
-/

namespace Recast

/-- What a declared column type holds. -/
inductive ColumnClass where
  /-- Text without bound. -/
  | text
  | date
  | integer
  /-- Text with a bound, and enumerations of strings. -/
  | string
  | decimal
  | binary
  | other
deriving DecidableEq, Repr

namespace ColumnClass

def name : ColumnClass → Text
  | .text => "text"
  | .date => "date"
  | .integer => "integer"
  | .string => "string"
  | .decimal => "decimal"
  | .binary => "binary"
  | .other => "other"

/-- No class has this name; it is kept in lower case. -/
structure UnknownName where
  given : Text
deriving DecidableEq, Repr

def UnknownName.message (e : UnknownName) : Text := "unknown type class '" ++ e.given ++ "'"

/-- The class with a given name; `int` is short for `integer`. -/
def read (t : Text) : Except UnknownName ColumnClass :=
  let given := t.lower
  let all := [text, date, integer, string, decimal, binary, other]
  match all.find? fun k => given == k.name || (k == integer && given == ("int" : Text)) with
  | some k => .ok k
  | none => .error ⟨given⟩

/-- Whether every member of an enumeration is a whole number, in quotes or not. -/
def isIntegral (members : Text) : Bool :=
  (Nesting.parts members ',').all fun m =>
    (Number.readSigned? (Text.trim (Text.strip Literal.isQuote (Text.trim m)))).isSome

/-- The type names of each class but the enumerations. -/
def typeNames : List (ColumnClass × List Text) :=
  [(text, ["text", "tinytext", "mediumtext", "longtext", "ntext"]),
    (date, ["date", "datetime", "datetime2", "timestamp", "time", "year"]),
    (integer, ["int", "integer", "tinyint", "smallint", "mediumint", "bigint", "bit"]),
    (string, ["char", "varchar", "nchar", "nvarchar", "set"]),
    (decimal, ["decimal", "numeric", "float", "double", "real"]),
    (binary, ["blob", "tinyblob", "mediumblob", "longblob", "binary", "varbinary"])]

/-- The class of a type name; `args` is what stands between the parentheses behind it. -/
def ofType (typeName : Text) (args : Option Text) : ColumnClass :=
  let given := typeName.lower
  if given = ("enum" : Text) then if args.any isIntegral then integer else string
  else ((typeNames.find? fun k => k.2.contains given).map (·.1)).getD other

end ColumnClass

structure Column where
  name : Text
  /-- The type name in lower case, without what stands in parentheses. -/
  sqlType : Text
  holds : ColumnClass
  nullable : Bool
  /-- Whether the server numbers the rows in this column. -/
  identity : Bool
deriving DecidableEq, Repr

end Recast
