import Recast.Alias
import Recast.Draft
import Recast.Insertion

/-!
# Identity columns

The server numbers the rows of a table in its identity column. It takes a number given in an INSERT
only while IDENTITY_INSERT is on for the table, and it never changes one: an UPDATE that would is
made as a copy of the row under the new number and a deletion of the old one. What is switched on
before the statement is switched off after it, come what may.
-/

namespace Recast

namespace Identity

/-- The statement that lets numbers be given for a table, or no longer. -/
def toggle (table : Text) (on : Bool) : Text :=
  "SET IDENTITY_INSERT " ++ table ++ (if on then " ON" else " OFF")

/-- The pass over statements that insert: the switch is turned around one that gives numbers. -/
def aroundInsert (d : Draft) : Draft :=
  let given : Option Text := do
    guard (d.kind == .insert)
    let i ← Insertion.ofText? d.text
    let identity ← d.catalog.identity? i.table
    guard (i.columns.any fun c => c.same identity)
    return i.table
  match given with
  | some table => (d.precede (toggle table true)).follow (toggle table false) .always
  | none => d

/-! ### Updates -/

/-- An update of one column to a number where a column has a number. -/
structure Renumbering where
  table : Text
  setColumn : Text
  target : Text
  whereColumn : Text
  source : Text
deriving DecidableEq, Repr

/-- Past a name; with it the name without brackets. -/
def name? (t : Text) (c : Cursor) : Option (Text × Cursor) := do
  let d ← c.some? isBracketedName
  return (Text.unquote (t.slice (c.spanTo d)), d)

/-- Past an equals sign and a number; with them the number. -/
def equalsNumber? (t : Text) (c : Cursor) : Option (Text × Cursor) := do
  let d := (← c.blanks.sign? '=').blanks
  let e ← d.digits?
  return (t.slice (d.spanTo e), e)

/-- `UPDATE t SET a = 5 WHERE b = 3`, with an optional semicolon. -/
def renumbering? (t : Text) : Option Renumbering := do
  let c ← (← (Cursor.start t).word? "UPDATE").blanks?
  let (table, c) ← name? t c
  let c ← (← (← c.blanks?).word? "SET").blanks?
  let (setColumn, c) ← name? t c
  let (target, c) ← equalsNumber? t c
  let c ← (← (← c.blanks?).word? "WHERE").blanks?
  let (whereColumn, c) ← name? t c
  let (source, c) ← equalsNumber? t c
  guard (c.blanks.skipSign ';').atEnd
  return { table, setColumn, target, whereColumn, source }

/-- The draft in which a change of an identity number is a copy and a deletion. -/
def moveRow? (d : Draft) : Option Draft := do
  guard (d.kind == .update)
  let r ← renumbering? d.text
  let identity ← d.catalog.identity? r.table
  guard (r.setColumn.same identity && r.whereColumn.same identity)
  let columns := (← d.catalog.table? r.table).columnNames
  guard (columns.any fun c => c.same identity)
  let selected := columns.map fun c => if c.same identity then r.target else c
  let place : Text := " " ++ r.table ++ " WHERE " ++ identity ++ " = " ++ r.source
  let copy : Text := "INSERT INTO " ++ r.table ++ " (" ++ Text.join "," columns ++ ") SELECT "
    ++ Text.join "," selected ++ " FROM" ++ place
  let d := { d with verify := false, text := copy }
  return ((d.precede (toggle r.table true)).follow ("DELETE" ++ place) .onSuccess).follow
    (toggle r.table false) .always

def ofUpdate (d : Draft) : Draft := (moveRow? d).getD d

end Identity

end Recast
