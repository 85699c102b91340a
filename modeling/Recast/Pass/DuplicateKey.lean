import Recast.Alias
import Recast.Draft
import Recast.Insertion

/-!
# ON DUPLICATE KEY UPDATE

The clause is taken off the statement, and for every row an UPDATE follows that runs even when the
INSERT failed on the key. If any part of the clause cannot be resolved, the statement stays as it
is.
-/

namespace Recast

namespace DuplicateKey

/-- `column = expression`. -/
structure Assignment where
  column : Text
  expr : Text
deriving DecidableEq, Repr

def assignment? (item : Text) : Option Assignment := do
  let n ← (Literal.mask item).find? (· == '=')
  return ⟨Text.unquote (item.before n), Text.trim (item.after (n + 1))⟩

/-- Past `VALUES(column)`; with it the span of the column. -/
def valueRef? (c : Cursor) : Option ((Span × Span) × Cursor) := do
  guard (!c.afterWord)
  let d := (← (← c.word? "VALUES").blanks.sign? '(').blanks
  let e ← d.some? isBracketedName
  let f ← e.blanks.sign? ')'
  return ((c.spanTo f, d.spanTo e), f)

/-- An expression with each `VALUES(column)` replaced by the value inserted into the column. -/
def resolve? (columns values : List Text) (expr : Text) : Option Text := do
  let refs := (Cursor.start (Literal.mask expr)).findAll valueRef?
  let edits ← refs.mapM fun (whole, name) => do
    let n ← columns.findIdx? fun c => c.same (Text.unquote (expr.slice name))
    return (⟨whole, ← values[n]?⟩ : Edit)
  return Edit.applyAll expr edits

def update? (table : Text) (columns : List Text) (key : Nat) (assignments : List Assignment)
    (values : List Text) : Option Text := do
  guard (values.length = columns.length)
  let sets ← assignments.mapM fun a => do
    return a.column ++ " = " ++ (← resolve? columns values a.expr)
  return "UPDATE " ++ table ++ " SET " ++ Text.join ", " sets ++ " WHERE " ++ (← columns[key]?)
    ++ " = " ++ (← values[key]?)

/-- The columns of a statement that inserts: those it lists, or else those of the table. -/
def columns? (catalog : Catalog) (i : Insertion) : Option (List Text) :=
  if i.columns.isEmpty then (catalog.table? i.table).map Table.columnNames else some i.columns

/-- The place of the column by which rows are found again: the first that is a key, or the first. -/
def keyIn (catalog : Catalog) (table : Text) (columns : List Text) : Nat :=
  ((catalog.table? table).bind fun t => columns.findIdx? t.isKey).getD 0

/-- The statement without the clause, and the updates. -/
def split? (catalog : Catalog) (t : Text) : Option (Text × List Text) := do
  let clause ← Keyword.findTop? (Literal.mask t) ["ON", "DUPLICATE", "KEY", "UPDATE"] 0
  let head := Text.trimEnd (t.before clause.start)
  let i ← Insertion.ofText? head
  guard (!i.groups.isEmpty)
  let columns ← columns? catalog i
  let items := Nesting.parts (Text.dropEnd (· == ';') (Text.trim (t.after clause.stop))) ','
  let assignments ← items.mapM assignment?
  let updates ← i.groups.mapM fun g =>
    update? i.table columns (keyIn catalog i.table columns) assignments (Insertion.values head g)
  return (head, updates)

def apply (d : Draft) : Draft :=
  match split? d.catalog d.text with
  | some (head, updates) =>
    { d with
      text := head
      following := d.following ++ updates.map fun sql => ⟨sql, .always⟩ }
  | none => d

end DuplicateKey

end Recast
