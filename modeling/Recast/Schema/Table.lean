import Recast.Schema.Column

/-!
# Tables

The columns of a table in the order of their declaration, and its keys. Names are compared up to
the case of ASCII letters.
-/

namespace Recast

/-- What is known about a table. -/
structure Table where
  name : Text
  columns : List Column := []
  primaryKey : List Text := []
  /-- The columns with a unique key of their own. -/
  unique : List Text := []
deriving DecidableEq, Repr

/-- Put `new` in place of the first element with a property, or at the end. -/
def replaceFirst (p : α → Bool) (new : α) : List α → List α
  | [] => [new]
  | a :: l => if p a then new :: l else a :: replaceFirst p new l

namespace Table

def column? (t : Table) (name : Text) : Option Column := t.columns.find? fun c => c.name.same name

def columnNames (t : Table) : List Text := t.columns.map (·.name)

def identity? (t : Table) : Option Text := (t.columns.find? (·.identity)).map (·.name)

/-- Whether a column alone identifies a row. -/
def isKey (t : Table) (name : Text) : Bool :=
  (match t.primaryKey with
    | [key] => Text.same key name
    | _ => false)
    || t.unique.any fun u => u.same name

/-- The table with a column in place of the one of the same name, or behind the others. -/
def put (t : Table) (c : Column) : Table :=
  { t with columns := replaceFirst (fun d => d.name.same c.name) c t.columns }

/-- The table with a column in place of the one called `old`; without such a column it is put. -/
def rename (t : Table) (old : Text) (c : Column) : Table :=
  if (t.column? old).isSome then
    { t with columns := replaceFirst (fun d => d.name.same old) c t.columns }
  else t.put c

/-- The table without a column, which leaves the keys as well. -/
def drop (t : Table) (name : Text) : Table :=
  { t with
    columns := t.columns.filter fun c => !c.name.same name
    primaryKey := t.primaryKey.filter fun k => !k.same name
    unique := t.unique.filter fun k => !k.same name }

end Table

end Recast
