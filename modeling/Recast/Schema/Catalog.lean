import Recast.Schema.Definition
import Recast.Text.Order

/-!
# The catalog

The tables learned from the definitions seen so far, by name in lower case, and the identity columns
named in the settings. `learn?` takes in one statement.
-/

namespace Recast

structure ColumnRef where
  table : Text
  column : Text
deriving DecidableEq, Repr

/-- Order by table, then by column. -/
def ColumnRef.le (a b : ColumnRef) : Bool :=
  if a.table = b.table then a.column.le b.column else a.table.le b.table

/-- Everything known about the tables of a database. -/
structure Catalog where
  tables : List (Text × Table) := []
  identities : List (Text × Text) := []
deriving DecidableEq, Repr

namespace Catalog

def lookUp (key : Text) (l : List (Text × α)) : Option α := (l.find? fun e => e.1 == key).map (·.2)

/-- The list with an entry under a key, in place of the one that was there. -/
def store (key : Text) (a : α) (l : List (Text × α)) : List (Text × α) :=
  replaceFirst (fun e => e.1 == key) (key, a) l

def table? (c : Catalog) (name : Text) : Option Table := lookUp name.lower c.tables

def column? (c : Catalog) (table column : Text) : Option Column := do
  (← c.table? table).column? column

/-- The catalog with a table, in place of the one of the same name. -/
def publish (c : Catalog) (t : Table) : Catalog :=
  { c with tables := store t.name.lower t c.tables }

/-- The catalog with a table changed; a table that is not known starts out empty. -/
def update (c : Catalog) (name : Text) (change : Table → Table) : Catalog :=
  { c with tables := store name.lower (change ((c.table? name).getD { name })) c.tables }

/-- What a CREATE TABLE or ALTER TABLE statement teaches: the name of its table as it writes it, and
the catalog that knows it. -/
def learn? (c : Catalog) (statement : Text) : Option (Text × Catalog) :=
  let t := Literal.normalizeEscapes statement.trim
  if t.startsWith "CREATE" then do
    let table ← Definition.table? t
    return (table.name, c.publish table)
  else if t.startsWith "ALTER" then do
    let (name, changes) ← Definition.changes? t
    return (name, c.update name fun table => changes.foldl Definition.Change.apply table)
  else none

def learn (c : Catalog) (statement : Text) : Catalog :=
  ((c.learn? statement).map (·.2)).getD c

def learnScript (c : Catalog) (script : Text) : Catalog :=
  ((Nesting.parts script ';').map Text.trim).foldl learn c

def listing (c : Catalog) : List Table :=
  sortedBy (fun a b => a.name.le b.name) (c.tables.map (·.2))

/-- The columns of a class, by table and name, each once. -/
def ofClass (c : Catalog) (k : ColumnClass) : List ColumnRef :=
  let refs := c.tables.flatMap fun e =>
    (e.2.columns.filter (·.holds == k)).map fun col => (⟨e.2.name, col.name⟩ : ColumnRef)
  (sortedBy ColumnRef.le refs).foldr
    (fun a rest => if rest.head? = some a then rest else a :: rest) []

/-- The catalog with an identity column that no statement declares. -/
def registerIdentity (c : Catalog) (table column : Text) : Catalog :=
  { c with identities := store table.lower column c.identities }

/-- The identity column of a table: the registered one, or else the declared one. -/
def identity? (c : Catalog) (table : Text) : Option Text :=
  match lookUp table.lower c.identities with
  | some column => some column
  | none => (c.table? table).bind Table.identity?

def size (c : Catalog) : Nat := c.tables.length

end Catalog

end Recast
