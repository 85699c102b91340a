import Recast.Keyword
import Recast.Schema.Table

/-!
# Reading table definitions

What CREATE TABLE and ALTER TABLE declare. A definition is cut into entries at the commas outside
parentheses; entries that are not understood declare nothing.
-/

namespace Recast

namespace Definition

/-! ### Names -/

/-- A name up to the mark that closes it, and what follows; the name is not empty. -/
def enclosed? (close : Char) (t : Text) : Option (Text × Text) :=
  let name := t.takeWhile (· != close)
  match t.dropWhile (· != close) with
  | _ :: rest => if name.isEmpty then none else some (name, rest)
  | [] => none

/-- A leading run of characters with a property, and what follows; the run is not empty. -/
def run? (p : Char → Bool) (t : Text) : Option (Text × Text) :=
  let name := t.takeWhile p
  if name.isEmpty then none else some (name, t.dropWhile p)

/-- A name in back quotes, square brackets or double quotes, or a bare one, and what follows. -/
def name? : Text → Option (Text × Text)
  | '\x60' :: t => enclosed? '\x60' t
  | '[' :: t => enclosed? ']' t
  | '"' :: t => enclosed? '"' t
  | t => run? (fun c => isNameChar c || c == '$') t

/-- The characters of a table name with its marks. -/
def isTableChar (c : Char) : Bool := isNameChar c || isNameMark c || c == '.' || c == '$'

/-- Past a phrase that only blanks separate from the offset. -/
def skipPhrase (masked : Text) (offset : Nat) (words : List Text) : Nat :=
  match Keyword.findPhrase? masked words offset with
  | some s => if (masked.slice ⟨offset, s.start⟩).isBlankText then s.stop else offset
  | none => offset

/-- The existence conditions that may stand before a table name. -/
def existenceWords : List (List Text) := [["IF", "NOT", "EXISTS"], ["IF", "EXISTS"]]

/-- The table name behind an offset and behind an existence condition, and where it ends. -/
def tableName? (t : Text) (offset : Nat) : Option (Text × Nat) :=
  let masked := Literal.mask t
  let behind := existenceWords.foldl (skipPhrase masked) offset
  let c := (Cursor.ofOffset t behind).skipWhile isAsciiBlank
  let d := c.skipWhile isTableChar
  let name := Text.unquote (t.slice (c.spanTo d))
  if name.isEmpty then none else some (name, d.offset)

/-! ### Columns and keys -/

def isGap (c : Char) : Bool := c == ' ' || c == '\t' || c == '\n' || c == '\r'

/-- What stands in parentheses, if anything does, and what follows. -/
def arguments (t : Text) : Option Text × Text :=
  match t with
  | '(' :: r =>
    match r.dropWhile (· != ')') with
    | _ :: rest => (some (r.takeWhile (· != ')')), rest)
    | [] => (none, t)
  | _ => (none, t)

/-- The words that start an entry that is no column. -/
def entryWords : List Text :=
  ["PRIMARY", "UNIQUE", "KEY", "INDEX", "FULLTEXT", "SPATIAL", "CONSTRAINT", "FOREIGN", "CHECK"]

/-- The column that an entry declares. -/
def column? (entry : Text) : Option Column := do
  let t := entry.trim
  guard (!entryWords.any fun w => Keyword.isAt t w 0)
  let (name, t) ← name? (t.dropWhile isGap)
  let (_, t) ← run? isGap t
  let (typeName, t) ← run? isNameChar t
  let (args, t) := arguments (t.dropWhile isGap)
  let options := Text.upper t
  return {
    name
    sqlType := typeName.lower
    holds := ColumnClass.ofType typeName args
    nullable := !options.has "NOT NULL"
    identity := options.has "AUTO_INCREMENT" || options.has "IDENTITY" }

/-- The columns named in the first parentheses of a key entry, without the lengths behind them. -/
def keyColumns (entry : Text) : List Text :=
  let masked := Literal.mask entry
  match masked.find? (· == '(') with
  | none => []
  | some opening =>
    match Nesting.closing? masked opening with
    | none => []
    | some close =>
      let names := (Nesting.parts (entry.slice ⟨opening + 1, close⟩) ',').map fun c =>
        Text.unquote ((Text.trim c).takeWhile (· != '('))
      names.filter fun n => !n.isEmpty

/-- The column of a key over one column. -/
def singleKey (entry : Text) : List Text :=
  match keyColumns entry with
  | [c] => [c]
  | _ => []

/-! ### CREATE TABLE -/

def primaryWords : List Text := ["PRIMARY", "KEY"]

/-- The table with what one entry declares. -/
def addEntry (table : Table) (entry : Text) : Table :=
  if (Keyword.leading? entry primaryWords).isSome then
    { table with primaryKey := keyColumns entry }
  else if Keyword.isAt entry "UNIQUE" 0 then
    { table with unique := table.unique ++ singleKey entry }
  else if Keyword.isAt entry "CONSTRAINT" 0 then
    match Keyword.findPhrase? entry primaryWords 0, Keyword.find? entry "UNIQUE" 0 with
    | some s, _ => { table with primaryKey := keyColumns (entry.after s.stop) }
    | none, some n => { table with unique := table.unique ++ singleKey (entry.after n) }
    | none, none => table
  else
    match column? entry with
    | none => table
    | some c =>
      let table := if (Keyword.findPhrase? entry primaryWords 0).isSome
        then { table with primaryKey := [c.name] } else table
      table.put c

/-- The name behind the word TABLE, and where it ends. -/
def named? (t : Text) : Option (Text × Nat) := do
  let n ← Keyword.find? (Literal.mask t) "TABLE" 0
  tableName? t (n + 5)

/-- The table that a CREATE TABLE statement declares. -/
def table? (t : Text) : Option Table := do
  let masked := Literal.mask t
  let (name, stop) ← named? t
  let opening ← Text.findFrom? (· == '(') stop (masked.after stop)
  let close ← Nesting.closing? masked opening
  let entries := (Nesting.parts (t.slice ⟨opening + 1, close⟩) ',').map Text.trim
  return entries.foldl addEntry { name }

/-! ### ALTER TABLE -/

/-- What a clause of ALTER TABLE does to a table. -/
inductive Change where
  | put (c : Column)
  | rename (old : Text) (c : Column)
  | drop (name : Text)
deriving DecidableEq, Repr

def Change.apply (table : Table) : Change → Table
  | .put c => table.put c
  | .rename old c => table.rename old c
  | .drop name => table.drop name

/-- The words behind DROP that name no column. -/
def droppedWords : List Text := ["PRIMARY", "INDEX", "KEY", "FOREIGN"]

/-- The change that a clause asks for. -/
def change? (clause : Text) : Option Change := do
  let t := Text.dropEnd (· == ';') clause.trim
  let verb := Text.upper (t.takeWhile (!isBlank ·))
  let rest := Text.trimStart ((t.dropWhile (!isBlank ·)).drop 1)
  let rest := if Keyword.isAt rest "COLUMN" 0 then Text.trimStart (rest.drop 6) else rest
  if verb = ("ADD" : Text) ∨ verb = ("MODIFY" : Text) then
    return .put (← column? rest)
  else if verb = ("CHANGE" : Text) then
    let (old, rest) ← name? rest
    return .rename old (← column? rest)
  else if verb = ("DROP" : Text) then
    let (name, _) ← name? rest
    guard (!droppedWords.any name.same)
    return .drop name
  else none

/-- The table that an ALTER TABLE statement names, and its changes in order. -/
def changes? (t : Text) : Option (Text × List Change) := do
  let (name, stop) ← named? t
  return (name, (Nesting.parts (t.after stop) ',').filterMap change?)

end Definition

end Recast
