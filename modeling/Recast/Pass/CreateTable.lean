import Recast.Draft

/-!
# CREATE TABLE

The entries between the parentheses are taken one by one: columns are declared in the target's
types, keys become constraints of the table or indexes that are created after it, and what follows
the closing parenthesis is dropped. Definitions teach the catalog; ALTER TABLE does nothing else.
-/

namespace Recast

namespace CreateTable

/-! ### Types and options of a column -/

def enumType (members : Text) : Text :=
  if ColumnClass.isIntegral members then "smallint" else "varchar(255)"

/-- The text `out` with the enumeration that starts at offset `n` of `t` replaced. The place is the
one that it has in `t`, of which `out` is the outcome of replacements further back. -/
def replaceEnum (t masked out : Text) (n : Nat) : Except Fault Text :=
  if (masked.before n).getLast?.any isNameChar then .ok out
  else
    match Nesting.closing? masked (n + 4) with
    | none => .ok out
    | some close =>
      if !out.isBoundary n then .error ⟨n⟩
      else if !out.isBoundary (close + 1) then .error ⟨close + 1⟩
      else .ok (out.splice ⟨n, close + 1⟩ (enumType (t.slice ⟨n + 5, close⟩)))

/-- The column definition with its enumerations replaced, the last one first. -/
def replaceEnums (t : Text) : Except Fault Text :=
  let masked := Literal.mask t
  (Keyword.occurrences masked "enum(").reverse.foldlM (replaceEnum t masked) t

/-- The definition without the words PRIMARY KEY and the blanks before them, if it has them. -/
def dropPrimary? (t : Text) : Option Text := do
  let s ← Keyword.findPhrase? (Literal.mask t) Definition.primaryWords 0
  return Text.trimEnd (t.before s.start) ++ t.after s.stop

def autoIncrement? (c : Cursor) : Option (Edit × Cursor) := do
  guard (!c.afterWord)
  let d ← c.word? "AUTO_INCREMENT"
  guard (!d.beforeWord)
  return (⟨c.spanTo d, "IDENTITY(1,1)"⟩, d)

/-- Past the place of a column at the end of its definition, which is dropped. -/
def afterColumn? (c : Cursor) : Option (Edit × Cursor) := do
  let d ← (← (← c.blanks?).word? "AFTER").blanks?
  let e := (← d.some? (!isBlank ·)).blanks
  guard e.atEnd
  return (⟨c.spanTo e, []⟩, e)

/-- Past blanks, digits and blanks in parentheses. -/
def width? (c : Cursor) : Option Cursor := do
  (← (← c.blanks.sign? '(').blanks.digits?).blanks.sign? ')'

def integerTypes : List Text := ["tinyint", "smallint", "mediumint", "bigint", "int", "integer"]

/-- Past a type of whole numbers with a display width, which is dropped. -/
def integerWidth? (c : Cursor) : Option (Edit × Cursor) := do
  guard (!c.afterWord)
  integerTypes.findSome? fun name => do
    let d ← c.word? name
    let e ← width? d
    return (⟨d.spanTo e, []⟩, e)

/-- Past UNSIGNED or ZEROFILL with the blanks before it, which is dropped. -/
def unsigned? (c : Cursor) : Option (Edit × Cursor) := do
  let d := c.blanks
  guard (!d.afterWord)
  let e ← d.oneOf? ["UNSIGNED", "ZEROFILL"]
  guard (!e.beforeWord)
  return (⟨c.spanTo e, []⟩, e)

/-- Past the name of the option for a character set. -/
def characterWords? (c : Cursor) : Option Cursor :=
  let spaced : Option Cursor := do (← (← c.word? "CHARACTER").blanks?).word? "SET"
  spaced <|> c.word? "CHARSET"

/-- Past a character set with the blanks before it, which is dropped. -/
def characterSet? (c : Cursor) : Option (Edit × Cursor) := do
  let d := c.blanks
  guard (!d.afterWord)
  let defaulted : Option Cursor := do characterWords? (← (← d.word? "DEFAULT").blanks?)
  let e ← defaulted <|> characterWords? d
  let f ← (e.blanks.skipSign '=').blanks.some? isWordChar
  return (⟨c.spanTo f, []⟩, f)

def textTypes : List Text := ["tinytext", "mediumtext", "longtext", "text"]

/-- The type at the start of a definition, if it is text without bound; the span is the type's. -/
def unbounded? (c : Cursor) : Option Span :=
  textTypes.findSome? fun name => do
    let d ← c.word? name
    guard (!d.beforeWord)
    return c.spanTo d

/-- The type at the start of a definition, if it is text with a bound. -/
def bounded? (c : Cursor) : Option Span := do return c.spanTo (← width? (← c.word? "varchar"))

/-- The definition with a collation for the text type at its start, unless it names one. -/
def collate (collation t : Text) : Text :=
  let masked := Literal.mask t
  let c := (Cursor.start masked).blanks
  let suffix : Text :=
    if (Keyword.find? masked "COLLATE" 0).isSome then [] else " COLLATE " ++ collation
  match unbounded? c, bounded? c with
  | some s, _ => t.splice s ("TEXT" ++ suffix)
  | none, some s => t.splice s (t.slice s ++ suffix)
  | none, none => t

/-- The default that stands for no date. -/
def zeroDefault : Text := "'0000-00-00 00:00:00'"

/-- The type and the options of a column, enumerations and keys apart. -/
def options (settings : Settings) (t : Text) : Text :=
  let t := Edit.replaceClauses t autoIncrement?
  let t := Edit.replaceClauses t afterColumn?
  let t := Edit.replaceClauses t integerWidth?
  let t := Edit.replaceClauses t unsigned?
  let t := t.replaceWord zeroDefault "getdate()"
  let t := Edit.replaceClauses t characterSet?
  collate settings.collation t

/-! ### Columns -/

/-- A definition cut behind a quoted name, up to the mark that closes it. -/
def splitQuoted (opening close : Char) (t : Text) : Text × Text :=
  match t.dropWhile (· != close) with
  | _ :: rest => (opening :: t.takeWhile (· != close) ++ [close], rest)
  | [] => (opening :: t, [])

/-- The name of a column, marks included, and the rest of its definition. -/
def splitName : Text → Text × Text
  | '[' :: t => splitQuoted '[' ']' t
  | '\x60' :: t => splitQuoted '\x60' '\x60' t
  | '"' :: t => splitQuoted '"' '"' t
  | t => (t.takeWhile (!isBlank ·), t.dropWhile (!isBlank ·))

def bracket (settings : Settings) (name : Text) : Text :=
  if settings.isReserved name then '[' :: name ++ [']'] else name

/-- The definition of a column, and its name if it is declared the primary key. -/
def column (settings : Settings) (entry : Text) : Except Fault (Text × Option Text) := do
  let (token, rest) := splitName entry
  let name := token.unquote
  let rest ← replaceEnums rest
  let key := dropPrimary? rest
  let rest := Text.trim (options settings (key.getD rest))
  let token := if settings.isReserved name then bracket settings name else token
  return (if rest.isEmpty then token else token ++ ' ' :: rest, key.map fun _ => name)

/-! ### Entries -/

/-- What an entry declares. -/
inductive Entry where
  | column
  | primaryKey
  | uniqueKey
  | index
  /-- A kind of key that the target does not have. -/
  | dropped
  /-- A constraint that can stay as it is. -/
  | verbatim
deriving DecidableEq, Repr

/-- What an entry declares, by its first word. -/
def Entry.ofText (entry : Text) : Entry :=
  let starts (word : Text) : Bool := Keyword.isAt entry word 0
  if (Keyword.leading? entry Definition.primaryWords).isSome then .primaryKey
  else if starts "UNIQUE" then .uniqueKey
  else if starts "KEY" || starts "INDEX" then .index
  else if starts "FULLTEXT" || starts "SPATIAL" then .dropped
  else if starts "CONSTRAINT" || starts "FOREIGN" || starts "CHECK" then .verbatim
  else .column

structure Body where
  columns : List Text := []
  primary : List Text := []
  uniques : List (List Text) := []
  indexes : List (List Text) := []
  verbatim : List Text := []
  /-- Whether a constraint that stays is a primary key. -/
  verbatimKey : Bool := false
deriving DecidableEq, Repr

def Body.add (settings : Settings) (b : Body) (entry : Text) : Except Fault Body :=
  match Entry.ofText entry with
  | .primaryKey => .ok { b with primary := Definition.keyColumns entry }
  | .uniqueKey => .ok { b with uniques := b.uniques ++ [Definition.keyColumns entry] }
  | .index => .ok { b with indexes := b.indexes ++ [Definition.keyColumns entry] }
  | .dropped => .ok b
  | .verbatim =>
    let isKey := (Keyword.findPhrase? entry Definition.primaryWords 0).isSome
    .ok { b with verbatim := b.verbatim ++ [entry], verbatimKey := b.verbatimKey || isKey }
  | .column => do
    let (definition, key) ← column settings entry
    return { b with
      columns := b.columns ++ [definition]
      primary := (key.map fun name => [name]).getD b.primary }

/-! ### The statement -/

def keyName (table : Text) (columns : List Text) : Text := table ++ '_' :: Text.join ['_'] columns

def columnList (settings : Settings) (columns : List Text) : Text :=
  Text.join [','] (columns.map (bracket settings))

def isKept (settings : Settings) (columns : List Text) : Bool :=
  !columns.isEmpty && !columns.any settings.isNonUnique

/-- Where the table and its primary key are stored. -/
def filegroup (settings : Settings) : Text := if settings.azure then [] else " ON [PRIMARY]"

def primaryConstraint (settings : Settings) (table : Text) (columns : List Text) : List Text :=
  if columns.isEmpty then []
  else
    [("CONSTRAINT [" : Text) ++ keyName table columns ++ "] PRIMARY KEY CLUSTERED ("
      ++ columnList settings columns ++ ") WITH (IGNORE_DUP_KEY = OFF)" ++ filegroup settings]

def uniqueConstraint (settings : Settings) (table : Text) (columns : List Text) : Text :=
  "CONSTRAINT [" ++ keyName table columns ++ "] UNIQUE NONCLUSTERED ("
    ++ columnList settings columns ++ ")"

def createIndex (settings : Settings) (table : Text) (columns : List Text) : Text :=
  "CREATE " ++ (if settings.azure then "CLUSTERED" else "NONCLUSTERED") ++ " INDEX "
    ++ keyName table columns ++ " ON " ++ table ++ "(" ++ columnList settings columns ++ ")"

def Body.statement (settings : Settings) (table : Text) (b : Body) : Text :=
  let uniques := (b.uniques.filter (isKept settings)).map (uniqueConstraint settings table)
  let entries := b.columns ++ primaryConstraint settings table b.primary ++ uniques ++ b.verbatim
  let place := if b.verbatimKey || !b.primary.isEmpty then filegroup settings else []
  "CREATE TABLE " ++ table ++ " (\n  " ++ Text.join ",\n  " entries ++ "\n)" ++ place ++ ";"

/-- Whether what stands between CREATE and TABLE is nothing or TEMPORARY. -/
def isPlain (masked : Text) (tableWord : Nat) : Except Fault Bool :=
  let start := min 6 tableWord
  if masked.isBoundary start then
    let words := Text.trim (masked.slice ⟨start, tableWord⟩)
    .ok (words.isEmpty || words.same "TEMPORARY")
  else .error ⟨start⟩

/-- The name of the table, and the text between its parentheses. -/
def header? (t masked : Text) (tableWord : Nat) : Option (Text × Text) := do
  let (table, stop) ← Definition.tableName? t (tableWord + 5)
  let opening ← Text.findFrom? (· == '(') stop (masked.after stop)
  guard (masked.slice ⟨stop, opening⟩).isBlankText
  let close ← Nesting.closing? masked opening
  return (table, t.slice ⟨opening + 1, close⟩)

/-- The table that a statement creates, and the text between its parentheses. -/
def definition? (t : Text) : Except Fault (Option (Text × Text)) :=
  let masked := Literal.mask t
  match Keyword.find? masked "TABLE" 0 with
  | none => .ok none
  | some n => do return if ← isPlain masked n then header? t masked n else none

def create (settings : Settings) (d : Draft) : Except Fault Draft := do
  match ← definition? d.text with
  | none => return d
  | some (table, list) =>
    let entries := ((Nesting.parts list ',').map Text.trim).filter fun e => !e.isEmpty
    let body ← entries.foldlM (Body.add settings) {}
    let indexes := (body.indexes.filter (isKept settings)).map (createIndex settings table)
    return { d with
      text := body.statement settings table
      following := d.following ++ indexes.map fun sql => ⟨sql, .onSuccess⟩
      catalog := d.catalog.learn d.text }

def apply (settings : Settings) (d : Draft) : Except Fault Draft :=
  match d.kind with
  | .create => create settings d
  | .alter => .ok { d with catalog := d.catalog.learn d.text }
  | _ => .ok d

end CreateTable

end Recast
