import Recast.Alias
import Recast.Draft

/-!
# Commands and quoting

Commands without counterpart are answered from the system tables or dropped. In every other
statement the server's version and last identity are asked for in the target's words, index hints
and DROP TABLE lose what the target does not know, names lose their back quotes, and a leading
COUNT gets a name by which it can be read back.
-/

namespace Recast

namespace General

/-! ### Commands -/

def tableList : Text := "SELECT name FROM SYSOBJECTS WHERE TYPE = 'U' ORDER BY NAME"

/-- What stands for a command, given without blanks and semicolons around it. -/
def command? (t : Text) : Option Text :=
  if t.startsWith "SHOW VARIABLES LIKE 'sql_mode'" || t.startsWith "SET NAMES" then some []
  else if t.same "SHOW TABLES" then some tableList
  else
    match Keyword.leading? t ["SHOW", "TABLES", "LIKE"], Keyword.leading? t ["SHOW", "COLUMNS",
      "FROM"] with
    | some n, _ =>
      some ("SELECT TABLE_NAME FROM INFORMATION_SCHEMA.TABLES WHERE TABLE_NAME LIKE "
        ++ Text.trim (t.after n))
    | none, some n =>
      let table := Text.unquote (Text.strip (· == '\'') (Text.trim (t.after n)))
      some ("SELECT COLUMN_NAME FROM INFORMATION_SCHEMA.COLUMNS WHERE TABLE_NAME = "
        ++ Literal.quote table)
    | none, none => none

/-! ### Index hints -/

/-- The name of an index: one that a column of the table has is preceded by the table's name. -/
def indexName (table : Option Table) (given : Text) : Text :=
  let name := given.unquote
  match table with
  | some t => if (t.column? name).isSome then t.name ++ '_' :: name else name
  | none => name

/-- `t USE INDEX (a, b)` as `t WITH (INDEX(a,b))`. -/
def indexHint? (catalog : Catalog) (t : Text) : Option Text := do
  let masked := Literal.mask t
  let hint ← Keyword.findPhrase? masked ["USE", "INDEX"] 0
  let opening ← Text.findFrom? (· == '(') hint.stop (masked.after hint.stop)
  guard (masked.slice ⟨hint.stop, opening⟩).isBlankText
  let close ← Nesting.closing? masked opening
  let table :=
    ((Text.words (masked.before hint.start)).getLast?.map Text.unquote).bind catalog.table?
  let names := (Nesting.parts (t.slice ⟨opening + 1, close⟩) ',').map (indexName table)
  return t.splice ⟨hint.start, close + 1⟩ ("WITH (INDEX(" ++ Text.join "," names ++ "))")

/-! ### The remaining changes -/

/-- The version query at the start in the target's words. -/
def versionQuery (t : Text) : Text :=
  if t.startsWith "SELECT VERSION()" then "SELECT @@VERSION" ++ t.after 16 else t

/-- DROP TABLE at the start without its existence condition. -/
def dropCondition (t : Text) : Text :=
  match Keyword.leading? t ["DROP", "TABLE", "IF", "EXISTS"] with
  | some n => "DROP TABLE" ++ t.after n
  | none => t

/-- Past SELECT and a COUNT over all rows, with the edit that names the count unless it has a
name. -/
def count? (t : Text) (c : Cursor) : Option (Option Edit × Cursor) := do
  guard (!c.afterWord)
  let d ← (← c.word? "SELECT").blanks?
  let d := (← (← d.word? "COUNT").sign? '(').blanks
  let d ← d.char? fun x => x == '*' || x == '1'
  let d ← d.blanks.sign? ')'
  let named : Option Cursor := do
    let e ← (← d.blanks?).word? "AS"
    guard (!e.beforeWord)
    return e
  match named with
  | some e => return (none, e)
  | none => return (some ⟨c.spanTo d, t.slice (c.spanTo d) ++ " as Computed"⟩, d)

/-- Every leading COUNT without a name given one. -/
def nameCounts (t : Text) : Text :=
  Edit.applyAll t (((Cursor.start (Literal.mask t)).findAll (count? t)).filterMap id)

def apply (catalog : Catalog) (t : Text) : Text :=
  match command? (Text.trimEnd (Text.dropEnd (· == ';') t.trim)) with
  | some command => command
  | none =>
    let t := Edit.replaceAll (versionQuery t) "LAST_INSERT_ID()" "@@IDENTITY"
    let t := dropCondition ((indexHint? catalog t).getD t)
    nameCounts (Edit.replaceAll t ['\x60'] [])

end General

end Recast
