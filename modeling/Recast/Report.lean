import Recast.Json
import Recast.Session

/-!
# Reports

What the command line prints about an outcome, a catalog, the passes and a replay: lines of text, or
JSON.
-/

namespace Recast

namespace Report

def line (t : Text) : Text := t ++ ['\n']

def padded (width : Nat) (t : Text) : Text := t ++ List.replicate (width - t.length) ' '

def aligned (width : Nat) (t : Text) : Text := List.replicate (width - t.length) ' ' ++ t

/-! ### Outcomes -/

def policyTag : Policy → Text
  | .always => "after"
  | .onSuccess => "on success"

/-- The line about a window; the end of the window is computed in 64 bits. -/
def windowLine (w : Window) : Text :=
  line ("slice rows " ++ Text.ofNat w.skip ++ ".." ++ Text.ofNat ((w.skip + w.count) % UInt64.size))

def outcomeText (o : Outcome) : Text :=
  o.preceding.flatMap (fun sql => line ("before " ++ sql))
    ++ (o.main.filter fun m => !m.isEmpty).flatMap line
    ++ o.following.flatMap (fun f => line (policyTag f.policy ++ ' ' :: f.sql))
    ++ o.window.toList.flatMap windowLine

def followingJson (f : Following) : Json :=
  .object [("sql", .text f.sql), ("policy", .text f.policy.name)]

def windowJson (w : Window) : Json := .object [("from", .num w.skip), ("count", .num w.count)]

def recordJson (r : Record) : Json :=
  .object [("pass", .text r.pass.name), ("before", .text r.before), ("after", .text r.after)]

def outcomeJson (o : Outcome) : Json :=
  .object [("kind", .text o.kind.name.lower), ("preceding", .texts o.preceding),
    ("main", .texts o.main), ("following", .list (o.following.map followingJson)),
    ("slice", .ofOption windowJson o.window), ("trace", .list (o.trace.map recordJson))]

/-- The lines about what a pass changed. -/
def recordText (r : Record) : Text :=
  line ("  • " ++ r.pass.name) ++ line ("    - " ++ r.before) ++ line ("    + " ++ r.after)

/-- A statement, every pass that changed it, and the outcome. -/
def explanation (s : Statement) (o : Outcome) : Text :=
  line "Translation" ++ line [] ++ line ("Input: " ++ s.text.trim ++ " (" ++ s.kind.name ++ ")")
    ++ line []
    ++ (if o.trace.isEmpty then line "No pass changed the statement." else o.trace.flatMap
      recordText)
    ++ line [] ++ line "Output:" ++ outcomeText o

/-! ### The catalog -/

def flags (t : Table) (c : Column) : List Text :=
  let marks : List (Bool × Text) := [(t.primaryKey.contains c.name, "pk"),
    (t.unique.contains c.name, "unique"), (c.identity, "identity")]
  (marks.filter (·.1)).map (·.2)

def columnLine (t : Table) (c : Column) : Text :=
  line ("  " ++ padded 24 c.name ++ ' ' :: padded 20 c.sqlType ++ ' ' :: padded 8 c.holds.name
    ++ ' ' :: Text.join [','] (flags t c))

def tableText (t : Table) : Text := line t.name ++ t.columns.flatMap (columnLine t)

def tablesText (tables : List Table) : Text :=
  if tables.isEmpty then line "(no tables; pass --schema FILE)" else tables.flatMap tableText

def columnJson (c : Column) : Json :=
  .object [("name", .text c.name),
    ("meta", .object [("sql_type", .text c.sqlType), ("class", .text c.holds.name),
      ("nullable", .bool c.nullable), ("identity", .bool c.identity)])]

def tableJson (t : Table) : Json :=
  .object [("name", .text t.name), ("columns", .list (t.columns.map columnJson)),
    ("primary_key", .texts t.primaryKey), ("unique", .texts t.unique)]

/-! ### Passes and replays -/

def passLine (number : Nat) (p : Pass) : Text :=
  line (aligned 3 (Text.ofNat number) ++ "  " ++ padded 22 p.name ++ ' ' :: p.description)

def passesText : Text :=
  line "Translation passes" ++ line []
    ++ (Pass.all.zipIdx 1).flatMap fun (p, number) => passLine number p

def replayText (statements : List Text) : Text :=
  statements.flatMap (fun sql => line (sql ++ [';'])) ++ line []
    ++ line (Text.ofNat statements.length ++ " statement(s)")

def greeting : Text :=
  line "sqlshift: MySQL statements on SQL Server" ++ line []
    ++ line "Usage: sqlshift <STATEMENT> [OPTIONS]" ++ line [] ++ line "Try: sqlshift --help"

def version : Text := line "sqlshift 0.1.0"

def help : Text := line "Rewrite MySQL statements into T-SQL

Usage: sqlshift [OPTIONS] [STATEMENT] [COMMAND]

Commands:
  explain  Translate a statement and show every pass that changed it
  schema   Print the tables learned from the --schema files
  passes   List the translation passes in pipeline order
  replay   Run a file of statements through one session, recording what would execute
  help     Print this message

Options:
  -b, --bind <BIND>          Parameter bindings, in placeholder order
      --serialized           Treat the bindings as serialized blobs
  -s, --schema <SCHEMA>      DDL files whose CREATE TABLE statements seed the schema map
      --previous <PREVIOUS>  The statement translated before this one on the same connection
  -c, --config <CONFIG>      Config file (TOML) [env: SQLSHIFT_CONFIG=]
  -f, --format <FORMAT>      Output format [default: text] [possible values: text, json]
  -v, --verbose              Debug logging
  -h, --help                 Print help
  -V, --version              Print version"

end Report

end Recast
