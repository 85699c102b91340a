import Recast.Arguments
import Recast.Report
import Recast.SettingsFile

/-!
# The command line

`Invocation.run` is what a run prints, given the contents of the files. The settings come first,
then the schema files, then the task.
-/

namespace Recast

/-- The files of a run: their contents by name, or why they cannot be read. -/
abbrev Files := Text → Except Text Text

inductive Failure where
  /-- What was being done, and the reasons, from the outermost to the innermost. -/
  | reasons (chain : List Text)
  /-- A settings file is malformed; what was being done. -/
  | malformedSettings (doing : Text)
  | fault (f : Fault)
deriving DecidableEq, Repr

def Failure.message : Failure → Text
  | .reasons chain => "Error: " ++ Text.join ": " chain
  | .malformedSettings doing => "Error: " ++ doing ++ ": Invalid config file"
  | .fault f => "cut inside a character at byte " ++ Text.ofNat f.offset

namespace Invocation

def loadSettings (files : Files) (doing file : Text) : Except Failure Settings :=
  match files file with
  | .error reason => .error (.reasons [doing, "IO error: " ++ reason, reason])
  | .ok t =>
    match Settings.read t with
    | .ok s => .ok s
    | .error .malformed => .error (.malformedSettings doing)
    | .error (.invalid i) => .error (.reasons [doing, i.text])

/-- The settings of a run: from the file that is named, or from the one at the usual place if there
is one. -/
def settingsOf (i : Invocation) (files : Files) (usual : Option Text) : Except Failure Settings :=
  match i.settings, usual with
  | some file, _ => loadSettings files ("loading config from " ++ file) file
  | none, some file => loadSettings files "loading default config" file
  | none, none => .ok {}

def readFile (files : Files) (file : Text) : Except Failure Text :=
  match files file with
  | .ok t => .ok t
  | .error reason => .error (.reasons ["reading " ++ file, reason])

def paramOf (serialized : Bool) (value : Text) : Param :=
  if serialized then .blob value
  else
    match Number.readSigned? value, Binary64.read? value with
    | some n, _ => .int n
    | none, some x => .float x
    | none, none => if value = ("NULL" : Text) then .null else .text value

def statementOf (i : Invocation) (t : Text) : Statement :=
  let s := (Statement.ofMarked t).bindAll (i.bindings.map (paramOf i.serialized))
  { s with serialized := s.serialized || i.serialized }

def outcomeOf (i : Invocation) (context : Context) (catalog : Catalog) (t : Text) :
    Except Failure Outcome :=
  match convert context catalog (i.statementOf t) i.previous with
  | .ok (o, _) => .ok o
  | .error f => .error (.fault f)

/-- The statements of a script, one after another on a machine that writes them down. -/
def replay (s : Session) (script : Text) : Except Fault (List Text) := do
  let texts := ((Nesting.parts script ';').map Text.trim).filter fun t => !t.isEmpty
  let (_, m) ← texts.foldlM (fun (s, m) t => do
    let (s, m, _) ← s.query DryRun.run m (Statement.ofMarked t)
    return (s, m)) (s, ({} : DryRun))
  return m.statements

def layout (i : Invocation) : Format := i.format.getD .text

def perform (i : Invocation) (files : Files) (context : Context) (catalog : Catalog) :
    Except Failure Text :=
  match i.task, i.statement with
  | some (.explain t), _ => do
    return Report.explanation (i.statementOf t) (← i.outcomeOf context catalog t)
  | some .schema, _ =>
    .ok (match i.layout with
      | .json => Report.line (Json.list (catalog.listing.map Report.tableJson)).pretty
      | .text => Report.tablesText catalog.listing)
  | some .passes, _ => .ok Report.passesText
  | some (.replay file), _ => do
    let script ← readFile files file
    match replay { context, catalog } script with
    | .error f => .error (.fault f)
    | .ok statements =>
      return match i.layout with
        | .json => Report.line (Json.texts statements).pretty
        | .text => Report.replayText statements
  | none, some t => do
    let o ← i.outcomeOf context catalog t
    return match i.layout with
      | .json => Report.line (Report.outcomeJson o).pretty
      | .text => Report.outcomeText o
  | none, none => .ok Report.greeting

/-- What a run prints. The settings file at the usual place is given if there is one. -/
def run (i : Invocation) (files : Files) (usual : Option Text) (clock : Clock) :
    Except Failure Text := do
  let settings ← i.settingsOf files usual
  let scripts ← i.schemas.mapM (readFile files)
  let catalog := settings.register (scripts.foldl Catalog.learnScript {})
  i.perform files ⟨settings, clock⟩ catalog

def files (i : Invocation) (usual : Option Text) : List Text :=
  let script := match i.task with
    | some (.replay file) => [file]
    | _ => []
  (i.settings <|> usual).toList ++ i.schemas ++ script

end Invocation

end Recast
