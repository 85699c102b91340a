import Recast.Conversion

/-!
# Sessions

A session runs statements on a server, one after another. The server is an `Executor`, a machine
that takes one statement at a time and may refuse it. For each statement that is issued, `query`
runs

1. the preceding statements, whose failures do not matter;
2. every main statement that is not blank, also after one has failed;
3. the following statements, after a failure only those that always run.

The first failure of a main statement is the answer; without one it is all the rows in the expected
shape, cut to the window.
-/

namespace Recast

/-- What a statement produced on the server. -/
structure Result where
  rowsAffected : UInt64 := 0
  rows : List Row := []
deriving Repr

/-- Why a statement was refused. -/
inductive Refusal where
  | execution (statement message : Text)
  | settings (message : Text)
  | document (message : Text)
  | io (message : Text)
deriving DecidableEq, Repr

/-- The statement that failed, and why. -/
structure ExecutionError where
  statement : Text
  message : Text
deriving DecidableEq, Repr

def ExecutionError.text (e : ExecutionError) : Text :=
  "Execution error in \x60" ++ e.statement ++ "\x60: " ++ e.message

def Refusal.text : Refusal → Text
  | .execution statement message => ExecutionError.text ⟨statement, message⟩
  | .settings message => "Configuration error: " ++ message
  | .document message => "Invalid config file: " ++ message
  | .io message => "IO error: " ++ message

def Refusal.failure (sql : Text) : Refusal → ExecutionError
  | .execution statement message => ⟨statement, message⟩
  | r => ⟨sql, r.text⟩

/-! ### Executors -/

/-- A machine that runs statements. -/
abbrev Executor (σ : Type u) := σ → Text → σ × Except Refusal Result

/-- The machine after several statements, and its answer to each of them. -/
def Executor.runAll (run : Executor σ) (s : σ) : List Text → σ × List (Text × Except Refusal Result)
  | [] => (s, [])
  | sql :: rest =>
    let (s, answer) := run s sql
    let (s, answers) := runAll run s rest
    (s, (sql, answer) :: answers)

/-- A machine that writes down the statements and hands out prepared results, then empty ones. -/
structure DryRun where
  statements : List Text := []
  responses : List Result := []
deriving Repr

def DryRun.run : Executor DryRun := fun d sql =>
  ({ statements := d.statements ++ [sql], responses := d.responses.tail },
    .ok (d.responses.headD {}))

/-! ### Answers -/

def Result.append (a b : Result) : Result := ⟨a.rowsAffected + b.rowsAffected, a.rows ++ b.rows⟩

def failure? : Text × Except Refusal Result → Option ExecutionError
  | (sql, .error r) => some (r.failure sql)
  | (_, .ok _) => none

/-- All the results in one, or the first failure. -/
def gather (answers : List (Text × Except Refusal Result)) : Except ExecutionError Result :=
  match answers.findSome? failure? with
  | some e => .error e
  | none => .ok ((answers.filterMap fun a => a.2.toOption).foldl Result.append {})

/-! ### Queries -/

/-- What one connection remembers. -/
structure Session where
  context : Context
  catalog : Catalog := {}
  /-- The last main statement that ran. -/
  previous : Option Text := none
deriving DecidableEq, Repr

namespace Session

/-- The statements for a statement, and the session after it if none of them is run. -/
def convert (s : Session) (statement : Statement) : Except Fault (Outcome × Session) := do
  let (outcome, catalog) ← Recast.convert s.context s.catalog statement s.previous
  return (outcome, { s with catalog })

def mainOf (o : Outcome) : List Text := o.main.filter fun m => !m.isBlankText

def followingOf (o : Outcome) (failed : Bool) : List Text :=
  (o.following.filter fun f => !failed || f.policy == .always).map (·.sql)

def execute (run : Executor σ) (m : σ) (s : Session) (o : Outcome) :
    Session × σ × Except ExecutionError Result :=
  let (m, _) := run.runAll m o.preceding
  let (m, answers) := run.runAll m (mainOf o)
  match gather answers with
  | .error e =>
    let (m, _) := run.runAll m (followingOf o true)
    (s, m, .error e)
  | .ok r =>
    let (m, _) := run.runAll m (followingOf o false)
    ({ s with previous := o.lastMain? <|> s.previous }, m,
      .ok { r with rows := Window.apply o.window (r.rows.map Row.normalize) })

def query (run : Executor σ) (m : σ) (s : Session) (statement : Statement) :
    Except Fault (Session × σ × Except ExecutionError Result) := do
  let (outcome, s) ← s.convert statement
  return execute run m s outcome

end Session

end Recast
