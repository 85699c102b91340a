import Recast.Alias
import Recast.Draft

/-!
# Function calls

Calls that the target spells differently: date arithmetic, IF over date arithmetic, and the
functions of the current time.

Date arithmetic and IF may be nested, so these calls are replaced from the last one to the first:
what stands inside a call is settled before the call itself.
-/

namespace Recast

namespace Functions

/-- The offsets of calls: occurrences of `name` with no name character before them. -/
def calls (masked name : Text) : List Nat :=
  (Keyword.occurrences masked name).filter fun n => !(masked.before n).getLast?.any isNameChar

def descending (l : List Nat) : List Nat := sortedBy (fun a b => b ≤ a) l

/-- The arguments of the call whose parenthesis opens at an offset, and where it closes. -/
def arguments? (t masked : Text) (opening : Nat) : Option (List Text × Nat) := do
  let close ← Nesting.closing? masked opening
  return (Nesting.parts (t.slice ⟨opening + 1, close⟩) ',', close)

/-! ### Date arithmetic -/

/-- Whether a call adds an interval or subtracts it. -/
inductive Direction where
  | add
  | subtract
deriving DecidableEq, Repr

def Direction.call : Direction → Text
  | .add => "DATE_ADD("
  | .subtract => "DATE_SUB("

structure Interval where
  /-- Digits, with a minus sign before them or without. -/
  amount : Text
  unit : Text
deriving DecidableEq, Repr

/-- `INTERVAL 3 DAY`, the amount in single quotes or not. -/
def interval? (t : Text) : Option Interval := do
  let c ← (← (Cursor.start t).word? "INTERVAL").blanks?
  let c := (c.skipSign '\'').blanks
  let d ← (c.skipSign '-').blanks.digits?
  let e := d.blanks
  let unit ← match e.sign? '\'' with
    | some f => f.blanks?
    | none => d.blanks?
  let stop ← unit.some? isFoldedLetter
  guard stop.atEnd
  return { amount := (t.slice (c.spanTo d)).filter (!isBlank ·), unit :=
    t.slice (unit.spanTo stop) }

def Interval.signed (i : Interval) : Direction → Text
  | .add => i.amount
  | .subtract =>
    match i.amount with
    | '-' :: r => r
    | r => '-' :: r

/-- The call at an offset in the target's words. -/
def dateCall? (t : Text) (direction : Direction) (n : Nat) : Option Text := do
  let (args, close) ← arguments? t (Literal.mask t) (n + 8)
  match args with
  | [date, interval] =>
    let i ← interval? interval.trim
    return t.splice ⟨n, close + 1⟩ ("DATEADD(" ++ i.unit.upper ++ ", " ++ i.signed direction
      ++ ", " ++ date.trim ++ ")")
  | _ => none

def dateArithmetic (t : Text) : Text :=
  let masked := Literal.mask t
  let found := [Direction.add, Direction.subtract].flatMap fun d =>
    (calls masked d.call).map fun n => (n, d)
  (sortedBy (fun a b => b.1 ≤ a.1) found).foldl
    (fun t call => (dateCall? t call.2 call.1).getD t) t

/-! ### Conditionals -/

/-- The call of IF at an offset as a CASE, if it tests a sum of dates. -/
def caseCall? (t : Text) (n : Nat) : Option Text := do
  let masked := Literal.mask t
  let opening ← Keyword.findWord? masked "(" n
  let (args, close) ← arguments? t masked opening
  match args with
  | [condition, yes, no] =>
    let _ ← Keyword.findWord? (Literal.mask condition) "DATEADD(" 0
    return t.splice ⟨n, close + 1⟩ ("(CASE WHEN " ++ condition.trim ++ " THEN " ++ yes.trim
      ++ " ELSE " ++ no.trim ++ " END)")
  | _ => none

def conditionals (t : Text) : Text :=
  let masked := Literal.mask t
  (descending (calls masked "IF(" ++ calls masked "IF (")).foldl
    (fun t n => (caseCall? t n).getD t) t

/-! ### The current time -/

/-- Past a parenthesis with what is in it up to the first closing one; with it the span inside. -/
def enclosed? (c : Cursor) : Option (Span × Cursor) := do
  let d ← c.blanks.sign? '('
  let e := d.skipWhile (· != ')')
  return (d.spanTo e, ← e.sign? ')')

def now : Text := "getdate()"

def unixTime? (c : Cursor) : Option (Edit × Cursor) := do
  guard (!c.afterWord)
  let (_, d) ← enclosed? (← c.oneOf? ["from_unixtime", "unix_timestamp"])
  return (⟨c.spanTo d, now⟩, d)

def nowCall? (c : Cursor) : Option (Edit × Cursor) := do
  guard (!c.afterWord)
  let d ← (← c.word? "NOW").blanks.sign? '('
  let d ← d.blanks.sign? ')'
  return (⟨c.spanTo d, now⟩, d)

def dayOfMonth? (t : Text) (c : Cursor) : Option (Edit × Cursor) := do
  guard (!c.afterWord)
  let (arg, d) ← enclosed? (← c.word? "dayofmonth")
  return (⟨c.spanTo d, "DATEPART(DD, " ++ Text.trim (t.slice arg) ++ ")"⟩, d)

/-- The pass over functions of the current time. A DAYOFMONTH in a statement without aliases is
given one, put before the first FROM. -/
def currentTime (t : Text) : Text :=
  let t := Edit.replaceClauses (Edit.replaceClauses t unixTime?) nowCall?
  let dated := Edit.replaceClauses t (dayOfMonth? t)
  if dated = t || !(Alias.all dated).isEmpty then dated
  else
    match Keyword.findTop? (Literal.mask dated) ["FROM"] 0 with
    | some s => dated.insertAt s.start "as dom "
    | none => dated

end Functions

end Recast
