import Recast.Schema.Definition
import Recast.Statement

/-!
# INSERT statements

Where the parts of `INSERT INTO t (columns) VALUES (…), (…)` are. The column list may be missing,
and a statement that takes its rows from elsewhere has no groups.
-/

namespace Recast

/-- The parts of an INSERT or REPLACE statement. -/
structure Insertion where
  table : Text
  /-- Empty when the statement has no column list. -/
  columns : List Text
  /-- The value groups, parentheses included. -/
  groups : List Span
  /-- The offset behind the last group. -/
  tail : Nat
deriving DecidableEq, Repr

namespace Insertion

/-- What is expected next in the list of value groups. -/
inductive Expect where
  | group
  /-- The end of the group that starts at `start`, at the given depth. -/
  | close (start depth : Nat)
  | comma
deriving DecidableEq, Repr

/-- The value groups in a masked text that starts at `offset`; nothing if a group is not closed. -/
def groupsFrom? (expect : Expect) (offset : Nat) : Text → Option (List Span)
  | [] =>
    match expect with
    | .close _ _ => none
    | _ => some []
  | c :: t =>
    let next := offset + c.utf8Size
    match expect with
    | .group =>
      if isAsciiBlank c then groupsFrom? .group next t
      else if c = '(' then groupsFrom? (.close offset 1) next t
      else some []
    | .close start depth =>
      if c = '(' then groupsFrom? (.close start (depth + 1)) next t
      else if c = ')' then
        if depth ≤ 1 then (groupsFrom? .comma next t).map (⟨start, next⟩ :: ·)
        else groupsFrom? (.close start (depth - 1)) next t
      else groupsFrom? (.close start depth) next t
    | .comma =>
      if isAsciiBlank c then groupsFrom? .comma next t
      else if c = ',' then groupsFrom? .group next t
      else some []

/-- Where the words before the table name end: behind INTO, or else behind the first word. -/
def verbEnd? (masked : Text) : Option Nat :=
  let paren := (masked.find? (· == '(')).getD masked.size
  match (Keyword.find? masked "INTO" 0).filter (· < paren) with
  | some n => some (n + 4)
  | none =>
    let c := (Cursor.start masked).skipWhile isAsciiBlank
    Text.findFrom? isBlank c.offset c.rest

/-- The column list at a place, if there is one, and where to go on; nothing if it is not closed. -/
def columns? (t masked : Text) (offset : Nat) : Option (List Text × Nat) :=
  let n := ((Cursor.ofOffset masked offset).skipWhile isAsciiBlank).offset
  if masked.charAt? n = some '(' then do
    let close ← Nesting.closing? masked n
    let names := (Nesting.parts (t.slice ⟨n + 1, close⟩) ',').map Text.unquote
    return (names, ((Cursor.ofOffset masked (close + 1)).skipWhile isAsciiBlank).offset)
  else some ([], n)

def valuesEnd? (masked : Text) (offset : Nat) : Option Nat :=
  if Keyword.isAt masked "VALUES" offset then some (offset + 6)
  else if Keyword.isAt masked "VALUE" offset then some (offset + 5)
  else none

/-- The parts of a statement that inserts. -/
def ofText? (t : Text) : Option Insertion := do
  guard (Kind.ofText t == .insert)
  let masked := Literal.mask t
  let (table, n) ← Definition.tableName? t (← verbEnd? masked)
  let (columns, n) ← columns? t masked n
  let groups ← match valuesEnd? masked n with
    | some m => groupsFrom? .group m (masked.after m)
    | none => some []
  return { table, columns, groups, tail := (groups.getLast?.map (·.stop)).getD n }

def entries (t : Text) (group : Span) : List Span :=
  Nesting.itemsIn t ⟨group.start + 1, group.stop - 1⟩ ','

def values (t : Text) (group : Span) : List Text := (entries t group).map t.slice

end Insertion

end Recast
