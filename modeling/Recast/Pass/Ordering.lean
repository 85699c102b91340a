import Recast.Alias
import Recast.Draft

/-!
# ORDER BY

Under DISTINCT the target orders only by selected columns, so a list with any other term is replaced
by the aliases of the select list. Columns of unbounded text cannot be sorted by and are cast.
-/

namespace Recast

namespace Ordering

structure Term where
  expr : Span
  /-- ASC or DESC, if it is written. -/
  direction : Option Text
deriving DecidableEq, Repr

/-- The last ORDER BY list at depth zero, without blanks and semicolons behind it. -/
def list? (masked : Text) : Option Span := do
  let clause ← Keyword.findLastTop? masked ["ORDER", "BY"]
  let stop := (Text.trimEnd (Text.dropEnd (· == ';') masked.trimEnd)).size
  guard (clause.stop < stop)
  return masked.trimSpan ⟨clause.stop, stop⟩

/-- Whether a text ends in a blank and a direction. -/
def endsIn (t direction : Text) : Bool :=
  match t.drop (t.length - (direction.length + 1)) with
  | c :: r => direction.length < t.length && isAsciiBlank c && Text.same r direction
  | [] => false

def directions : List Text := ["ASC", "DESC"]

def termOf (t : Text) (s : Span) : Term :=
  let text := t.slice s
  match directions.find? (endsIn text) with
  | some direction =>
    ⟨t.trimSpan ⟨s.start, s.start + (text.size - (direction.size + 1))⟩, some direction⟩
  | none => ⟨s, none⟩

def terms (t : Text) (list : Span) : List Term :=
  ((Nesting.itemsIn t list ',').filter fun s => !s.isEmpty).map (termOf t)

/-! ### Under DISTINCT -/

def isAliased (t : Text) (aliases : List Text) (term : Term) : Bool :=
  let expr := Text.unquote (t.slice term.expr)
  aliases.any fun a => Text.same a.unquote expr

/-- The aliases in place of an ORDER BY list with other terms, in the direction of its last term. -/
def distinct? (t : Text) : Option Text := do
  let masked := Literal.mask t
  let _ ← Keyword.findTop? masked ["DISTINCT"] 0
  let list ← list? masked
  let aliases := Alias.all t
  guard (!aliases.isEmpty)
  let terms := terms t list
  guard (!terms.all (isAliased t aliases))
  let direction := match terms.getLast?.bind (·.direction) with
    | some direction => ' ' :: direction
    | none => []
  return t.splice list (Text.join ", " aliases ++ direction)

/-! ### Casts -/

/-- The table, if it is named, and the column of a column reference. -/
def columnRef? (expr : Text) : Option (Option Text × Text) :=
  let isName (part : Text) : Bool := !part.isEmpty && part.all isNameChar
  match Text.splitOn '.' expr with
  | [column] => if isName column then some (none, column) else none
  | [table, column] => if isName table && isName column then some (some table, column) else none
  | _ => none

/-- Whether a column reference means one of the given columns. -/
def refersTo (columns : List ColumnRef) (table : Option Text) (column : Text) : Bool :=
  columns.any fun r => table.all r.table.same && r.column.same column

/-- The edit that casts a term that is one of the given columns. -/
def cast? (t : Text) (columns : List ColumnRef) (length : Nat) (term : Term) : Option Edit := do
  let expr := t.slice term.expr
  let (table, column) ← columnRef? expr
  guard (refersTo columns table column)
  return ⟨term.expr, "cast(" ++ expr ++ " as varchar(" ++ Text.ofNat length ++ "))"⟩

/-- The statement with text columns cast in its ORDER BY list. -/
def cast (catalog : Catalog) (length : Nat) (t : Text) : Option Text := do
  let list ← list? (Literal.mask t)
  let columns := catalog.ofClass .text
  return Edit.applyAll t ((terms t list).filterMap (cast? t columns length))

end Ordering

end Recast
