import Recast.Alias
import Recast.Draft

/-!
# GROUP BY

Grouping by a key that has one column groups nothing, and the target then refuses every other
selected column: such a clause is dropped. And the target does not order by a column that is grouped
only inside expressions: such a term is replaced by the aliases of those expressions.
-/

namespace Recast

namespace Grouping

/-! ### Grouping by a key -/

/-- `GROUP BY table.column` and what follows it. -/
structure KeyClause where
  span : Span
  table : Span
  column : Span
  follower : Span
deriving DecidableEq, Repr

/-- Past what may follow the clause: ORDER or LIMIT, a semicolon, or nothing at the end. -/
def follower? (c : Cursor) : Option Cursor :=
  let word : Option Cursor := do
    let d ← c.oneOf? ["ORDER", "LIMIT"]
    guard (!d.beforeWord)
    return d
  match word with
  | some d => some d
  | none =>
    match c.sign? ';' with
    | some d => some d
    | none => if c.atEnd then some c else none

/-- The place in front of a last word ORDER or LIMIT in what was read from `c` to `d`; something is
left before the word. -/
def wordBack? (c d : Cursor) : Option Cursor :=
  let run := c.rest.take (c.rest.length - d.rest.length)
  if 5 < run.length then
    let e := c.skipCount (run.length - 5)
    if ((e.oneOf? ["ORDER", "LIMIT"]).any fun f => !f.beforeWord) then some e else none
  else none

/-- Past the clause. When nothing that may follow is found behind the column, the column's own end
may be the word that does. -/
def keyClause? (c : Cursor) : Option (KeyClause × Cursor) := do
  guard (!c.afterWord)
  let d ← (← (← (← c.word? "GROUP").blanks?).word? "BY").blanks?
  let e ← d.some? isFoldedName
  let f ← e.sign? '.'
  let g ← f.some? isFoldedName
  let direct : Option (Cursor × Cursor × Cursor) := do return (g, g.blanks, ← follower? g.blanks)
  let backed : Option (Cursor × Cursor × Cursor) := do
    let h ← wordBack? f g
    return (h, h, ← follower? h)
  let (stop, start, next) ← direct <|> backed
  return (⟨c.spanTo next, d.spanTo e, f.spanTo stop, start.spanTo next⟩, next)

/-- The statement without a GROUP BY on a key of one column. -/
def dropKey? (catalog : Catalog) (t : Text) : Option Text := do
  let masked := Literal.mask t
  let clause ← ((Cursor.start masked).findAll keyClause?).head?
  guard (Nesting.depthAt masked clause.span.start == 0)
  let tableName := t.slice clause.table
  let column := t.slice clause.column
  let table ← catalog.table? tableName
  let isPrimary := match table.primaryKey with
    | [key] => Text.same key column
    | _ => false
  guard (isPrimary || (catalog.identity? tableName).any fun i => i.same column)
  return Text.trimEnd (t.splice clause.span (t.slice clause.follower))

/-! ### Ordering by grouped expressions -/

/-- An expression without blanks and in lower case, by which expressions are compared. -/
def key (expr : Text) : Text := (expr.filter (!isBlank ·)).flatMap lowerChar

/-- The part of a text before its last word and the blanks around, and the last word. -/
def splitLast? (t : Text) : Option (Text × Text) :=
  let word := (t.reverse.takeWhile (!isBlank ·)).reverse
  let lead := t.take (t.length - word.length)
  if lead.isEmpty then none else some (Text.trimEnd lead, word)

/-- The expression and the alias of a select item `expr AS alias`, as spans in its mask. -/
def aliased? (masked : Text) : Option (Span × Span) := do
  let (lead, name) ← splitLast? masked
  let (expr, word) ← splitLast? lead
  guard (!name.isEmpty && !expr.isEmpty)
  let c ← (Cursor.start word).word? "AS"
  guard c.atEnd
  return (⟨0, expr.size⟩, ⟨masked.size - name.size, masked.size⟩)

/-- The items of a list in `t` that are not empty. -/
def items (t : Text) (list : Span) : List Span :=
  (Nesting.itemsIn t list ',').filter fun s => !s.isEmpty

/-- The select items with an alias: the key of the expression and the alias. -/
def aliases (t masked : Text) (list : Span) : List (Text × Text) :=
  (items t list).filterMap fun s => do
    let (expr, name) ← aliased? (masked.slice s)
    return (key (t.slice (expr.shift s.start)), Text.unquote (t.slice (name.shift s.start)))

/-- The expression and the direction of an ORDER BY term. -/
def splitTerm (t : Text) : Text × Option Text :=
  let word := (t.reverse.takeWhile (!isBlank ·)).reverse
  let isDirection := Text.same word "ASC" || Text.same word "DESC"
  if word.length < t.length && isDirection then
    (Text.trimEnd (t.take (t.length - word.length - 1)), some word)
  else (t, none)

/-- Whether an expression takes another as part of its arguments. -/
def takes (grouped expr : Text) : Bool :=
  match grouped.find? (· == '(') with
  | some n => (Keyword.find? (grouped.after n) expr.unquote 0).isSome
  | none => false

/-- What stands for an ORDER BY term: nothing when the term may stay, and the whole change is off
when a grouped expression has no alias. -/
def replacement? (aliases : List (Text × Text)) (grouped : List Text) (term : Text) :
    Option (Option Text) := do
  let (expr, direction) := splitTerm term
  if grouped.any (fun g => key g == key expr) || aliases.any (fun a => a.2.same expr) then
    return none
  let names ← (grouped.filter (takes · expr)).mapM fun g => do
    let (_, name) ← aliases.find? fun a => a.1 == key g
    return match direction with
      | some direction => name ++ ' ' :: direction
      | none => name
  return if names.isEmpty then none else some (Text.join ", " names)

/-- The statement with the terms of its ORDER BY list that are grouped only inside expressions
replaced by the aliases of those. -/
def orderByAliases? (t : Text) : Option Text := do
  let masked := Literal.mask t
  let select ← Keyword.findTop? masked ["SELECT"] 0
  let source ← Keyword.findTop? masked ["FROM"] select.stop
  let group ← Keyword.findTop? masked ["GROUP", "BY"] source.stop
  let order ← Keyword.findTop? masked ["ORDER", "BY"] group.stop
  let groupStop := match Keyword.findTop? masked ["HAVING"] group.stop with
    | some s => min s.start order.start
    | none => order.start
  let orderStop := match Keyword.findTop? masked ["LIMIT"] order.stop with
    | some s => s.start
    | none => t.size
  let aliases := aliases t masked ⟨select.stop, source.start⟩
  let grouped := (items t ⟨group.stop, groupStop⟩).map t.slice
  guard (!grouped.isEmpty && !aliases.isEmpty)
  let edits ← (items t ⟨order.stop, orderStop⟩).mapM fun s => do
    let new ← replacement? aliases grouped (t.slice s)
    return new.map fun n => (⟨s, n⟩ : Edit)
  return Edit.applyAll t (edits.filterMap id)

def apply (catalog : Catalog) (t : Text) : Text :=
  let t := (dropKey? catalog t).getD t
  (orderByAliases? t).getD t

end Grouping

end Recast
