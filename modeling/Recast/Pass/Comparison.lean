import Recast.Pass.Ordering

/-!
# Comparing text columns

Columns of unbounded text cannot be compared by equality in the target, only by LIKE. A number on
the other side is cast to text.
-/

namespace Recast

namespace Comparison

/-- A comparison of a column with something, or with a number. -/
structure Clause where
  span : Span
  column : Span
  table : Option Span
  name : Span
  isEqual : Bool
  number : Option Span
deriving DecidableEq, Repr

/-! ### Reading -/

/-- Past an operator of equality or inequality. -/
def operator? (c : Cursor) : Option (Bool × Cursor) :=
  match c.word? "!=", c.word? "<>", c.word? "=" with
  | some d, _, _ => some (false, d)
  | none, some d, _ => some (false, d)
  | none, none, some d => some (true, d)
  | none, none, none => none

/-- Past a number with no word character behind it; a fraction that fails the test is left out. -/
def number? (c : Cursor) : Option Cursor := do
  let d ← (c.skipSign '-').digits?
  let fraction : Option Cursor := do
    let e ← (← d.sign? '.').digits?
    guard (!e.beforeWord)
    return e
  match fraction with
  | some e => return e
  | none => if d.beforeWord then none else some d

/-- Past the rest of a comparison behind the name of a column. -/
def tail? (c : Cursor) : Option (Bool × Option Span × Cursor) := do
  guard c.atEdge
  let (isEqual, d) ← operator? c.blanks
  let e := d.blanks
  match number? e with
  | some f => return (isEqual, some (e.spanTo f), f)
  | none => return (isEqual, none, e)

/-- Past one of the names and the rest of a comparison. The span is that of the name. -/
def named? (names : List Text) (c : Cursor) : Option (Span × Bool × Option Span × Cursor) :=
  names.findSome? fun name => do
    let d ← c.word? name
    return (c.spanTo d, ← tail? d)

/-- Past a comparison of one of the named columns, with its table before it or without. -/
def clause? (names : List Text) (c : Cursor) : Option (Clause × Cursor) := do
  guard c.atEdge
  let qualified : Option (Clause × Cursor) := do
    let d ← c.some? isFoldedName
    let (name, isEqual, number, e) ← named? names (← d.sign? '.')
    return (⟨c.spanTo e, ⟨c.offset, name.stop⟩, some (c.spanTo d), name, isEqual, number⟩, e)
  let bare : Option (Clause × Cursor) := do
    let (name, isEqual, number, e) ← named? names c
    return (⟨c.spanTo e, name, none, name, isEqual, number⟩, e)
  qualified <|> bare

/-! ### Changing -/

/-- The characters that have a meaning of their own in patterns, before which a name is written with
a backslash. -/
def marks : Text := "\\.+*?()|[]\x7b\x7d^$#&-~"

/-- A name with its marks escaped. Names are tried in the order of their escaped forms. -/
def escaped (name : Text) : Text :=
  name.flatMap fun c => if marks.contains c then ['\\', c] else [c]

/-- The names of the given columns, each once, in the order in which they are tried. -/
def namesOf (columns : List ColumnRef) : List Text :=
  (sortedBy (fun a b => Text.le (escaped a) (escaped b)) (columns.map (·.column))).foldr
    (fun a rest => if rest.head? = some a then rest else a :: rest) []

/-- Where comparisons are looked for: in an update behind WHERE only. -/
def region? (kind : Kind) (masked : Text) : Option Nat :=
  match kind with
  | .select | .delete => some 0
  | .update => (Keyword.findTop? masked ["WHERE"] 0).map (·.start)
  | _ => none

/-- The edit for a comparison found in the part of `t` from `region` on. -/
def edit? (t : Text) (columns : List ColumnRef) (region : Nat) (c : Clause) : Option Edit := do
  let text (s : Span) : Text := t.slice (s.shift region)
  guard (c.table.all fun table => Ordering.refersTo columns (some (text table)) (text c.name))
  let right : Text := match c.number with
    | some n => "cast(" ++ text n ++ " as varchar(max))"
    | none => []
  return ⟨c.span.shift region,
    text c.column ++ (if c.isEqual then " LIKE " else " NOT LIKE ") ++ right⟩

def byLike? (catalog : Catalog) (kind : Kind) (t : Text) : Option Text := do
  let masked := Literal.mask t
  let region ← region? kind masked
  let columns := catalog.ofClass .text
  let found := (Cursor.start (masked.after region)).findAll (clause? (namesOf columns))
  return Edit.applyAll t (found.filterMap (edit? t columns region))

end Comparison

end Recast
