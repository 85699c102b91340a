import Recast.Draft

/-!
# LIMIT

A limit without offset becomes TOP. The target has no plain row offset, so a limit with one is taken
off the statement and kept as a window on the fetched rows.
-/

namespace Recast

namespace Limit

/-- A LIMIT clause that ends a statement; its numbers as they are written. -/
structure Clause where
  start : Nat
  first : Text
  /-- The number behind a comma. -/
  second : Option Text
  /-- The number behind OFFSET. -/
  offset : Option Text
deriving DecidableEq, Repr

def number? (c : Cursor) : Option (Text × Cursor) := do
  let d ← c.digits?
  return (c.rest.take (c.rest.length - d.rest.length), d)

def second? (c : Cursor) : Option (Text × Cursor) := do
  number? (← c.blanks.sign? ',').blanks

def offset? (c : Cursor) : Option (Text × Cursor) := do
  number? (← (← (← c.blanks?).word? "OFFSET").blanks?)

/-- Past a clause at the end of the text. -/
def clause? (c : Cursor) : Option (Clause × Cursor) := do
  guard (!c.afterWord)
  let (first, d) ← number? (← (← c.word? "LIMIT").blanks?)
  let (clause, e) : Clause × Cursor := match second? d, offset? d with
    | some (n, e), _ => (⟨c.offset, first, some n, none⟩, e)
    | none, some (n, e) => (⟨c.offset, first, none, some n⟩, e)
    | none, none => (⟨c.offset, first, none, none⟩, d)
  let e := (e.blanks.skipSign ';').blanks
  guard e.atEnd
  return (clause, e)

/-- Rows to skip and rows to keep. A first number that does not fit a word is not understood, and
any other such number is as good as not there. -/
def Clause.window? (l : Clause) : Option Window := do
  let first ← Number.readUnsigned? l.first
  match l.second.bind Number.readUnsigned?, l.offset.bind Number.readUnsigned? with
  | some count, _ => return ⟨first, count⟩
  | none, some offset => return ⟨offset, first⟩
  | none, none => return ⟨0, first⟩

/-- The word that TOP stands behind, and how TOP is written. -/
def top? (count : Nat) : Kind → Option (Text × Text)
  | .select => some ("SELECT", " TOP " ++ Text.ofNat count)
  | .delete => some ("DELETE", " TOP (" ++ Text.ofNat count ++ ")")
  | .update => some ("UPDATE", " TOP (" ++ Text.ofNat count ++ ")")
  | _ => none

/-- The statement with TOP behind its first verb, or behind the DISTINCT that follows it. -/
def insertTop (t : Text) (kind : Kind) (verb top : Text) : Text :=
  let masked := Literal.mask t
  match Keyword.find? masked verb 0 with
  | none => t
  | some n =>
    let behind := n + verb.size
    let c := (Cursor.ofOffset masked behind).blanks
    if kind = .select ∧ Keyword.isAt masked "DISTINCT" c.offset then
      t.insertAt (c.offset + 8) top
    else t.insertAt behind top

def limited? (d : Draft) : Option Draft := do
  let masked := Literal.mask d.text
  guard (d.kind == .select || d.kind == .delete || d.kind == .update)
  let clause ← ((Cursor.start masked).findAll clause?).head?
  guard (Nesting.depthAt masked clause.start == 0)
  let w ← clause.window?
  let stripped := Text.trimEnd (d.text.before clause.start)
  if w.skip = 0 then
    let (verb, top) ← top? w.count d.kind
    return { d with text := insertTop stripped d.kind verb top }
  else
    guard (d.kind == .select)
    return { d with text := stripped, window := some w }

/-- The pass; what it does not understand stays as it is. -/
def apply (d : Draft) : Draft := (limited? d).getD d

end Limit

end Recast
