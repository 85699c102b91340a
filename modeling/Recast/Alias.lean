import Recast.Edit

/-!
# Column aliases

An alias is the name after the word AS, in square brackets or bare. Only aliases outside all
parentheses name columns of the statement itself.
-/

namespace Recast

/-- Letters, digits and the underscore, letters up to case folding. -/
def isFoldedName (c : Char) : Bool := (foldChar c).isAlphanum || c == '_'

/-- Letters and the underscore, letters up to case folding. -/
def isFoldedLetter (c : Char) : Bool := (foldChar c).isAlpha || c == '_'

/-- The characters of a name with or without square brackets. -/
def isBracketedName (c : Char) : Bool := isFoldedName c || c == '[' || c == ']'

namespace Alias

/-- Past a name in square brackets, or a bare one that starts with no digit. -/
def name? (c : Cursor) : Option Cursor :=
  match c.sign? '[' with
  | some d => do (← d.some? (· != ']')).sign? ']'
  | none => do return (← c.char? isFoldedLetter).skipWhile isFoldedName

/-- Past AS and a name; the span is the name's. -/
def clause? (c : Cursor) : Option (Span × Cursor) := do
  guard (!c.afterWord)
  let d ← (← c.word? "AS").blanks?
  let e ← name? d
  return (d.spanTo e, e)

/-- The aliases outside parentheses and literals, in order. -/
def all (t : Text) : List Text :=
  let masked := Literal.mask t
  let found := (Cursor.start masked).findAll fun c => do
    let (s, d) ← clause? c
    return ((c.offset, s), d)
  (found.filter fun f => Nesting.depthAt masked f.1 == 0).map fun f => t.slice f.2

end Alias

end Recast
