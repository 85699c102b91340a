import Recast.Text.Blank

/-!
# Letters

Keywords and names are compared without regard to the case of ASCII letters. A name is made of
ASCII letters, digits and underscores (`isNameChar`); any other character ends it.
-/

namespace Recast

def isNameChar (c : Char) : Bool := c.isAlphanum || c == '_'

/-- The marks that may enclose a quoted name: back quotes, double quotes and square brackets. -/
def isNameMark (c : Char) : Bool := c == '\x60' || c == '"' || c == '[' || c == ']'

namespace Text

def lower (t : Text) : Text := t.map Char.toLower

def upper (t : Text) : Text := t.map Char.toUpper

/-- Equality up to the case of ASCII letters. -/
def same (a b : Text) : Bool := lower a == lower b

/-- Whether the text starts with a word, up to the case of ASCII letters. -/
def startsWith : Text → Text → Bool
  | _, [] => true
  | [], _ :: _ => false
  | c :: t, w :: word => c.toLower == w.toLower && startsWith t word

/-- A name without the blanks around it and then without the marks at its ends. -/
def unquote (t : Text) : Text := strip isNameMark (trim t)

end Text

end Recast
