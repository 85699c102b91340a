import Recast.Text.Letter

/-!
# String literals

A literal opens at a quote, single or double, and ends at the next quote of the same kind that is
not doubled; one that is never closed runs to the end of the text. `shade` gives every character
its role, and everything else here is read off it:

* `spans`, where the literals are;
* `mask`, the text with the data inside literals hidden, byte for byte, so that an offset means
  the same place in both;
* `pieces`, the text cut into literals and the code between them.

Literals are written with the quote doubled (`quote`). Backslash escapes, which the target dialect
does not know, are brought into that form by `normalizeEscapes`.
-/

namespace Recast

/-- What a character is to the literals of its text. -/
inductive Role where
  | code
  | opening
  | inner
  | closing
deriving DecidableEq, Repr

namespace Literal

/-- The characters that open and close literals. -/
def isQuote (c : Char) : Bool := c == '\'' || c == '"'

/-- The character that stands for every byte of hidden data. -/
def filler : Char := 'x'

/-- `shade` of a text that starts outside literals, or inside one opened by the given quote. -/
def shadeFrom : Option Char → Text → List (Char × Role)
  | _, [] => []
  | none, c :: t =>
    if isQuote c then (c, .opening) :: shadeFrom (some c) t else (c, .code) :: shadeFrom none t
  | some q, [c] => [(c, if c = q then .closing else .inner)]
  | some q, c :: d :: t =>
    if c ≠ q then (c, .inner) :: shadeFrom (some q) (d :: t)
    else if d ≠ q then (c, .closing) :: shadeFrom none (d :: t)
    else if t.isEmpty then [(c, .inner), (d, .closing)]
    else (c, .inner) :: (d, .inner) :: shadeFrom (some q) t

/-- Every character with its role. A doubled quote is inner, but one that ends the text closes
its literal with its second half. -/
def shade (t : Text) : List (Char × Role) := shadeFrom none t

/-- What is left of a character once the data inside literals is hidden. -/
def hide : Char × Role → Text
  | (c, .inner) => List.replicate c.utf8Size filler
  | (c, _) => [c]

/-- The text with every byte inside its literals replaced by the filler. -/
def mask (t : Text) : Text := (shade t).flatMap hide

/-- The spans of the literals in a shaded text that starts at `offset`, where `opened` is the start
of a literal under way. -/
def spansFrom (offset : Nat) (opened : Option Nat) : List (Char × Role) → List Span
  | [] => opened.toList.map fun start => ⟨start, offset⟩
  | (c, role) :: t =>
    let next := offset + c.utf8Size
    match role, opened with
    | .opening, _ => spansFrom next (some offset) t
    | .closing, some start => ⟨start, next⟩ :: spansFrom next none t
    | _, _ => spansFrom next opened t

/-- Where the literals are, quotes included. -/
def spans (t : Text) : List Span := spansFrom 0 none (shade t)

/-- A stretch of a text that is a literal, or that lies between literals. -/
structure Piece where
  start : Nat
  isLiteral : Bool
  text : Text
deriving DecidableEq, Repr

/-- The pieces of `t` from `offset` on, cut at the given literals. -/
def piecesFrom (t : Text) (offset : Nat) : List Span → List Piece
  | [] => [⟨offset, false, t.after offset⟩]
  | s :: rest =>
    ⟨offset, false, t.slice ⟨offset, s.start⟩⟩ :: ⟨s.start, true, t.slice s⟩
      :: piecesFrom t s.stop rest

/-- Code and literals in turn, code first and last. -/
def pieces (t : Text) : List Piece := piecesFrom t 0 (spans t)

/-! ### Writing literals -/

/-- The text with every single quote doubled. -/
def escape (t : Text) : Text := t.flatMap fun c => if c = '\'' then ['\'', '\''] else [c]

/-- The literal, in single quotes, that stands for a text. -/
def quote (t : Text) : Text := '\'' :: (escape t ++ ['\''])

/-- `normalizeEscapes` of a text that starts outside literals, or inside one opened by the given
quote. -/
def normalizeFrom : Option Char → Text → Text
  | _, [] => []
  | none, c :: t => c :: normalizeFrom (if isQuote c then some c else none) t
  | some _, [c] => [c]
  | some q, c :: d :: t =>
    if c = '\\' ∧ d = '\\' then c :: d :: normalizeFrom (some q) t
    else if (c = '\\' ∨ c = q) ∧ d = q then q :: q :: normalizeFrom (some q) t
    else c :: normalizeFrom (if c = q then none else some q) (d :: t)

/-- The text with every quote that a backslash escapes inside a literal doubled instead. A pair of
backslashes stays as it is. -/
def normalizeEscapes (t : Text) : Text := normalizeFrom none t

end Literal

end Recast
