import Recast.Literal

/-!
# Parentheses

The depth of a place is the number of parentheses open there; a closing parenthesis without an
opening one counts for nothing. `closing?` finds the partner of an opening parenthesis, and
`splitTop` cuts a list at the separators that stand at depth zero outside literals. The functions
on depth look at every parenthesis, so a caller who means code alone hands in the mask.
-/

namespace Recast

namespace Nesting

/-- The depth behind a character, given the depth before it. -/
def step (depth : Nat) (c : Char) : Nat :=
  if c = '(' then depth + 1 else if c = ')' then depth - 1 else depth

def depth (t : Text) : Nat := t.foldl step 0

def depthAt (t : Text) (n : Nat) : Nat := depth (t.before n)

/-- The offset of the parenthesis that brings the depth back to zero, in a text that starts at
`offset` at the given depth. -/
def closingFrom? (depth offset : Nat) : Text → Option Nat
  | [] => none
  | c :: t =>
    let next := offset + c.utf8Size
    if c = '(' then closingFrom? (depth + 1) next t
    else if c = ')' then if depth ≤ 1 then some offset else closingFrom? (depth - 1) next t
    else closingFrom? depth next t

/-- The offset of the parenthesis that closes the one at `opening`. -/
def closing? (t : Text) (opening : Nat) : Option Nat :=
  if t.charAt? opening = some '(' then closingFrom? 0 opening (t.after opening) else none

/-- `splitTop` of a masked text that starts at `offset`, with the part under way from `start`. -/
def splitTopFrom (sep : Char) (depth start offset : Nat) : Text → List Span
  | [] => [⟨start, offset⟩]
  | c :: t =>
    let next := offset + c.utf8Size
    if c = '(' then splitTopFrom sep (depth + 1) start next t
    else if c = ')' then splitTopFrom sep (depth - 1) start next t
    else if c = sep ∧ depth = 0 then ⟨start, offset⟩ :: splitTopFrom sep depth next next t
    else splitTopFrom sep depth start next t

/-- The spans between the separators at depth zero outside literals; never the empty list. -/
def splitTop (t : Text) (sep : Char) : List Span := splitTopFrom sep 0 0 0 (Literal.mask t)

/-- The parts between the separators at depth zero outside literals. -/
def parts (t : Text) (sep : Char) : List Text := (splitTop t sep).map t.slice

/-- The items of the list that a span of `t` holds, as spans of `t` without blanks around them. -/
def itemsIn (t : Text) (list : Span) (sep : Char) : List Span :=
  (splitTop (t.slice list) sep).map fun s => t.trimSpan (s.shift list.start)

end Nesting

end Recast
