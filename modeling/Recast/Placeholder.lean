import Recast.Edit
import Recast.Param

/-!
# Placeholders

Placeholders are `%s`, `%d`, `%f` or `%F`, `%%`, and outside literals also `?`. One that stands
inside a literal is *inline*: what is bound to it becomes part of the literal. A literal that is
nothing but `%s` is a placeholder as a whole. `bind` hands out the parameters in order; a
placeholder for which none is left stays as it is.
-/

namespace Recast

/-- A place in a text that a parameter goes to. -/
structure Placeholder where
  span : Span
  spec : Spec
  inline : Bool
  /-- The quote of the literal around it, a single quote outside literals. -/
  quote : Char
deriving DecidableEq, Repr

namespace Placeholder

/-- Every placeholder takes a parameter but the one for a percent sign. -/
def takesParam (p : Placeholder) : Bool := p.spec != .percent

/-- What the character after a percent sign asks for. -/
def spec? : Char → Option Spec
  | 's' => some .text
  | 'd' => some .int
  | 'f' | 'F' => some .float
  | '%' => some .percent
  | _ => none

/-- The placeholders between literals, in code that starts at `offset`. -/
def inCode (offset : Nat) : Text → List Placeholder
  | [] => []
  | '?' :: t => ⟨⟨offset, offset + 1⟩, .text, false, '\''⟩ :: inCode (offset + 1) t
  | '%' :: c :: t =>
    match spec? c with
    | some spec => ⟨⟨offset, offset + 2⟩, spec, false, '\''⟩ :: inCode (offset + 2) t
    | none => inCode (offset + 1) (c :: t)
  | c :: t => inCode (offset + c.utf8Size) t

/-- The placeholders inside a literal opened by `quote`, in the part that starts at `offset`. -/
def inLiteral (quote : Char) (offset : Nat) : Text → List Placeholder
  | [] => []
  | '%' :: c :: t =>
    match spec? c with
    | some spec => ⟨⟨offset, offset + 2⟩, spec, true, quote⟩ :: inLiteral quote (offset + 2) t
    | none => inLiteral quote (offset + 1) (c :: t)
  | c :: t => inLiteral quote (offset + c.utf8Size) t

def inPiece (p : Literal.Piece) : List Placeholder :=
  if !p.isLiteral then inCode p.start p.text
  else
    match p.text with
    | ['\'', '%', 's', '\''] | ['"', '%', 's', '"'] =>
      [⟨⟨p.start, p.start + 4⟩, .text, false, '\''⟩]
    | q :: t => inLiteral q (p.start + 1) t
    | [] => []

def all (t : Text) : List Placeholder := (Literal.pieces t).flatMap inPiece

/-- The placeholders with the parameter that each receives. -/
def assign : List Placeholder → List Param → List (Placeholder × Option Param)
  | [], _ => []
  | p :: rest, params =>
    if !p.takesParam then (p, none) :: assign rest params
    else
      match params with
      | [] => (p, none) :: assign rest []
      | param :: params => (p, some param) :: assign rest params

/-- What is written in place of a placeholder. Inside double quotes a double quote is doubled. -/
def written (p : Placeholder) (param : Param) : Text :=
  let t := param.render p.spec p.inline
  if p.inline && p.quote == '"' then t.flatMap fun c => if c = '"' then ['"', '"'] else [c] else t

/-- The edit that puts a parameter in place of a placeholder. -/
def edit? : Placeholder × Option Param → Option Edit
  | (p, some param) => some ⟨p.span, written p param⟩
  | (p, none) => if p.takesParam then none else some ⟨p.span, ['%']⟩

/-- The text with its placeholders filled. -/
def bind (t : Text) (params : List Param) : Text :=
  Edit.applyAll t ((assign (all t) params).filterMap edit?)

end Placeholder

end Recast
