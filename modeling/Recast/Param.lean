import Recast.Literal
import Recast.Number.Decimal

/-!
# Parameters

A parameter is a value bound to a placeholder. How it is written depends on what the placeholder
asks for (`Spec`) and on whether it stands inside a literal already (`inline`).
-/

namespace Recast

/-- What a placeholder asks for. -/
inductive Spec where
  | text
  | int
  | float
  /-- A percent sign, which takes no parameter. -/
  | percent
deriving DecidableEq, Repr

/-- A value bound to a placeholder. -/
inductive Param where
  | null
  | bool (value : Bool)
  | int (value : Int)
  | float (value : Binary64)
  | text (value : Text)
  /-- A serialized blob, which is written like text. -/
  | blob (value : Text)
deriving DecidableEq, Repr

namespace Param

def asText? : Param → Option Text
  | .text t | .blob t => some t
  | _ => none

/-- The digits of `t` with at most one point among them. -/
def numeralBody (pointSeen : Bool) : Text → Text
  | [] => []
  | c :: t =>
    if c.isDigit then c :: numeralBody pointSeen t
    else if c = '.' ∧ !pointSeen then c :: numeralBody true t
    else []

/-- The numeral that a text starts with: an optional sign and digits with at most one point. -/
def leadingNumeral (t : Text) : Text :=
  match t.trimStart with
  | '-' :: r => '-' :: numeralBody false r
  | '+' :: r => '+' :: numeralBody false r
  | r => numeralBody false r

def leadingDouble? (t : Text) : Option Binary64 := Binary64.read? (leadingNumeral t)

def asInt : Param → Int
  | .null => 0
  | .bool b => if b then 1 else 0
  | .int n => n
  | .float x => x.toSigned
  | .text t | .blob t => ((leadingDouble? t).map Binary64.toSigned).getD 0

def asFloat : Param → Binary64
  | .null => Binary64.ofInt 0
  | .bool b => Binary64.ofInt (if b then 1 else 0)
  | .int n => Binary64.ofInt n
  | .float x => x
  | .text t | .blob t => (leadingDouble? t).getD (Binary64.ofInt 0)

/-- Doubles asked for as text never have an exponent, whole ones have no point, and a half goes
up. -/
def doubleLayout : Number.Layout := ⟨fun _ => true, false, .up⟩

/-- Doubles asked for as numbers have six places. -/
def places : Nat := 6

def plainText : Param → Text
  | .null => []
  | .bool b => if b then ['1'] else []
  | .int n => Text.ofInt n
  | .float x => x.text doubleLayout
  | .text t | .blob t => t

/-- What is written in place of a placeholder. -/
def render (p : Param) (spec : Spec) (inline : Bool) : Text :=
  match spec, p with
  | .percent, _ => ['%']
  | _, .null =>
    if !inline then "NULL"
    else match spec with
      | .int => Text.ofInt (asInt p)
      | .float => (asFloat p).fixed places
      | _ => []
  | .int, p => Text.ofInt (asInt p)
  | .float, p => (asFloat p).fixed places
  | .text, p => if inline then Literal.escape (plainText p) else Literal.quote (plainText p)

end Param

end Recast
