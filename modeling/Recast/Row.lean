import Recast.Calendar
import Recast.Number.Decimal

/-!
# Result rows

The server hands back values in other shapes than the application expects: a single space for empty
text, native integers, and times with a fraction of a second. `Cell.normalize` brings a value into
the expected shape. A `Window` keeps a stretch of the rows.
-/

namespace Recast

inductive Cell where
  | null
  | bool (value : Bool)
  | int (value : Int)
  | float (value : Binary64)
  | text (value : Text)
  | list (items : List Cell)
  | map (entries : List (Text × Cell))
deriving Repr

namespace Cell

/-- The time in a text that has a fraction of a second. -/
def wholeSeconds? (t : Text) : Option Text :=
  if t.contains '.' && 20 ≤ t.size then (DateTime.read? t).map DateTime.text else none

/-- A value in the expected shape. -/
def normalize : Cell → Cell
  | .text t => if t = [' '] then .text [] else .text ((wholeSeconds? t).getD t)
  | .int n => .text (Text.ofInt n)
  | c => c

/-- Numbers in result sets have an exponent from seventeen digits on and below five zeros, whole
ones end in a point and a zero, and a half goes to the even neighbour. -/
def layout : Number.Layout := ⟨fun n => -5 < n && n ≤ 16, true, .toEven⟩

end Cell

/-- A row: columns in order, with their values. -/
abbrev Row := List (Text × Cell)

/-- The row with a value in a column, in its old place if the column was there. -/
def Row.put (r : Row) (column : Text) (value : Cell) : Row :=
  if r.any fun e => e.1 == column then r.map fun e => if e.1 = column then (column, value) else e
  else r ++ [(column, value)]

def Row.normalize (r : Row) : Row := r.map fun e => (e.1, e.2.normalize)

/-- The rows to keep of a result. -/
structure Window where
  skip : Nat
  count : Nat
deriving DecidableEq, Repr

/-- The rows in the window; all of them without one. -/
def Window.apply (w : Option Window) (rows : List α) : List α :=
  match w with
  | some w => (rows.drop w.skip).take w.count
  | none => rows

end Recast
