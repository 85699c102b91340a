import Recast.Text.Basic

/-!
# Sorted listings

Names are listed by code point, which is also the order of their UTF-8 bytes. Sorting inserts one
element after another and keeps the order of elements that rank alike.
-/

namespace Recast

/-- Lexicographic order by code point. -/
def Text.le : Text → Text → Bool
  | [], _ => true
  | _ :: _, [] => false
  | x :: a, y :: b => x < y || (x == y && Text.le a b)

/-- Put `a` before the first element that it may precede. -/
def insertSorted (le : α → α → Bool) (a : α) : List α → List α
  | [] => [a]
  | b :: l => if le a b then a :: b :: l else b :: insertSorted le a l

/-- A list in order, equals in the order in which they came. -/
def sortedBy (le : α → α → Bool) (l : List α) : List α := l.foldr (insertSorted le) []

end Recast
