import Recast.Insertion

/-!
# One statement for each row

An INSERT of several rows becomes one INSERT for each of them, with everything before and behind the
value groups repeated.
-/

namespace Recast

namespace RowSplit

/-- The statements, one for each value group; a statement of fewer than two groups stays whole. -/
def statements (t : Text) : List Text :=
  match Insertion.ofText? t with
  | some { groups := first :: second :: others, tail, .. } =>
    (first :: second :: others).map fun g => t.before first.start ++ t.slice g ++ t.after tail
  | _ => [t]

end RowSplit

end Recast
