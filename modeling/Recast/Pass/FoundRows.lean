import Recast.Draft

/-!
# Counting rows without a limit

A SELECT marked SQL_CALC_FOUND_ROWS loses the mark and its column list. FOUND_ROWS() is answered by
counting again over the FROM and WHERE clauses of the previous statement.
-/

namespace Recast

namespace FoundRows

def marker : Text := "SQL_CALC_FOUND_ROWS"

def call : Text := "FOUND_ROWS()"

/-- The statement without the marker, all columns selected. -/
def unmark? (t : Text) : Option Text := do
  let masked := Literal.mask t
  let n ← Keyword.find? masked marker 0
  let clause ← Keyword.findTop? masked ["FROM"] n
  return t.splice ⟨n, clause.start⟩ "* "

/-- The clauses that end what is counted over. -/
def endings : List (List Text) := [["GROUP", "BY"], ["ORDER", "BY"], ["LIMIT"], ["HAVING"]]

/-- The count over the FROM and WHERE clauses of a statement. -/
def recount? (previous : Text) : Option Text := do
  let masked := Literal.mask previous
  let clause ← Keyword.findTop? masked ["FROM"] 0
  let stops := endings.filterMap fun words =>
    (Keyword.findTop? masked words clause.stop).map (·.start)
  let stop := stops.foldl min previous.size
  let body := Text.trim (previous.slice ⟨clause.start, stop⟩)
  return "COUNT(1) as Computed " ++ Text.trimEnd (Text.dropEnd (· == ';') body)

def apply (previous : Option Text) (t : Text) : Text :=
  let t := (unmark? t).getD t
  match previous.bind recount? with
  | some count => Edit.replaceAll t call count
  | none => t

end FoundRows

end Recast
