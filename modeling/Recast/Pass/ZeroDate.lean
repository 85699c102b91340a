import Recast.Draft
import Recast.Insertion

/-!
# Dates that are not given

The target refuses an empty date and the date of zeros. Where such a value is inserted into a date
column, the current time takes its place: universal time in columns whose name has `gmt` in it, and
local time in the others.
-/

namespace Recast

namespace ZeroDate

/-- The values that stand for no date. -/
def isZero (value : Text) : Bool :=
  value == ("''" : Text) || ("'0000-00-00" : Text).isPrefixOf value
    || ("0000-00-00" : Text).isPrefixOf value

/-- Whether a column holds dates. The columns of a table that is not known are judged by their names
alone. -/
def isDate (catalog : Catalog) (table column : Text) : Bool :=
  match catalog.table? table with
  | some t => (t.column? column).any (·.holds == .date)
  | none => (catalog.ofClass .date).any fun r => r.column.same column

def isUniversal (column : Text) : Bool := column.lower.has "gmt"

/-- The edits to one value group, given the columns in order. -/
def editsIn (t : Text) (catalog : Catalog) (clock : Clock) (i : Insertion) (group : Span) :
    List Edit :=
  (i.columns.zip (Insertion.entries t group)).filterMap fun (column, entry) =>
    if isDate catalog i.table column && isZero (t.slice entry) then
      some ⟨entry, Literal.quote (clock.now (isUniversal column))⟩
    else none

def filled? (catalog : Catalog) (clock : Clock) (t : Text) : Option Text := do
  let i ← Insertion.ofText? t
  return Edit.applyAll t (i.groups.flatMap (editsIn t catalog clock i))

end ZeroDate

end Recast
