import Recast.Pass.Comparison
import Recast.Pass.CreateTable
import Recast.Pass.DuplicateKey
import Recast.Pass.FoundRows
import Recast.Pass.Functions
import Recast.Pass.General
import Recast.Pass.Grouping
import Recast.Pass.Identity
import Recast.Pass.Limit
import Recast.Pass.Wildcard
import Recast.Pass.ZeroDate

/-!
# Making a pass

`Pass.apply` is what each pass does to a draft, and `Pass.run` keeps a record of it when the text
changed. The passes over the list of main statements, splitting and verification, do nothing to a
single text.
-/

namespace Recast

namespace Pass

def apply (context : Context) (d : Draft) : Pass → Except Fault Draft
  | general => .ok { d with text := General.apply d.catalog d.text }
  | identityInsert => .ok (Identity.aroundInsert d)
  | identityUpdate => .ok (Identity.ofUpdate d)
  | dateArithmetic => .ok { d with text := Functions.dateArithmetic d.text }
  | conditionalUnwrap => .ok { d with text := Functions.conditionals d.text }
  | rowCount => .ok { d with text := FoundRows.apply d.previous d.text }
  | limit => .ok (Limit.apply d)
  | nowFunctions => .ok { d with text := Functions.currentTime d.text }
  | distinctOrderBy => .ok (d.change (Ordering.distinct? d.text))
  | sortCast => .ok (d.change (Ordering.cast d.catalog context.settings.sortCastLength d.text))
  | escapedWildcard => .ok { d with text := Wildcard.apply d.text }
  | groupByElision => .ok { d with text := Grouping.apply d.catalog d.text }
  | nullDatetime =>
    .ok (if d.kind = .insert then d.change (ZeroDate.filled? d.catalog context.clock d.text) else d)
  | incompatibleOperator => .ok (d.change (Comparison.byLike? d.catalog d.kind d.text))
  | createTable => CreateTable.apply context.settings d
  | onDuplicateKey => .ok (if d.kind = .insert then DuplicateKey.apply d else d)
  | splitInsert => .ok d
  | verify => .ok d

/-- The draft after a pass, with a record of the change if there is one. -/
def run (context : Context) (d : Draft) (p : Pass) : Except Fault Draft := do
  let e ← p.apply context d
  return if e.text = d.text then e else e.record p d.text e.text

end Pass

end Recast
