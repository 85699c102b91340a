import Recast.Keyword
import Recast.Text.Order

/-!
# Edits

An edit replaces one span of a text. `applyAll` makes many edits at once: all spans refer to the
text as it was. An edit is left out when its span runs backwards, cuts a character or reaches into
an edit that starts behind it.
-/

namespace Recast

/-- The replacement of one span. -/
structure Edit where
  span : Span
  new : Text
deriving DecidableEq, Repr

namespace Edit

/-- Whether an edit can be made when everything from `limit` on is settled. -/
def fits (t : Text) (limit : Nat) (e : Edit) : Bool :=
  e.span.start ≤ e.span.stop && e.span.stop ≤ limit
    && t.isBoundary e.span.start && t.isBoundary e.span.stop

/-- `applyAll` for edits in descending order, where `done` stands for the text from `limit` on. -/
def applyFrom (t : Text) (limit : Nat) (done : Text) : List Edit → Text
  | [] => t.before limit ++ done
  | e :: edits =>
    if fits t limit e then
      applyFrom t e.span.start (e.new ++ t.slice ⟨e.span.stop, limit⟩ ++ done) edits
    else applyFrom t limit done edits

/-- The text with the edits made. -/
def applyAll (t : Text) (edits : List Edit) : Text :=
  applyFrom t t.size [] (sortedBy (fun a b => b.span.start ≤ a.span.start) edits)

/-- Every occurrence of a word outside literals replaced. -/
def replaceAll (t needle new : Text) : Text :=
  applyAll t <| (Keyword.occurrences (Literal.mask t) needle).map fun n =>
    ⟨⟨n, n + needle.size⟩, new⟩

def replaceClauses (t : Text) (clause : Cursor → Option (Edit × Cursor)) : Text :=
  applyAll t <| (Cursor.start (Literal.mask t)).findAll clause

end Edit

end Recast
