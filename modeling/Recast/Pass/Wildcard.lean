import Recast.Draft

/-!
# LIKE patterns

In a pattern of the target a backslash is an ordinary character; a wildcard stands for itself in
square brackets.
-/

namespace Recast

namespace Wildcard

/-- A pattern with its escaped wildcards in brackets. -/
def bracket (pattern : Text) : Text :=
  (pattern.replaceWord ['\\', '_'] "[_]").replaceWord ['\\', '%'] "[%]"

/-- Whether the word LIKE stands right before an offset, blanks apart. -/
def isPattern (masked : Text) (offset : Nat) : Bool :=
  let lead := (masked.before offset).trimEnd
  4 ≤ lead.size && Keyword.isAt lead "LIKE" (lead.size - 4)

def apply (t : Text) : Text :=
  let masked := Literal.mask t
  Edit.applyAll t <| ((Literal.spans t).filter fun s => isPattern masked s.start).map fun s =>
    ⟨s, bracket (t.slice s)⟩

end Wildcard

end Recast
