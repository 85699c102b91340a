import Recast.Draft
import Recast.Insertion

/-!
# Verifying bound values

Passes change code and leave data alone; verification makes sure of it. A value in a VALUES group or
a SET list that is one placeholder in the statement as issued has to read as its parameter is
written, and is put back if it does not. The parameters for which a pass may have put the current
time are exempt.
-/

namespace Recast

namespace Verify

/-- What a placeholder that stands alone has to read. -/
structure Expected where
  place : Span
  text : Text
  /-- Whether another value is accepted as well. -/
  exempt : Bool
deriving DecidableEq, Repr

def zeroTime : Text := "0000-00-00 00:00:00"

/-- Whether a parameter may be replaced by the current time. -/
def isExempt (p : Param) : Bool := p.asText?.any fun t => t.isEmpty || t == zeroTime

def Expected.of? : Placeholder × Option Param → Option Expected
  | (p, some param) =>
    if p.inline then none else some ⟨p.span, param.render p.spec false, isExempt param⟩
  | (_, none) => none

/-- What the placeholders of a statement that stand alone have to read. -/
def expected (template : Text) (params : List Param) : List Expected :=
  (Placeholder.assign (Placeholder.all template) params).filterMap Expected.of?

/-- The edit that puts back the value at `now`, which was at `issued` in the statement as issued. -/
def restore? (wanted : List Expected) (t : Text) (issued now : Span) : Option Edit := do
  let e ← wanted.find? fun e => e.place == issued
  guard (t.slice now != e.text && !e.exempt)
  return ⟨now, e.text⟩

/-- The text with the values put back, if there are as many places as before. -/
def restore (wanted : List Expected) (t : Text) (issued now : List Span) : Text :=
  if issued.length = now.length then
    Edit.applyAll t ((issued.zip now).filterMap fun (a, b) => restore? wanted t a b)
  else t

/-! ### INSERT -/

/-- A statement of one row, verified against a value group of the statement as issued. -/
def row (wanted : List Expected) (template : Text) (group : Span) (t : Text) : Text :=
  match Insertion.ofText? t with
  | some { groups := [g], .. } =>
    restore wanted t (Insertion.entries template group) (Insertion.entries t g)
  | _ => t

/-- The statements of a split INSERT verified, if there are as many as value groups. -/
def rows (wanted : List Expected) (template : Text) (main : List Text) : List Text :=
  match Insertion.ofText? template with
  | some i =>
    if i.groups.length = main.length then
      (i.groups.zip main).map fun (g, t) => row wanted template g t
    else main
  | none => main

/-! ### UPDATE -/

/-- The values in the SET list at depth zero. -/
def setValues? (t : Text) : Option (List Span) := do
  let masked := Literal.mask t
  let set ← Keyword.findTop? masked ["SET"] 0
  let stop := match Keyword.findTop? masked ["WHERE"] set.stop with
    | some s => s.start
    | none => t.size
  let items := (Nesting.splitTop (t.slice ⟨set.stop, stop⟩) ',').map fun s => s.shift set.stop
  return items.map fun s =>
    let start := match (masked.slice s).find? (· == '=') with
      | some n => s.start + n + 1
      | none => s.start
    t.trimSpan ⟨start, s.stop⟩

def update (wanted : List Expected) (template t : Text) : Text :=
  match setValues? template, setValues? t with
  | some issued, some now => restore wanted t issued now
  | _, _ => t

def apply (d : Draft) (main : List Text) : List Text :=
  let wanted := expected d.template d.params
  match d.kind with
  | .insert => rows wanted d.template main
  | .update => main.map (update wanted d.template)
  | _ => main

end Verify

end Recast
