import Recast.Pass.RowSplit
import Recast.Pass.Run
import Recast.Pass.Verify

/-!
# Converting a statement

A statement is bound, goes through the passes, and comes out as the statements to run: some before,
the main ones, and some after. Statements with serialized blobs are only touched where no blob can
be. What definitions teach is in the catalog that comes out with them.
-/

namespace Recast

/-- The statements to run for one statement. -/
structure Outcome where
  kind : Kind
  preceding : List Text
  /-- Never empty; more than one only for a split INSERT. -/
  main : List Text
  following : List Following
  window : Option Window
  trace : List Record
deriving DecidableEq, Repr

namespace Outcome

/-- Every statement in the order in which they run. -/
def statements (o : Outcome) : List Text := o.preceding ++ o.main ++ o.following.map (·.sql)

/-- The main statement to remember: the last that is not empty. -/
def lastMain? (o : Outcome) : Option Text := o.main.reverse.find? fun m => !m.isEmpty

end Outcome

namespace Draft

def outcome (d : Draft) (main : List Text) : Outcome where
  kind := d.kind
  preceding := d.preceding
  main := main
  following := d.following
  window := d.window
  trace := d.trace

def joined (main : List Text) : Text := Text.join ";\n" main

/-- The draft of an INSERT and its main statements, one for each row. -/
def splitRows (d : Draft) : Draft × List Text :=
  let main := RowSplit.statements d.text
  (if 1 < main.length then d.record .splitInsert d.text (joined main) else d, main)

/-- The draft and its main statements, with the bound values put back. -/
def verified (d : Draft) (main : List Text) : Draft × List Text :=
  if d.prepared && d.verify then
    let restored := Verify.apply d main
    (if joined restored = joined main then d
      else d.record .verify (joined main) (joined restored), restored)
  else (d, main)

end Draft

/-- The statements for a statement, and the catalog after it. The previous main statement is the one
that a count of found rows refers to. -/
def convert (context : Context) (catalog : Catalog) (s : Statement) (previous : Option Text) :
    Except Fault (Outcome × Catalog) := do
  let s := { s with text := Literal.normalizeEscapes s.text }
  let d := Draft.ofStatement s previous context.settings.verify catalog
  let d := { d with text := s.boundText.trim }
  if d.serialized then
    let d ← Pass.run context d .general
    let d ← if d.kind = .insert then Pass.run context d .onDuplicateKey else pure d
    return (d.outcome [d.text], d.catalog)
  else
    let d ← Pass.pipeline.foldlM (Pass.run context) d
    let (d, main) ←
      if d.kind = .insert then do
        let d ← Pass.run context d .onDuplicateKey
        pure d.splitRows
      else pure (d, [d.text])
    let (d, main) := d.verified main
    return (d.outcome main, d.catalog)

/-- A catalog that knows the identity columns of the settings. -/
def Settings.register (s : Settings) (catalog : Catalog) : Catalog :=
  s.identityColumns.foldl (fun c e => c.registerIdentity e.1 e.2) catalog

end Recast
