import Recast.Pass.Name
import Recast.Row
import Recast.Schema.Catalog
import Recast.Settings
import Recast.Statement

/-!
# Drafts

A draft is a statement on its way through the passes: its text as it stands, the statements to run
before and after it, the rows to keep, and the record of what changed. Passes also read and extend
the catalog, which therefore travels with the draft.
-/

namespace Recast

/-- When a following statement runs. -/
inductive Policy where
  /-- Also when a main statement failed. -/
  | always
  /-- Only after every main statement succeeded. -/
  | onSuccess
deriving DecidableEq, Repr

def Policy.name : Policy → Text
  | .always => "always"
  | .onSuccess => "on_success"

/-- A statement to run after the main ones. -/
structure Following where
  sql : Text
  policy : Policy
deriving DecidableEq, Repr

/-- A pass that changed the text. -/
structure Record where
  pass : Pass
  before : Text
  after : Text
deriving DecidableEq, Repr

/-- What is fixed while statements go through. -/
structure Context where
  settings : Settings
  clock : Clock
deriving DecidableEq, Repr

/-- A statement on its way. -/
structure Draft where
  text : Text
  kind : Kind
  prepared : Bool
  serialized : Bool
  window : Option Window := none
  preceding : List Text := []
  following : List Following := []
  /-- Whether bound values are compared at the end; a pass that replaces the values clears it. -/
  verify : Bool
  /-- The last main statement before this one. -/
  previous : Option Text
  /-- The text as issued, placeholders not filled. -/
  template : Text
  params : List Param
  trace : List Record := []
  catalog : Catalog
deriving DecidableEq, Repr

/-- A cut was asked for at an offset that is no boundary of the text. -/
structure Fault where
  offset : Nat
deriving DecidableEq, Repr

namespace Draft

def ofStatement (s : Statement) (previous : Option Text) (verify : Bool) (catalog : Catalog) :
    Draft where
  text := s.text
  kind := s.kind
  prepared := s.prepared
  serialized := s.isSerialized
  verify := verify
  previous := previous
  template := s.text.trim
  params := s.params
  catalog := catalog

def precede (d : Draft) (sql : Text) : Draft := { d with preceding := d.preceding ++ [sql] }

def follow (d : Draft) (sql : Text) (policy : Policy) : Draft :=
  { d with following := d.following ++ [⟨sql, policy⟩] }

def record (d : Draft) (pass : Pass) (before after : Text) : Draft :=
  { d with trace := d.trace ++ [⟨pass, before, after⟩] }

/-- The draft with its text changed, if there is a change. -/
def change (d : Draft) (new : Option Text) : Draft := { d with text := new.getD d.text }

end Draft

end Recast
