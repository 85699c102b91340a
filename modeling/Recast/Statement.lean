import Recast.Placeholder

/-!
# Statements

A statement is issued as a text, possibly with parameters to bind. Its kind is read off its first
word. A text may end in a marker that says that it is prepared, or that its parameters are
serialized blobs.
-/

namespace Recast

/-- What a statement does. -/
inductive Kind where
  | select
  | insert
  | update
  | delete
  | create
  | alter
  | other
deriving DecidableEq, Repr

namespace Kind

def name : Kind → Text
  | .select => "SELECT"
  | .insert => "INSERT"
  | .update => "UPDATE"
  | .delete => "DELETE"
  | .create => "CREATE"
  | .alter => "ALTER"
  | .other => "OTHER"

def verbs : List (Text × Kind) :=
  [("SELECT", .select), ("INSERT", .insert), ("REPLACE", .insert), ("UPDATE", .update),
    ("DELETE", .delete), ("CREATE", .create), ("ALTER", .alter)]

/-- The kind of a text, by the word behind blanks and opening parentheses. -/
def ofText (t : Text) : Kind :=
  let body := Text.trimStart (t.trimStart.dropWhile (· == '('))
  ((verbs.find? fun v => Text.startsWith body v.1).map (·.2)).getD .other

end Kind

/-- A statement as it is issued. -/
structure Statement where
  text : Text
  params : List Param := []
  prepared : Bool := false
  serialized : Bool := false
deriving DecidableEq, Repr

namespace Statement

/-- The end mark of a prepared text. -/
def preparedMark : Text := "--PREPARE"

/-- The end mark of a prepared text whose parameters are serialized. -/
def serializedMark : Text := "--SERIALIZED"

def ofText (t : Text) : Statement := { text := t }

/-- The text before a mark that ends it. -/
def beforeMark? (t mark : Text) : Option Text :=
  if mark.isSuffixOf t then some (t.take (t.length - mark.length)) else none

/-- The statement that a text with or without an end mark stands for. -/
def ofMarked (t : Text) : Statement :=
  match beforeMark? t.trimEnd serializedMark with
  | some body => { text := body, prepared := true, serialized := true }
  | none =>
    match beforeMark? t.trimEnd preparedMark with
    | some body => { text := body, prepared := true }
    | none => ofText t

def bind (s : Statement) (p : Param) : Statement :=
  { s with params := s.params ++ [p], prepared := true }

def bindAll (s : Statement) (params : List Param) : Statement := params.foldl bind s

def kind (s : Statement) : Kind := Kind.ofText s.text

/-- Whether the statement carries a serialized blob. -/
def isSerialized (s : Statement) : Bool :=
  s.serialized || s.params.any fun
    | .blob _ => true
    | _ => false

/-- The text with the parameters of a prepared statement in place. -/
def boundText (s : Statement) : Text :=
  if s.prepared then Placeholder.bind s.text s.params else s.text

end Statement

end Recast
