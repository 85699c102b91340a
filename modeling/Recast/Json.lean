import Recast.Text.Basic

/-!
# JSON

Values that reports are made of, and their layout: an item of a list or a field of an object to the
line, two spaces to the level.
-/

namespace Recast

inductive Json where
  | null
  | bool (value : Bool)
  | num (value : Nat)
  | text (value : Text)
  | list (items : List Json)
  | object (fields : List (Text × Json))
deriving Repr

namespace Json

def texts (l : List Text) : Json := .list (l.map .text)

def ofOption (f : α → Json) : Option α → Json
  | some a => f a
  | none => .null

def hexByte (n : Nat) : Text := [Nat.digitChar (n / 16), Nat.digitChar (n % 16)]

def escape (c : Char) : Text :=
  if c = '"' then ['\\', '"']
  else if c = '\\' then ['\\', '\\']
  else if c = '\n' then ['\\', 'n']
  else if c = '\r' then ['\\', 'r']
  else if c = '\t' then ['\\', 't']
  else if c = '\x08' then ['\\', 'b']
  else if c = '\x0c' then ['\\', 'f']
  else if c.toNat < 0x20 then ['\\', 'u', '0', '0'] ++ hexByte c.toNat
  else [c]

def quoted (t : Text) : Text := '"' :: t.flatMap escape ++ ['"']

def newline (level : Nat) : Text := '\n' :: List.replicate (2 * level) ' '

mutual

/-- A value laid out at a level. -/
def layout (level : Nat) : Json → Text
  | .null => "null"
  | .bool b => if b then "true" else "false"
  | .num n => Text.ofNat n
  | .text t => quoted t
  | .list [] => "[]"
  | .list (item :: items) =>
    '[' :: newline (level + 1) ++ layout (level + 1) item ++ layoutItems (level + 1) items
      ++ newline level ++ [']']
  | .object [] => "\x7b\x7d"
  | .object ((key, value) :: fields) =>
    '\x7b' :: newline (level + 1) ++ quoted key ++ ": " ++ layout (level + 1) value
      ++ layoutFields (level + 1) fields ++ newline level ++ ['\x7d']

def layoutItems (level : Nat) : List Json → Text
  | [] => []
  | item :: items => ',' :: newline level ++ layout level item ++ layoutItems level items

def layoutFields (level : Nat) : List (Text × Json) → Text
  | [] => []
  | (key, value) :: fields =>
    ',' :: newline level ++ quoted key ++ ": " ++ layout level value ++ layoutFields level fields

end

def pretty (j : Json) : Text := layout 0 j

end Json

end Recast
