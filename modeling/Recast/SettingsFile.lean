import Recast.Settings
import Recast.Toml.Document

/-!
# Settings files

Settings are written as a TOML document. Keys that are not known are ignored; a key that is known
has to hold a value of its own kind.
-/

namespace Recast

namespace Settings

inductive FileError where
  /-- The file is no document, or a value is of the wrong kind. -/
  | malformed
  | invalid (reason : Invalid)
deriving DecidableEq, Repr

def Invalid.text (i : Invalid) : Text := "Configuration error: " ++ i.message

/-! ### Kinds of values -/

def bool? : Toml.Value → Option Bool
  | .bool b => some b
  | _ => none

def text? : Toml.Value → Option Text
  | .text t => some t
  | _ => none

/-- A whole number below 2^32. -/
def word? : Toml.Value → Option Nat
  | .int n => if 0 ≤ n ∧ n < UInt32.size then some n.toNat else none
  | _ => none

def texts? : Toml.Value → Option (List Text)
  | .list items => items.mapM text?
  | _ => none

/-- The key under which a date stands when it is taken for a table. -/
def dateKey : Text := "$__toml_private_datetime"

/-- A table of texts, by key. -/
def textTable? : Toml.Value → Option (List (Text × Text))
  | .table _ entries => do
    let pairs ← entries.mapM fun (key, v) => do return (key, ← text? v)
    return pairs.foldl (fun l (key, value) => insertEntry key value l) []
  | .date t => some [(dateKey, t)]
  | _ => none

/-! ### Reading -/

/-- The value of a key, or the default if the key is missing; nothing if it is of the wrong kind. -/
def entry? (e : Toml.Entries) (key : Text) (read : Toml.Value → Option α) (default : α) :
    Option α :=
  match e.get? key with
  | some v => read v
  | none => some default

def ofEntries? (e : Toml.Entries) : Option Settings := do
  let base : Settings := {}
  return {
    azure := ← entry? e "azure" bool? base.azure
    collation := ← entry? e "collation" text? base.collation
    sortCastLength := ← entry? e "sort_cast_length" word? base.sortCastLength
    verify := ← entry? e "verify" bool? base.verify
    reservedWords := ← entry? e "reserved_words" texts? base.reservedWords
    nonUniqueColumns := ← entry? e "non_unique_columns" texts? base.nonUniqueColumns
    identityColumns := ← entry? e "identity_columns" textTable? base.identityColumns }

def read (t : Text) : Except FileError Settings :=
  match (Toml.read? t).bind ofEntries? with
  | none => .error .malformed
  | some s =>
    match s.check with
    | .ok s => .ok s
    | .error reason => .error (.invalid reason)

end Settings

end Recast
