import Recast.Number.Binary64

/-!
# Values of a TOML document

A table remembers how it was opened, because that decides who may add to it: an inline table is
complete, a table with a header takes no keys from elsewhere, a table that a header implies may get
a header of its own, and a table that dotted keys made takes more dotted keys.
-/

namespace Recast

namespace Toml

/-- How a table was opened. -/
inductive Opening where
  | inline
  /-- By a header of its own. -/
  | header
  /-- By the header of a table inside it. -/
  | implied
  /-- By dotted keys. -/
  | dotted
deriving DecidableEq, Repr

inductive Value where
  | bool (value : Bool)
  | int (value : Int)
  | float (value : Binary64)
  | text (value : Text)
  /-- A date, a time of day or both, as text. -/
  | date (value : Text)
  | list (items : List Value)
  | table (opening : Opening) (entries : List (Text × Value))
  /-- An array of tables, the last one first. -/
  | tables (items : List (List (Text × Value)))
deriving Repr

/-- The keys of a table with their values. -/
abbrev Entries := List (Text × Value)

namespace Entries

def get? (e : Entries) (key : Text) : Option Value := (e.find? fun x => x.1 == key).map (·.2)

def set (key : Text) (v : Value) : Entries → Entries
  | [] => [(key, v)]
  | x :: e => if x.1 = key then (key, v) :: e else x :: set key v e

/-- Change the table at the end of a path, given how it is opened and what it holds. Tables that are
missing on the way are made. Dotted keys do not pass through a table with a header. -/
def change? (isDotted : Bool) (f : Opening → Entries → Option Entries) (opening : Opening)
    (e : Entries) : List Text → Option Entries
  | [] => f opening e
  | key :: path =>
    match get? e key with
    | none => do
      let opening : Opening := if isDotted then .dotted else .implied
      return set key (.table opening (← change? isDotted f opening [] path)) e
    | some (.table opening inner) =>
      if opening = .inline ∨ (isDotted ∧ opening = .header) then none
      else do return set key (.table opening (← change? isDotted f opening inner path)) e
    | some (.tables (last :: others)) => do
      return set key (.tables ((← change? isDotted f .header last path) :: others)) e
    | some _ => none

/-- Add a value under a dotted key. The table that receives it is the table itself, or one that
dotted keys made, and does not have the key yet. -/
def put? (e : Entries) (path : List Text) (key : Text) (v : Value) : Option Entries :=
  change? true (fun opening inner =>
    if (path.isEmpty || opening == .dotted) && (get? inner key).isNone then some (set key v inner)
    else none) .header e path

/-- Open a table by its header: it is new, or was only implied so far. -/
def openTable? (e : Entries) (path : List Text) (key : Text) : Option Entries :=
  change? false (fun _ inner =>
    match get? inner key with
    | none => some (set key (.table .header []) inner)
    | some (.table .implied held) => some (set key (.table .header held) inner)
    | some _ => none) .header e path

/-- Open the next table of an array of tables. -/
def pushTable? (e : Entries) (path : List Text) (key : Text) : Option Entries :=
  change? false (fun _ inner =>
    match get? inner key with
    | none => some (set key (.tables [[]]) inner)
    | some (.tables items) => some (set key (.tables ([] :: items)) inner)
    | some _ => none) .header e path

end Entries

end Toml

end Recast
