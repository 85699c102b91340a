import Recast.Text.Letter
import Recast.Text.Order

/-!
# Settings

What can be chosen about the target and the output. A setting that makes no sense is refused with
its reason.
-/

namespace Recast

structure Settings where
  /-- The target is the cloud edition: no filegroup clauses, clustered secondary indexes. -/
  azure : Bool := false
  collation : Text := "Latin1_General_BIN"
  /-- The length of the varchar to which text columns are cast in ORDER BY. -/
  sortCastLength : Nat := 255
  /-- Whether bound values are compared at the end. -/
  verify : Bool := true
  /-- The column names that are put in brackets. -/
  reservedWords : List Text := ["public"]
  /-- The columns that get no unique constraint and no index, whatever their declaration says. -/
  nonUniqueColumns : List Text :=
    ["slug", "name", "term_id", "taxonomy", "term_taxonomy_id", "comment_approved",
      "comment_post_ID", "link_visible", "post_id", "meta_key", "post_type", "post_status",
      "post_date", "ID", "post_name", "post_parent", "user_login", "user_nicename", "user_id"]
  /-- The identity columns of tables that exist already, by table name. -/
  identityColumns : List (Text × Text) := []
deriving DecidableEq, Repr

namespace Settings

def isReserved (s : Settings) (column : Text) : Bool := s.reservedWords.any column.same

/-- Whether a column gets no unique constraint and no index. -/
def isNonUnique (s : Settings) (column : Text) : Bool := s.nonUniqueColumns.contains column

/-- A list of entries by key with one more entry, in place of the one with the same key. -/
def insertEntry (key value : Text) : List (Text × Text) → List (Text × Text)
  | [] => [(key, value)]
  | e :: l =>
    if e.1 = key then (key, value) :: l
    else if e.1.le key then e :: insertEntry key value l
    else (key, value) :: e :: l

def withIdentity (s : Settings) (table column : Text) : Settings :=
  { s with identityColumns := insertEntry table column s.identityColumns }

inductive Invalid where
  | sortCastLength (given : Nat)
  | emptyCollation
deriving DecidableEq, Repr

def Invalid.message : Invalid → Text
  | .sortCastLength n => "sort_cast_length must be between 1 and 8000, got " ++ Text.ofNat n
  | .emptyCollation => "collation must not be empty"

/-- The settings, if they make sense. -/
def check (s : Settings) : Except Invalid Settings :=
  if s.sortCastLength = 0 ∨ 8000 < s.sortCastLength then .error (.sortCastLength s.sortCastLength)
  else if s.collation.isBlankText then .error .emptyCollation
  else .ok s

end Settings

end Recast
