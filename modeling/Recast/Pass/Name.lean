import Recast.Text.Basic

/-!
# The passes

A statement goes through the passes one after another; each looks for one construct and leaves every
other statement alone. The first fifteen make up the pipeline, the last three finish the statement.
-/

namespace Recast

/-- The passes, in the order in which they are made. -/
inductive Pass where
  | general
  | identityInsert
  | identityUpdate
  | dateArithmetic
  | conditionalUnwrap
  | rowCount
  | limit
  | nowFunctions
  | distinctOrderBy
  | sortCast
  | escapedWildcard
  | groupByElision
  | nullDatetime
  | incompatibleOperator
  | createTable
  | onDuplicateKey
  | splitInsert
  | verify
deriving DecidableEq, Repr

namespace Pass

/-- The passes over every statement without serialized blobs. -/
def pipeline : List Pass :=
  [general, identityInsert, identityUpdate, dateArithmetic, conditionalUnwrap, rowCount, limit,
    nowFunctions, distinctOrderBy, sortCast, escapedWildcard, groupByElision, nullDatetime,
    incompatibleOperator, createTable]

def all : List Pass := pipeline ++ [onDuplicateKey, splitInsert, verify]

def name : Pass → Text
  | general => "general"
  | identityInsert => "identity_insert"
  | identityUpdate => "identity_update"
  | dateArithmetic => "date_arithmetic"
  | conditionalUnwrap => "conditional_unwrap"
  | rowCount => "row_count"
  | limit => "limit"
  | nowFunctions => "now_functions"
  | distinctOrderBy => "distinct_order_by"
  | sortCast => "sort_cast"
  | escapedWildcard => "escaped_wildcard"
  | groupByElision => "group_by_elision"
  | nullDatetime => "null_datetime"
  | incompatibleOperator => "incompatible_operator"
  | createTable => "create_table"
  | onDuplicateKey => "on_duplicate_key"
  | splitInsert => "split_insert"
  | verify => "verify"

def description : Pass → Text
  | general => "server info, SHOW/SET commands, backticks, COUNT(*) aliasing"
  | identityInsert => "toggle IDENTITY_INSERT around inserts into identity columns"
  | identityUpdate => "rewrite identity column updates as insert plus delete"
  | dateArithmetic => "DATE_ADD/DATE_SUB to DATEADD"
  | conditionalUnwrap => "IF() over date arithmetic to CASE WHEN"
  | rowCount => "SQL_CALC_FOUND_ROWS and FOUND_ROWS()"
  | limit => "LIMIT to TOP or a post-fetch slice"
  | nowFunctions => "NOW(), FROM_UNIXTIME(), UNIX_TIMESTAMP(), DAYOFMONTH()"
  | distinctOrderBy => "ORDER BY under DISTINCT references select aliases"
  | sortCast => "cast text columns in ORDER BY"
  | escapedWildcard => "LIKE escapes to bracket classes"
  | groupByElision => "drop GROUP BY on a single-column key, ORDER BY grouped aliases"
  | nullDatetime => "zero datetimes in INSERT become the current time"
  | incompatibleOperator => "= and <> against text columns become LIKE"
  | createTable => "CREATE TABLE to T-SQL DDL"
  | onDuplicateKey => "ON DUPLICATE KEY UPDATE to a following UPDATE"
  | splitInsert => "multi-row INSERT to one statement per row"
  | verify => "restore bound values a pass altered"

def ofName? (t : Text) : Option Pass := all.find? fun p => p.name == t

end Pass

end Recast
