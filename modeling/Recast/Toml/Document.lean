import Recast.Toml.Scalar

/-!
# TOML documents

A document is a list of lines: a key with its value, the header of a table, the header of the next
table of an array, or nothing but a comment. `read?` gives the keys of the document; a malformed
document gives nothing.
-/

namespace Recast

namespace Toml

/-! ### Arrays and inline tables -/

/-- What is left behind a comment, which starts at a number sign. -/
def skipComment : Text → Text
  | '#' :: t => t.dropWhile isPrintable
  | t => t

/-- What is left behind gaps, comments and line ends; the first argument bounds the lines. -/
def skipLines : Nat → Text → Text
  | 0, t => t
  | fuel + 1, t =>
    let t := skipGap t
    match newline? (skipComment t) with
    | some r => skipLines fuel r
    | none => t

/-- The items of an array up to its closing bracket, each read by `value`. -/
def items? (value : Text → Option (Value × Text)) : Nat → Text → Option (List Value × Text)
  | 0, _ => none
  | fuel + 1, t =>
    match skipLines t.length t with
    | ']' :: r => some ([], r)
    | t => do
      let (v, r) ← value t
      match skipLines r.length r with
      | ',' :: r => do
        let (vs, r) ← items? value fuel r
        return (v :: vs, r)
      | ']' :: r => return ([v], r)
      | _ => none

/-- A key, an equals sign and a value read by `value`. -/
def pair? (value : Text → Option (Value × Text)) (t : Text) :
    Option (((List Text × Text) × Value) × Text) := do
  let (key, r) ← key? t
  let (v, r) ← value (skipGap (← after? ['='] r))
  return ((key, v), r)

/-- The pairs of an inline table up to its closing brace, put into `e`. -/
def pairs? (value : Text → Option (Value × Text)) : Nat → Entries → Text → Option (Entries × Text)
  | 0, _, _ => none
  | fuel + 1, e, t => do
    let (((path, key), v), r) ← pair? value t
    let e ← e.put? path key v
    match skipGap r with
    | ',' :: r => pairs? value fuel e r
    | '\x7d' :: r => return (e, r)
    | _ => none

/-- A value in which arrays and inline tables are nested at most so deep. -/
def value? : Nat → Text → Option (Value × Text)
  | 0, t => scalar? t
  | depth + 1, t =>
    match t with
    | '[' :: r => (items? (value? depth) r.length r).map fun (vs, r) => (.list vs, r)
    | '\x7b' :: r =>
      match skipGap r with
      | '\x7d' :: r => some (.table .inline [], r)
      | r => (pairs? (value? depth) r.length [] r).map fun (e, r) => (.table .inline e, r)
    | t => scalar? t

/-! ### Lines -/

/-- What is left behind the end of a line, which may hold a gap and a comment only. -/
def lineEnd? (t : Text) : Option Text :=
  match skipComment (skipGap t) with
  | [] => some []
  | t => newline? t

/-- A document under way: what it holds so far, and the table that receives keys. -/
structure Document where
  entries : Entries := []
  current : List Text := []
deriving Repr

/-- The document with a value under a key of the current table. -/
def Document.put? (d : Document) (path : List Text) (key : Text) (v : Value) : Option Document := do
  let e ← d.entries.change? false (fun _ inner => inner.put? path key v) .header d.current
  return { d with entries := e }

/-- A line of the document at the start of the text, and the text behind the line. -/
def line? (d : Document) (t : Text) : Option (Document × Text) :=
  match t with
  | '[' :: '[' :: r => do
    let ((path, key), r) ← key? r
    let r ← lineEnd? (← after? "]]" r)
    return (⟨← d.entries.pushTable? path key, path ++ [key]⟩, r)
  | '[' :: r => do
    let ((path, key), r) ← key? r
    let r ← lineEnd? (← after? "]" r)
    return (⟨← d.entries.openTable? path key, path ++ [key]⟩, r)
  | t => do
    let (((path, key), v), r) ← pair? (value? (depthLimit - 1)) t
    let r ← lineEnd? r
    return (← d.put? path key v, r)

/-- The document that goes on with the lines of a text; the first argument bounds their number. -/
def lines : Nat → Document → Text → Option Document
  | 0, _, _ => none
  | fuel + 1, d, t =>
    match skipGap t with
    | [] => some d
    | '#' :: r => do lines fuel d (← lineEnd? ('#' :: r))
    | t =>
      match newline? t with
      | some r => lines fuel d r
      | none => do
        let (d, r) ← line? d t
        lines fuel d r

def byteOrderMark : Char := Char.ofNat 0xFEFF

def read? (t : Text) : Option Entries :=
  let body := match t with
    | c :: r => if c = byteOrderMark then r else t
    | [] => []
  (lines (body.length + 1) {} body).map (·.entries)

end Toml

end Recast
