import Recast.Calendar
import Recast.Toml.Value

/-!
# Keys and scalars of a TOML document

Each reader takes the text at hand and gives what it read and what is left, or nothing if the text
is malformed.
-/

namespace Recast

namespace Toml

def isGap (c : Char) : Bool := c == ' ' || c == '\t'

def skipGap (t : Text) : Text := t.dropWhile isGap

/-- Every character but the control characters; tab is allowed. -/
def isPrintable (c : Char) : Bool := c == '\t' || (0x20 ≤ c.toNat && c.toNat != 0x7F)

/-- What is left behind a line end. -/
def newline? : Text → Option Text
  | '\n' :: t => some t
  | '\r' :: '\n' :: t => some t
  | _ => none

/-- What is left behind the given characters. -/
def after? (word t : Text) : Option Text :=
  if word.isPrefixOf t then some (t.drop word.length) else none

/-! ### Strings -/

def hexDigit? (c : Char) : Option Nat :=
  if c.isDigit then some (c.toNat - 48)
  else if 'a' ≤ c ∧ c ≤ 'f' then some (c.toNat - 87)
  else if 'A' ≤ c ∧ c ≤ 'F' then some (c.toNat - 55)
  else none

/-- The character whose number is written in so many hexadecimal digits. -/
def codePoint? (count : Nat) (t : Text) : Option Char := do
  let digits ← (t.take count).mapM hexDigit?
  guard (digits.length = count)
  let n := digits.foldl (fun n d => 16 * n + d) 0
  if n.isValidChar then some (Char.ofNat n) else none

/-- What an escape stands for, given the text behind the backslash, and its length. -/
def escape? : Text → Option (Char × Nat)
  | 'b' :: _ => some ('\x08', 1)
  | 't' :: _ => some ('\t', 1)
  | 'n' :: _ => some ('\n', 1)
  | 'f' :: _ => some ('\x0c', 1)
  | 'r' :: _ => some ('\r', 1)
  | '"' :: _ => some ('"', 1)
  | '\\' :: _ => some ('\\', 1)
  | 'u' :: t => do return (← codePoint? 4 t, 5)
  | 'U' :: t => do return (← codePoint? 8 t, 9)
  | _ => none

/-- The length of the gaps and line ends at the start of a text. -/
def blankLength : Text → Nat
  | '\r' :: '\n' :: t => blankLength t + 2
  | c :: t => if isGap c || c == '\n' then blankLength t + 1 else 0
  | [] => 0

/-- The length of a gap and a line end behind a backslash, with the gaps and line ends that
follow. -/
def continuation? (t : Text) : Option Nat := do
  let r ← newline? (skipGap t)
  return t.length - r.length + blankLength r

/-- The rest of a string in double quotes, the first `skip` characters of which are read already. -/
def basicFrom? (skip : Nat) : Text → Option (Text × Text)
  | [] => none
  | c :: t =>
    match skip with
    | skip + 1 => basicFrom? skip t
    | 0 =>
      if c = '"' then some ([], t)
      else if c = '\\' then do
        let (x, n) ← escape? t
        let (s, r) ← basicFrom? n t
        return (x :: s, r)
      else if isPrintable c then do
        let (s, r) ← basicFrom? 0 t
        return (c :: s, r)
      else none

/-- The rest of a string in single quotes. -/
def literal? (t : Text) : Option (Text × Text) := do
  let isInner (c : Char) : Bool := isPrintable c && c != '\''
  let r ← after? ['\''] (t.dropWhile isInner)
  return (t.takeWhile isInner, r)

/-- The rest of a string of several lines, the first `skip` characters of which are read already.
Three quotes end it; up to two more before them belong to it. -/
def linesFrom? (quote : Char) (skip : Nat) : Text → Option (Text × Text)
  | [] => none
  | c :: t =>
    match skip with
    | skip + 1 => linesFrom? quote skip t
    | 0 =>
      if c = quote then
        let run := ((c :: t).takeWhile (· == quote)).length
        if 3 ≤ run then
          some (List.replicate (min run 5 - 3) quote, (c :: t).drop (min run 5))
        else do
          let (s, r) ← linesFrom? quote 0 t
          return (c :: s, r)
      else if c = '\\' ∧ quote = '"' then
        match continuation? t with
        | some n => linesFrom? quote n t
        | none => do
          let (x, n) ← escape? t
          let (s, r) ← linesFrom? quote n t
          return (x :: s, r)
      else if (newline? (c :: t)).isSome then do
        let (s, r) ← linesFrom? quote (if c = '\r' then 1 else 0) t
        return ('\n' :: s, r)
      else if isPrintable c then do
        let (s, r) ← linesFrom? quote 0 t
        return (c :: s, r)
      else none

/-- The rest of a string of several lines; a line end right behind the opening quotes is dropped. -/
def lines? (quote : Char) (t : Text) : Option (Text × Text) :=
  linesFrom? quote 0 ((newline? t).getD t)

def string? : Text → Option (Text × Text)
  | '"' :: '"' :: '"' :: t => lines? '"' t
  | '"' :: t => basicFrom? 0 t
  | '\'' :: '\'' :: '\'' :: t => lines? '\'' t
  | '\'' :: t => literal? t
  | _ => none

/-! ### Keys -/

/-- The characters of a key without quotes. -/
def isBare (c : Char) : Bool := c.isAlphanum || c == '_' || c == '-'

def keyPart? : Text → Option (Text × Text)
  | '"' :: t => basicFrom? 0 t
  | '\'' :: t => literal? t
  | t =>
    let name := t.takeWhile isBare
    if name.isEmpty then none else some (name, t.dropWhile isBare)

/-- A dotted key of at most so many parts, with gaps around them. -/
def dottedKey? : Nat → Text → Option (List Text × Text)
  | 0, _ => none
  | most + 1, t => do
    let (part, r) ← keyPart? (skipGap t)
    match skipGap r with
    | '.' :: r => do
      let (parts, r) ← dottedKey? most r
      return (part :: parts, r)
    | r => return ([part], r)

/-- Keys and values are nested less deep than this. -/
def depthLimit : Nat := 80

/-- A dotted key: the parts before the last, and the last. -/
def key? (t : Text) : Option ((List Text × Text) × Text) := do
  let (parts, r) ← dottedKey? (depthLimit - 1) t
  return ((parts.dropLast, ← parts.getLast?), r)

/-! ### Numbers -/

/-- Digits behind a first one, with single underscores between digits. -/
def moreDigits (isDigit : Char → Bool) : Text → Text × Text
  | [] => ([], [])
  | c :: t =>
    if isDigit c then
      let (s, r) := moreDigits isDigit t
      (c :: s, r)
    else if c = '_' ∧ t.head?.any isDigit then moreDigits isDigit t
    else ([], c :: t)

/-- One or more digits, with single underscores between them, which are dropped. -/
def digits? (isDigit : Char → Bool) (t : Text) : Option (Text × Text) :=
  if t.head?.any isDigit then some (moreDigits isDigit t) else none

def sign : Text → Text × Text
  | '-' :: t => (['-'], t)
  | '+' :: t => (['+'], t)
  | t => ([], t)

/-- A decimal numeral without needless zeros at its start. -/
def decimal? (t : Text) : Option (Text × Text) :=
  let (s, r) := sign t
  match r with
  | '0' :: r => some (s ++ ['0'], r)
  | r => do
    let (d, r) ← digits? Char.isDigit r
    return (s ++ d, r)

/-- The bases other than ten, by the letter behind the zero. -/
def base? : Char → Option Nat
  | 'x' => some 16
  | 'o' => some 8
  | 'b' => some 2
  | _ => none

def based? : Text → Option (Value × Text)
  | '0' :: letter :: t => do
    let base ← base? letter
    let (digits, r) ← digits? (fun c => (hexDigit? c).any (· < base)) t
    let n := digits.foldl (fun n c => base * n + (hexDigit? c).getD 0) 0
    guard ((n : Int) ≤ Number.maxSigned)
    return (.int n, r)
  | _ => none

def fraction? (t : Text) : Option (Text × Text) := do
  let (d, r) ← digits? Char.isDigit (← after? ['.'] t)
  return ('.' :: d, r)

def exponent? : Text → Option (Text × Text)
  | [] => none
  | c :: t =>
    if c = 'e' ∨ c = 'E' then do
      let (s, r) := sign t
      let (d, r) ← digits? Char.isDigit r
      return ('e' :: s ++ d, r)
    else none

/-- A number with a point or an exponent; one too great for a double is refused. -/
def float? (t : Text) : Option (Value × Text) := do
  let (whole, r) ← decimal? t
  let (tail, r) ← match fraction? r with
    | some (f, r) => some (((exponent? r).map fun (e, r) => (f ++ e, r)).getD (f, r))
    | none => exponent? r
  let x ← Binary64.read? (whole ++ tail)
  guard (x != .infinite false)
  return (.float x, r)

def special? (t : Text) : Option (Value × Text) := do
  let (s, r) := sign t
  match after? "inf" r, after? "nan" r with
  | some r, _ => return (.float (.infinite (s == ['-'])), r)
  | none, some r => return (.float .nan, r)
  | none, none => none

def integer? (t : Text) : Option (Value × Text) := do
  let (d, r) ← decimal? t
  return (.int (← Number.readSigned? d), r)

/-! ### Dates and times -/

/-- A number of exactly so many digits, in a range. -/
def fixed? (count least most : Nat) (t : Text) : Option (Text × Text) := do
  let digits := t.take count
  let n ← Number.readNat? digits
  guard (digits.length = count ∧ least ≤ n ∧ n ≤ most)
  return (digits, t.drop count)

def day? (t : Text) : Option (Text × Text) := do
  let (year, r) ← fixed? 4 0 9999 t
  let (month, r) ← fixed? 2 1 12 (← after? ['-'] r)
  let last := DateTime.daysIn (Number.digitsValue year) (Number.digitsValue month)
  let (day, r) ← fixed? 2 1 last (← after? ['-'] r)
  return (year ++ '-' :: month ++ '-' :: day, r)

/-- A fraction of a second to nine places, without zeros at its end. -/
def nanoseconds (t : Text) : Text × Text :=
  let digits := (t.drop 1).takeWhile Char.isDigit
  if t.head? = some '.' ∧ digits ≠ [] then
    let kept := Text.dropEnd (· == '0') (digits.take 9)
    (if kept.isEmpty then [] else '.' :: kept, t.drop (digits.length + 1))
  else ([], t)

def time? (t : Text) : Option (Text × Text) := do
  let (hour, r) ← fixed? 2 0 23 t
  let (minute, r) ← fixed? 2 0 59 (← after? [':'] r)
  let (second, r) ← fixed? 2 0 60 (← after? [':'] r)
  let (fraction, r) := nanoseconds r
  return (hour ++ ':' :: minute ++ ':' :: second ++ fraction, r)

/-- The distance from universal time; none at all counts as forward. -/
def offset? : Text → Option (Text × Text)
  | [] => none
  | c :: t =>
    if c = 'Z' ∨ c = 'z' then some (['Z'], t)
    else if c = '+' ∨ c = '-' then do
      let (hour, r) ← fixed? 2 0 23 t
      let (minute, r) ← fixed? 2 0 59 (← after? [':'] r)
      let isNone := hour == ['0', '0'] && minute == ['0', '0']
      return ((if isNone then '+' else c) :: hour ++ ':' :: minute, r)
    else none

/-- What may follow a day: a time of day and its distance from universal time. -/
def timeOfDay? : Text → Option (Text × Text)
  | [] => none
  | c :: t =>
    if c = 'T' ∨ c = 't' ∨ c = ' ' then do
      let (time, r) ← time? t
      match offset? r with
      | some (offset, r) => return ('T' :: time ++ offset, r)
      | none => return ('T' :: time, r)
    else none

/-- A date, a time of day or both. -/
def date? (t : Text) : Option (Value × Text) :=
  match day? t with
  | some (day, r) =>
    match timeOfDay? r with
    | some (time, r) => some (.date (day ++ time), r)
    | none => some (.date day, r)
  | none => (time? t).map fun (time, r) => (.date time, r)

/-! ### Scalars -/

def bool? (t : Text) : Option (Value × Text) :=
  match after? "true" t, after? "false" t with
  | some r, _ => some (.bool true, r)
  | none, some r => some (.bool false, r)
  | none, none => none

/-- A value that is neither an array nor a table. -/
def scalar? (t : Text) : Option (Value × Text) :=
  match string? t with
  | some (s, r) => some (.text s, r)
  | none => bool? t <|> date? t <|> based? t <|> float? t <|> special? t <|> integer? t

end Toml

end Recast
