import Recast.Number.Integer
import Recast.Text.Blank

/-!
# Dates and times of day

Civil time in the Gregorian calendar, carried on before its introduction, with a year zero. A time
of day may be the leap second 60. `ofSeconds` counts from the start of 1970; `text` is the one form
in which times are written, and `read?` reads it with a fraction of a second behind it, which is
dropped.
-/

namespace Recast

structure DateTime where
  year : Int
  month : Nat
  day : Nat
  hour : Nat
  minute : Nat
  second : Nat
deriving DecidableEq, Repr

namespace DateTime

def isLeap (year : Int) : Bool := year % 4 = 0 && (year % 100 ≠ 0 || year % 400 = 0)

def daysIn (year : Int) (month : Nat) : Nat :=
  if month = 2 then if isLeap year then 29 else 28
  else if month = 4 ∨ month = 6 ∨ month = 9 ∨ month = 11 then 30
  else 31

def inYears (year : Int) : Bool := -262143 ≤ year && year ≤ 262142

def isValid (d : DateTime) : Bool :=
  inYears d.year && 1 ≤ d.month && d.month ≤ 12 && 1 ≤ d.day && d.day ≤ daysIn d.year d.month
    && d.hour < 24 && d.minute < 60 && d.second ≤ 60

/-- Year, month and day of the day that follows the first of January 1970 by `days` days. Days are
counted from the first of March of the year zero, so that leap days end their years. -/
def dateOf (days : Int) : Int × Nat × Nat :=
  let z := days + 719468
  let era := z.fdiv 146097
  let dayOfEra := (z - era * 146097).toNat
  let yearOfEra := (dayOfEra - dayOfEra / 1460 + dayOfEra / 36524 - dayOfEra / 146096) / 365
  let dayOfYear := dayOfEra - (365 * yearOfEra + yearOfEra / 4 - yearOfEra / 100)
  let shifted := (5 * dayOfYear + 2) / 153
  let day := dayOfYear - (153 * shifted + 2) / 5 + 1
  let month := if shifted < 10 then shifted + 3 else shifted - 9
  (yearOfEra + era * 400 + (if month ≤ 2 then 1 else 0), month, day)

/-- The time that follows the start of 1970 by a number of seconds. -/
def ofSeconds (seconds : Int) : DateTime :=
  let (year, month, day) := dateOf (seconds.fdiv 86400)
  let rest := (seconds.fmod 86400).toNat
  ⟨year, month, day, rest / 3600, rest % 3600 / 60, rest % 60⟩

/-! ### Writing -/

def padded (width n : Nat) : Text :=
  let digits := Text.ofNat n
  List.replicate (width - digits.length) '0' ++ digits

/-- A year in four digits; outside four digits it has a sign. -/
def yearText (year : Int) : Text :=
  if 0 ≤ year ∧ year ≤ 9999 then padded 4 year.toNat
  else (if year < 0 then '-' else '+') :: padded 4 year.natAbs

/-- Date and time of day, largest unit first. -/
def text (d : DateTime) : Text :=
  yearText d.year ++ '-' :: padded 2 d.month ++ '-' :: padded 2 d.day ++ ' ' :: padded 2 d.hour
    ++ ':' :: padded 2 d.minute ++ ':' :: padded 2 d.second

/-! ### Reading -/

/-- The number in the first digits, one to `most` of them, and what follows. -/
def digits? (most : Nat) (t : Text) : Option (Nat × Text) :=
  let run := (t.takeWhile Char.isDigit).take most
  if run.isEmpty then none else some (Number.digitsValue run, t.drop run.length)

/-- A number of one or two digits behind blanks, and what follows. -/
def field? (t : Text) : Option (Nat × Text) := digits? 2 t.trimStart

def sign? (c : Char) : Text → Option Text
  | x :: t => if x = c then some t else none
  | [] => none

/-- A year behind blanks, and what follows: up to four digits, or any number of them behind a
sign. -/
def year? (t : Text) : Option (Int × Text) :=
  match t.trimStart with
  | '-' :: r => do
    let (n, r) ← digits? r.length r
    return (-(n : Int), r)
  | '+' :: r => do
    let (n, r) ← digits? r.length r
    return ((n : Int), r)
  | r => do
    let (n, r) ← digits? 4 r
    return ((n : Int), r)

/-- What follows a point and digits; without a point, the text itself. -/
def afterFraction? : Text → Option Text
  | '.' :: t => do
    let (_, r) ← digits? t.length t
    return r
  | t => some t

/-- The time that a text gives, the fraction of the second dropped. -/
def read? (t : Text) : Option DateTime := do
  let (year, t) ← year? t
  let (month, t) ← field? (← sign? '-' t)
  let (day, t) ← field? (← sign? '-' t)
  let (hour, t) ← field? t.trimStart
  let (minute, t) ← field? (← sign? ':' t)
  let (second, t) ← field? (← sign? ':' t)
  let t ← afterFraction? t
  let d : DateTime := ⟨year, month, day, hour, minute, second⟩
  if t.isEmpty && d.isValid then some d else none

end DateTime

/-- A clock stopped at one instant. -/
structure Clock where
  /-- Seconds from the start of 1970, universal time. -/
  seconds : Int
  /-- The seconds by which local time is ahead of universal time. -/
  offset : Int
deriving DecidableEq, Repr

def Clock.now (c : Clock) (universal : Bool) : Text :=
  (DateTime.ofSeconds (if universal then c.seconds else c.seconds + c.offset)).text

end Recast
