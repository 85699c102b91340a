import Recast.Number.Binary64

/-!
# Doubles in decimal

`shortest` gives the fewest digits that read back as the same double, and among those the nearest to
it. It tries grids of one digit, two digits and so on; on each only the two neighbours of the value
can be hits, and a `Tie` decides between two that are equally near. `text` writes these digits as a
`Layout` says; `fixed` writes the exact value rounded to a number of places.
-/

namespace Recast

namespace Number

/-- `digits * 10 ^ exponent`. -/
structure Decimal where
  digits : Nat
  exponent : Int
deriving DecidableEq, Repr

/-- The largest `k` up to `fuel` for which dividing by ten `k` times leaves no remainder, and what
is left. -/
def stripZeros : Nat → Nat → Int → Decimal
  | 0, n, e => ⟨n, e⟩
  | fuel + 1, n, e => if n % 10 = 0 then stripZeros fuel (n / 10) (e + 1) else ⟨n, e⟩

/-- The least `k` up to `fuel` with `den ≤ num * 10 ^ k`. -/
def leadingZeros (num den : Nat) : Nat → Nat → Nat
  | 0, k => k
  | fuel + 1, k => if den ≤ num * Nat.pow 10 k then k else leadingZeros num den fuel (k + 1)

/-- The exponent `k` for which `num / den` is in the decade below `10 ^ k`. -/
def decade (num den : Nat) : Int :=
  if den ≤ num then (Nat.toDigits 10 (num / den)).length
  else 1 - (leadingZeros num den 400 1 : Int)

/-- The reals that round to a double, as fractions with one denominator. -/
structure Interval where
  low : Nat
  value : Nat
  high : Nat
  den : Nat
  /-- Whether the ends belong to it. -/
  closed : Bool

/-- The interval of `m * 2 ^ e`: half way to either neighbour. Below a power of two the neighbour is
nearer. The ends round to the even mantissa. -/
def interval (m : Nat) (e : Int) : Interval :=
  let low := if m = Binary64.leastNormal ∧ e > Binary64.minExponent then 4 * m - 1 else 4 * m - 2
  let (unit, den) := scaleDown 2 1 1 (2 - e)
  ⟨low * unit, 4 * m * unit, (4 * m + 2) * unit, den, m % 2 = 0⟩

def Interval.holds (i : Interval) (d : Nat) (p : Int) : Bool :=
  let (a, b) := scaleDown 10 d 1 (-p)
  if i.closed then i.low * b ≤ a * i.den && a * i.den ≤ i.high * b
  else i.low * b < a * i.den && a * i.den < i.high * b

/-- Which of two neighbours is taken for a value half way between them. -/
inductive Tie where
  | up
  | toEven
deriving DecidableEq, Repr

/-- The nearer of `n` and `n + 1` to `n + rest / den`. -/
def Tie.nearer (tie : Tie) (n rest den : Nat) : Nat :=
  if 2 * rest < den then n
  else if den < 2 * rest then n + 1
  else match tie with
    | .up => n + 1
    | .toEven => n + n % 2

/-- The grid point `d * 10 ^ p` in the interval nearest to its value. -/
def Interval.gridPoint? (i : Interval) (tie : Tie) (p : Int) : Option Nat :=
  let (a, b) := scaleDown 10 i.value i.den p
  let d := a / b
  match i.holds d p, i.holds (d + 1) p with
  | true, true => some (tie.nearer d (a % b) b)
  | true, false => some d
  | false, true => some (d + 1)
  | false, false => none

/-- The first grid from `count` digits on that meets the interval. -/
def Interval.shortestFrom (i : Interval) (tie : Tie) (top : Int) : Nat → Nat → Decimal
  | 0, _ => ⟨0, 0⟩
  | fuel + 1, count =>
    let p := top - count
    match i.gridPoint? tie p with
    | some d => stripZeros 20 d p
    | none => i.shortestFrom tie top fuel (count + 1)

/-- The fewest digits that read back as `m * 2 ^ e`, for `m` not zero. -/
def shortest (tie : Tie) (m : Nat) (e : Int) : Decimal :=
  let i := interval m e
  i.shortestFrom tie (decade i.value i.den) 17 1

/-! ### Layout -/

structure Layout where
  /-- The numbers of digits before the point for which no exponent is written. -/
  positional : Int → Bool
  /-- Whether a whole number ends in a point and a zero. -/
  pointZero : Bool
  /-- Which of two equally near shortest decimals is written. -/
  tie : Tie

def zeros (n : Nat) : Text := List.replicate n '0'

/-- The digits with the point put in. -/
def positionalText (layout : Layout) (d : Decimal) : Text :=
  let digits := Text.ofNat d.digits
  let before : Int := digits.length + d.exponent
  if 0 ≤ d.exponent then
    digits ++ zeros d.exponent.toNat ++ (if layout.pointZero then ".0" else "")
  else if 0 < before then digits.take before.toNat ++ '.' :: digits.drop before.toNat
  else "0." ++ zeros (-before).toNat ++ digits

/-- The digits with the point after the first one, and the exponent with its sign. -/
def exponentText (d : Decimal) : Text :=
  let digits := Text.ofNat d.digits
  let mantissa := match digits with
    | c :: r => if r.isEmpty then [c] else c :: '.' :: r
    | [] => []
  let exponent := digits.length + d.exponent - 1
  mantissa ++ 'e' :: (if 0 ≤ exponent then '+' :: Text.ofInt exponent else Text.ofInt exponent)

def Decimal.text (layout : Layout) (d : Decimal) : Text :=
  if layout.positional ((Text.ofNat d.digits).length + d.exponent) then positionalText layout d
  else exponentText d

end Number

namespace Binary64

open Number

def sign (negative : Bool) : Text := if negative then ['-'] else []

/-- The text of a number that is not finite, or of a finite one by its sign, mantissa and
exponent. -/
def write (finite : Nat → Int → Text) : Binary64 → Text
  | .nan => "NaN"
  | .infinite negative => sign negative ++ "inf"
  | .finite negative m e => sign negative ++ finite m e

/-- The fewest digits that read back, laid out. -/
def text (layout : Layout) (x : Binary64) : Text :=
  x.write fun m e => (if m = 0 then ⟨0, 0⟩ else shortest layout.tie m e : Decimal).text layout

/-- The exact value rounded to `places` places, a half to the even neighbour. -/
def fixed (places : Nat) (x : Binary64) : Text :=
  x.write fun m e =>
    let unit := Nat.pow 10 places
    let (a, b) := scaleDown 2 (m * unit) 1 (-e)
    let n := roundDiv a b
    let fraction := Text.ofNat (n % unit)
    Text.ofNat (n / unit) ++ '.' :: (zeros (places - fraction.length) ++ fraction)

end Binary64

end Recast
