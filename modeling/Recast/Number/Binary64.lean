import Recast.Number.Integer
import Recast.Text.Letter

/-!
# Double precision

A double is a mantissa below 2^53 times a power of two from 2^-1074 up to 2^971, an infinity or not
a number. Everything is computed in whole numbers: a quotient becomes the double nearest to it, and
of two equally near the one with the even mantissa (`ofRatio`); a decimal numeral is such a quotient
(`read?`).
-/

namespace Recast

/-- A double. Finite ones stand for `± mantissa * 2 ^ exponent`. -/
inductive Binary64 where
  | nan
  | infinite (negative : Bool)
  | finite (negative : Bool) (mantissa : Nat) (exponent : Int)
deriving DecidableEq, Repr

namespace Number

/-- The quotient rounded to the nearest whole number, a half to the even neighbour. -/
def roundDiv (num den : Nat) : Nat :=
  let q := num / den
  let r := num % den
  if 2 * r < den then q else if 2 * r > den then q + 1 else if q % 2 = 0 then q else q + 1

/-- Numerator and denominator of `num / den` divided by `base ^ e`. -/
def scaleDown (base num den : Nat) (e : Int) : Nat × Nat :=
  if 0 ≤ e then (num, den * base.pow e.toNat) else (num * base.pow (-e).toNat, den)

end Number

namespace Binary64

open Number

def minExponent : Int := -1074

def maxExponent : Int := 971

def leastNormal : Nat := 0x10000000000000

/-- The exponent that gives the mantissa of `num / den` 53 bits, or the least exponent. -/
def exponentOf (num den : Nat) : Int :=
  let top : Int := (num.log2 : Int) - (den.log2 : Int)
  let (a, b) := scaleDown 2 num den top
  max minExponent ((if a < b then top - 1 else top) - 52)

/-- The double nearest to `num / den`, of two equally near ones the one with even mantissa. -/
def ofRatio (negative : Bool) (num den : Nat) : Binary64 :=
  if num = 0 then .finite negative 0 minExponent
  else
    let e := exponentOf num den
    let (a, b) := scaleDown 2 num den e
    let m := roundDiv a b
    let (m, e) := if m = 2 * leastNormal then (leastNormal, e + 1) else (m, e)
    if e > maxExponent then .infinite negative else .finite negative m e

def ofInt (n : Int) : Binary64 := ofRatio (n < 0) n.natAbs 1

/-- The double nearest to `digits * 10 ^ exponent`. Exponents so large or so small that the outcome
is plain are settled without computing the power. -/
def ofDecimal (negative : Bool) (digits : Nat) (exponent : Int) : Binary64 :=
  if digits = 0 then .finite negative 0 minExponent
  else
    let magnitude := exponent + (Nat.toDigits 10 digits).length
    if magnitude > 310 then .infinite negative
    else if magnitude < -330 then .finite negative 0 minExponent
    else
      let (a, b) := scaleDown 10 digits 1 (-exponent)
      ofRatio negative a b

/-- The exponent part of a numeral: nothing, or the letter e and a whole number. -/
def readExponent? : Text → Option Int
  | [] => some 0
  | c :: t =>
    if c.toLower = 'e' then
      match t with
      | '-' :: r => do pure (-((← readNat? r) : Int))
      | '+' :: r => do pure ((← readNat? r) : Int)
      | r => do pure ((← readNat? r) : Int)
    else none

/-- A numeral without sign: digits with at most one point among them, and an exponent part. -/
def readMagnitude? (negative : Bool) (t : Text) : Option Binary64 := do
  let whole := t.takeWhile Char.isDigit
  let (fraction, rest) := match t.dropWhile Char.isDigit with
    | '.' :: r => (r.takeWhile Char.isDigit, r.dropWhile Char.isDigit)
    | r => ([], r)
  guard (!(whole ++ fraction).isEmpty)
  let e ← readExponent? rest
  return ofDecimal negative (digitsValue (whole ++ fraction)) (e - fraction.length)

/-- The unsigned part of a numeral, or a name of infinity or of the missing number. -/
def readUnsigned? (negative : Bool) (t : Text) : Option Binary64 :=
  if Text.same t "inf" || Text.same t "infinity" then some (.infinite negative)
  else if Text.same t "nan" then some .nan
  else readMagnitude? negative t

def read? (t : Text) : Option Binary64 :=
  match t with
  | '-' :: r => readUnsigned? true r
  | '+' :: r => readUnsigned? false r
  | r => readUnsigned? false r

/-- The whole part as a signed 64-bit number, the nearest one when it does not fit. -/
def toSigned : Binary64 → Int
  | .nan => 0
  | .infinite negative => if negative then minSigned else maxSigned
  | .finite negative m e =>
    let n : Nat := if 0 ≤ e then m * Nat.pow 2 e.toNat else m / Nat.pow 2 (-e).toNat
    clamp (if negative then -(n : Int) else n)

end Binary64

end Recast
