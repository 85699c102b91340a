import Recast.Text.Basic

/-!
# Reading whole numbers

Decimal numerals in ASCII digits, read into the ranges of 64-bit words. A numeral outside the range
is no numeral.
-/

namespace Recast

namespace Number

/-- The value of a digit string, most significant digit first. -/
def digitsValue (t : Text) : Nat := t.foldl (fun n c => 10 * n + (c.toNat - 48)) 0

/-- A non-empty string of ASCII digits as a number. -/
def readNat? (t : Text) : Option Nat :=
  if !t.isEmpty && t.all Char.isDigit then some (digitsValue t) else none

/-- A numeral below 2^64. -/
def readUnsigned? (t : Text) : Option Nat := do
  let n ← readNat? t
  if n < UInt64.size then some n else none

def minSigned : Int := -0x8000000000000000

def maxSigned : Int := 0x7fffffffffffffff

/-- A numeral with an optional sign in the range of signed 64-bit numbers. -/
def readSigned? (t : Text) : Option Int := do
  let n : Int ← match t with
    | '-' :: r => do pure (-((← readNat? r) : Int))
    | '+' :: r => do pure ((← readNat? r) : Int)
    | r => do pure ((← readNat? r) : Int)
  if minSigned ≤ n ∧ n ≤ maxSigned then some n else none

/-- The nearest number in the range of signed 64-bit numbers. -/
def clamp (n : Int) : Int := max minSigned (min maxSigned n)

end Number

end Recast
