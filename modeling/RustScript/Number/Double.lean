/-
  Floating-point values as exact numbers.

  A finite value is `mantissa · 2 ^ exponent`, with a sign of its own so that the two zeros differ.
  Values keep at most 53 bits and no exponent below -1074, and what would need an exponent above 971
  is infinite.
-/
namespace RustScript

/-- A binary64 value. -/
inductive Double where
  | finite (negative : Bool) (mantissa : Nat) (exponent : Int)
  | infinite (negative : Bool)
  | nan
  deriving DecidableEq, Repr

namespace Double

def precision : Nat := 53

def minExponent : Int := -1074

def maxExponent : Int := 971

/-- The quotient rounded to the nearest integer, a half going to the even one. -/
def roundDiv (num den : Nat) : Nat :=
  let q := num / den
  let r := num % den
  if 2 * r < den then q
  else if den < 2 * r then q + 1
  else q + q % 2

/-- The quotient `num / den` times `2 ^ k`, as a fraction. -/
def shift (num den : Nat) (k : Int) : Nat × Nat :=
  if 0 ≤ k then (num * Nat.pow 2 k.toNat, den) else (num, den * Nat.pow 2 (-k).toNat)

/-- The greatest `k` with `2 ^ k ≤ num / den`, for a positive quotient. -/
def floorLog2 (num den : Nat) : Int :=
  let guess : Int := (Nat.log2 num : Int) - (Nat.log2 den : Int)
  let (n, d) := shift num den (-guess)
  if n < d then guess - 1 else guess

/-- The value nearest to the positive quotient `num / den`. -/
def ofRatio (negative : Bool) (num den : Nat) : Double :=
  let exponent := max minExponent (floorLog2 num den - (precision - 1 : Nat))
  let (n, d) := shift num den (-exponent)
  let mantissa := roundDiv n d
  let (mantissa, exponent) :=
    if mantissa == Nat.pow 2 precision then (Nat.pow 2 (precision - 1), exponent + 1)
    else (mantissa, exponent)
  if maxExponent < exponent then .infinite negative else .finite negative mantissa exponent

/-- The value nearest to `digits · 10 ^ power`. Numbers far outside the range are settled by
    their number of places, before any power is formed. -/
def ofDecimal (negative : Bool) (digits : Nat) (power : Int) : Double :=
  if digits == 0 then .finite negative 0 minExponent
  else
    let places : Int := (Nat.toDigits 10 digits).length + power
    if 400 < places then .infinite negative
    else if places < -400 then .finite negative 0 minExponent
    else if 0 ≤ power then ofRatio negative (digits * Nat.pow 10 power.toNat) 1
    else ofRatio negative digits (Nat.pow 10 (-power).toNat)

end Double

end RustScript
