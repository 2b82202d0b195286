import ApiOutline.Text.Basic

/-!
# Binary floating-point numbers

The values of the 64-bit binary format, kept as exact integers: a finite value is
`mantissa * 2 ^ exponent` with a mantissa below `2 ^ 53` and an exponent of at least `-1074`, and
the mantissa has all 53 bits unless the exponent is the least one. A decimal is read by rounding
its exact value to the nearest of these, and of two equally near ones to the one with the even
mantissa.
-/

namespace ApiOutline

/-- A number of the 64-bit binary format. -/
inductive Double where
  | nan
  | infinite (negative : Bool)
  | finite (negative : Bool) (mantissa : Nat) (exponent : Int)
  deriving DecidableEq, Inhabited

namespace Double

/-- The bits of a full mantissa. -/
def precision : Nat := 53

/-- The least exponent. -/
def minExponent : Int := -1074

/-- The greatest exponent. -/
def maxExponent : Int := 971

/-- The zero of the given sign. -/
def zero (negative : Bool) : Double :=
  .finite negative 0 minExponent

/-- Whether a number is one of the two zeros. -/
def isZero : Double → Bool
  | .finite _ m _ => m == 0
  | _ => false

/-- `num / den` rounded to the nearest integer, a half going to the even neighbour. -/
def roundDiv (num den : Nat) : Nat :=
  let q := num / den
  let twice := 2 * (num % den)
  if twice < den then q
  else if den < twice then q + 1
  else if q % 2 = 0 then q else q + 1

/-- The fraction `num / den` divided by `2 ^ e`. -/
def scale (num den : Nat) (e : Int) : Nat × Nat :=
  if 0 ≤ e then (num, den * Nat.pow 2 e.toNat) else (num * Nat.pow 2 (-e).toNat, den)

/-- The exponent with which the mantissa of `num / den` has all its bits, but no less than the
least exponent. -/
def exponentFor (num den : Nat) : Int :=
  let guess : Int := (num.log2 : Int) - (den.log2 : Int) - (precision - 1 : Nat)
  let (n, d) := scale num den guess
  let e := if n / d < Nat.pow 2 (precision - 1) then guess - 1 else guess
  max e minExponent

/-- The number nearest to the positive fraction `num / den`. -/
def ofFraction (negative : Bool) (num den : Nat) : Double :=
  let e := exponentFor num den
  let (n, d) := scale num den e
  let m := roundDiv n d
  let (m, e) := if m = Nat.pow 2 precision then (Nat.pow 2 (precision - 1), e + 1) else (m, e)
  if maxExponent < e then .infinite negative else .finite negative m e

/-- Beyond this decimal order every number is infinite, and below its negative every one is
zero. -/
def decimalLimit : Int := 400

/-- The number nearest to `digits * 10 ^ power`. -/
def ofDecimal (negative : Bool) (digits : Nat) (power : Int) : Double :=
  if digits = 0 then zero negative
  else
    let order : Int := power + ((Nat.toDigits 10 digits).length : Int)
    if decimalLimit < order then .infinite negative
    else if order < -decimalLimit then zero negative
    else if 0 ≤ power then ofFraction negative (digits * Nat.pow 10 power.toNat) 1
    else ofFraction negative digits (Nat.pow 10 (-power).toNat)

end Double

end ApiOutline
