import ApiOutline.Number.Double

/-!
# The shortest decimal of a number

A finite number is written with the fewest significant digits that read back as it; of the
decimals with that many digits the nearest is taken, and an even last digit decides a tie. The
layout is positional from `0.0001` up to, but not including, `10 ^ 16`, and otherwise has an
exponent of at least two digits. A positional text always shows a point.
-/

namespace ApiOutline

namespace Double

/-- A positive decimal `digits * 10 ^ power`. -/
structure Decimal where
  digits : Nat
  power : Int
  deriving DecidableEq

/-- The decimal order of the positive fraction `num / den`: the power of ten of its first
digit. -/
def decimalOrder (num den : Nat) : Int :=
  let guess : Int :=
    ((Nat.toDigits 10 num).length : Int) - ((Nat.toDigits 10 den).length : Int)
  if 0 ≤ guess then
    if num < den * Nat.pow 10 guess.toNat then guess - 1 else guess
  else
    if num * Nat.pow 10 (-guess).toNat < den then guess - 1 else guess

/-- The decimals on the grid of `10 ^ power` beside the positive fraction `num / den`, the nearer
one first. -/
def gridNeighbours (num den : Nat) (power : Int) : List Decimal :=
  let (n, d) :=
    if 0 ≤ power then (num, den * Nat.pow 10 power.toNat)
    else (num * Nat.pow 10 (-power).toNat, den)
  let below := n / d
  if n % d = 0 then [⟨below, power⟩]
  else if roundDiv n d = below then [⟨below, power⟩, ⟨below + 1, power⟩]
  else [⟨below + 1, power⟩, ⟨below, power⟩]

/-- Searches for a decimal that reads back as the number `mantissa * 2 ^ exponent`, on grids that
get finer by one digit with each step. -/
def searchDecimal (mantissa : Nat) (exponent : Int) (num den : Nat) (order : Int) :
    Nat → Nat → Option Decimal
  | 0, _ => none
  | steps + 1, size =>
    let hit := (gridNeighbours num den (order - size)).find? fun d =>
      ofDecimal false d.digits d.power == .finite false mantissa exponent
    match hit with
    | some d => some d
    | none => searchDecimal mantissa exponent num den order steps (size + 1)

/-- The shortest decimal of the positive number `mantissa * 2 ^ exponent`; seventeen digits always
suffice. -/
def shortest (mantissa : Nat) (exponent : Int) : Decimal :=
  let (num, den) :=
    if 0 ≤ exponent then (mantissa * Nat.pow 2 exponent.toNat, 1)
    else (mantissa, Nat.pow 2 (-exponent).toNat)
  (searchDecimal mantissa exponent num den (decimalOrder num den) 17 0).getD ⟨mantissa, 0⟩

/-- The decimal with no trailing zero among its digits. -/
def trimZeros : Nat → Decimal → Decimal
  | 0, d => d
  | fuel + 1, d =>
    if d.digits % 10 = 0 ∧ d.digits ≠ 0 then trimZeros fuel ⟨d.digits / 10, d.power + 1⟩ else d

/-- The text of a positive decimal. -/
def Decimal.text (d : Decimal) : String :=
  let d := trimZeros (Nat.toDigits 10 d.digits).length d
  let digits := Nat.toDigits 10 d.digits
  let order : Int := d.power + ((digits.length : Int) - 1)
  if -4 ≤ order ∧ order < 16 then
    if order < 0 then
      String.ofList ("0.".toList ++ List.replicate (-order - 1).toNat '0' ++ digits)
    else
      let whole := order.toNat + 1
      let padded := digits ++ List.replicate (whole - digits.length) '0'
      let fraction := padded.drop whole
      String.ofList (padded.take whole ++ ['.'] ++ if fraction.isEmpty then ['0'] else fraction)
  else
    let body := match digits with
      | [] => []
      | [c] => [c]
      | c :: cs => c :: '.' :: cs
    let magnitude := Nat.toDigits 10 order.natAbs
    String.ofList (body ++ ['e', if order < 0 then '-' else '+']
      ++ List.replicate (2 - magnitude.length) '0' ++ magnitude)

/-- The text of a number. -/
def text : Double → String
  | .nan => "nan"
  | .infinite negative => if negative then "-inf" else "inf"
  | .finite negative m e =>
    let body := if m = 0 then "0.0" else (shortest m e).text
    if negative then "-" ++ body else body

end Double

end ApiOutline
