import Scoping.Double.Basic

/-!
# Shortest decimal form

Every finite datum stands for the reals that round to it, an interval around its value whose ends
belong to it exactly when the significand is even. `Double.shortest` takes the coarsest decimal
grid, from one digit to seventeen, that has a point in this interval, and of two such points the
nearer one, or the larger one if both are equally near. `Double.text` writes the result without an
exponent.
-/

namespace Scoping.Double

/-- The interval of reals that round to a positive finite datum, in quarters of the unit in its
last place, together with the value itself. -/
structure Rounding where
  low : Nat
  value : Nat
  high : Nat
  /-- Power of two of the quarter unit. -/
  unit : Int
  /-- Do the ends round to the datum too? -/
  closed : Bool

/-- Below the smallest significand of a binade the neighbour is only half as far away. -/
def rounding (x : Double) : Rounding :=
  let m := x.significand
  { low := if x.fraction = 0 ∧ 1 < x.exponent then 4 * m - 1 else 4 * m - 2
    value := 4 * m
    high := 4 * m + 2
    unit := x.scale - 2
    closed := m % 2 == 0 }

/-- `c * 10 ^ s` as a multiple of a common small unit. -/
def Rounding.gridSide (r : Rounding) (s : Int) (c : Nat) : Nat :=
  c * pow10 s * pow2 (-r.unit)

/-- `b` quarter units as a multiple of the same small unit. -/
def Rounding.boundSide (r : Rounding) (s : Int) (b : Nat) : Nat :=
  b * pow2 r.unit * pow10 (-s)

/-- Does `c * 10 ^ s` round to the datum? -/
def Rounding.holds (r : Rounding) (s : Int) (c : Nat) : Bool :=
  let g := r.gridSide s c
  if r.closed then r.boundSide s r.low ≤ g && g ≤ r.boundSide s r.high
  else r.boundSide s r.low < g && g < r.boundSide s r.high

/-- The number of decimal digits of a natural number. -/
def digitCount (n : Nat) : Nat := (Nat.toDigits 10 n).length

/-- The `k` with `10 ^ (k - 1) ≤ num / den < 10 ^ k`, for a positive quotient. -/
def decimalExponent (num den : Nat) : Int :=
  if den ≤ num then (digitCount (num / den) : Int)
  else
    let count : Int := digitCount (den / num)
    if num * pow10 (count - 1) = den then 2 - count else 1 - count

/-- The point of the grid of step `10 ^ s` that rounds to the datum and is nearest to it; a tie goes
up. -/
def Rounding.pick? (r : Rounding) (s : Int) : Option Nat :=
  let value := r.boundSide s r.value
  let step := r.gridSide s 1
  let lo := value / step
  match r.holds s lo, r.holds s (lo + 1) with
  | true, true => some (if 2 * (value % step) < step then lo else lo + 1)
  | true, false => some lo
  | false, true => some (lo + 1)
  | false, false => none

/-- Tries the grids of `n`, `n + 1`, … digits. -/
def Rounding.search (r : Rounding) (k : Int) : Nat → Nat → Option (Nat × Int)
  | 0, _ => none
  | fuel + 1, n =>
    let s := k - (n : Int)
    match r.pick? s with
    | some c => some (c, s)
    | none => r.search k fuel (n + 1)

/-- Shortest digits and decimal exponent of a positive finite datum. -/
def shortest (x : Double) : Nat × Int :=
  ((rounding x).search (decimalExponent x.numerator x.denominator) 17 1).getD (0, 0)

/-- Writes `digits * 10 ^ exponent` positionally. -/
def positional (digits : List Char) (exponent : Int) : List Char :=
  if 0 ≤ exponent then digits ++ List.replicate exponent.toNat '0'
  else
    let places := (-exponent).toNat
    let padded := List.replicate (places + 1 - digits.length) '0' ++ digits
    let whole := padded.take (padded.length - places)
    let rest := (padded.drop (padded.length - places)).reverse.dropWhile (· == '0')
    if rest.isEmpty then whole else whole ++ '.' :: rest.reverse

/-- Fewest digits that read back, no exponent, no fraction on whole numbers. -/
def text (x : Double) : String :=
  let sign := if x.negative then "-" else ""
  if x.isNaN then "NaN"
  else if x.isInfinite then sign ++ "inf"
  else if x.isZero then sign ++ "0"
  else
    let (digits, exponent) := shortest x
    sign ++ String.ofList (positional (Nat.toDigits 10 digits) exponent)

end Scoping.Double
