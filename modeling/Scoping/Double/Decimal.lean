import Scoping.Double.Basic

/-!
# Reading decimal numbers

A decimal number is read in two steps, each with one rounding: the leading digits that fit in 64
bits become a datum, and this datum is scaled by a power of ten, itself rounded to a datum. Further
digits only count towards the exponent. Numbers of up to fifteen digits with a small exponent
are therefore read exactly to the nearest datum.
-/

namespace Scoping.Double

/-- The nearest datum to a power of ten, for exponents up to 308. -/
def tenTo (e : Nat) : Double := (ofNat? (Nat.pow 10 e)).getD zero

def mul? (x y : Double) : Option Double :=
  ofRatio (x.numerator * y.numerator) (x.denominator * y.denominator)

def div? (x y : Double) : Option Double :=
  ofRatio (x.numerator * y.denominator) (x.denominator * y.numerator)

/-- Scales down by powers of ten, at most `10 ^ 308` at a time. -/
def scaleDown : Nat → Double → Nat → Double
  | 0, x, _ => x
  | fuel + 1, x, e =>
    if x.isZero then x
    else if e ≤ 308 then (div? x (tenTo e)).getD zero
    else scaleDown fuel ((div? x (tenTo 308)).getD zero) (e - 308)

/-- `significand * 10 ^ exponent`; `none` if it is too large for a finite datum. Three steps down
reach zero from any 64-bit significand. -/
def ofDecimal (significand : Nat) (exponent : Int) : Option Double := do
  let x ← ofNat? significand
  if exponent < 0 then some (scaleDown 4 x (-exponent).toNat)
  else if 308 < exponent then if x.isZero then some x else none
  else mul? x (tenTo exponent.toNat)

end Scoping.Double
