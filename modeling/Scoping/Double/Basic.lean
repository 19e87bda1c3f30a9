/-!
# Binary floating-point numbers

A `Double` is a 64-bit binary floating-point datum, kept as its three fields. Only exact
arithmetic on natural numbers is used to work with it: `Double.ofRatio` rounds a positive quotient
to the nearest datum, ties to even, and everything else is built on that.
-/

namespace Scoping

/-- Sign, biased exponent (below `2 ^ 11`) and fraction (below `2 ^ 52`) of a floating-point
datum. -/
structure Double where
  negative : Bool
  exponent : Nat
  fraction : Nat
deriving DecidableEq, Inhabited

namespace Double

def zero : Double := ⟨false, 0, 0⟩

/-- The datum with the given bit pattern. -/
def ofBits (bits : Nat) : Double where
  negative := bits / Nat.pow 2 63 % 2 == 1
  exponent := bits / Nat.pow 2 52 % Nat.pow 2 11
  fraction := bits % Nat.pow 2 52

/-- The bit pattern of a datum. -/
def toBits (x : Double) : Nat :=
  (if x.negative then Nat.pow 2 63 else 0) + x.exponent * Nat.pow 2 52 + x.fraction

def neg (x : Double) : Double := { x with negative := !x.negative }

def isZero (x : Double) : Bool := x.exponent == 0 && x.fraction == 0

def isInfinite (x : Double) : Bool := x.exponent == 2047 && x.fraction == 0

def isNaN (x : Double) : Bool := x.exponent == 2047 && x.fraction != 0

/-- Integer significand of a finite datum; its magnitude is `significand * 2 ^ scale`. -/
def significand (x : Double) : Nat :=
  if x.exponent = 0 then x.fraction else Nat.pow 2 52 + x.fraction

/-- Power of two that goes with `significand`. -/
def scale (x : Double) : Int :=
  if x.exponent = 0 then -1074 else (x.exponent : Int) - 1075

/-- `2 ^ e` as a factor of a numerator. -/
def pow2 (e : Int) : Nat := Nat.pow 2 e.toNat

/-- `10 ^ e` as a factor of a numerator. -/
def pow10 (e : Int) : Nat := Nat.pow 10 e.toNat

/-- Numerator of the magnitude of a finite datum. -/
def numerator (x : Double) : Nat := x.significand * pow2 x.scale

/-- Denominator of the magnitude of a finite datum. -/
def denominator (x : Double) : Nat := pow2 (-x.scale)

/-- The quotient rounded to an integer, a half going to the even neighbour. -/
def roundDiv (num den : Nat) : Nat :=
  let q := num / den
  let r := num % den
  if den < 2 * r || (2 * r == den && q % 2 == 1) then q + 1 else q

/-- The least power of two at which the quotient has at most 53 binary digits. -/
def scaleOf (num den : Nat) : Int :=
  let e : Int := (Nat.log2 num : Int) - (Nat.log2 den : Int) - 53
  let e := if Nat.pow 2 53 ≤ num * pow2 (-e) / (den * pow2 e) then e + 1 else e
  max e (-1074)

/-- The positive datum nearest to `num / den`, ties to even; `none` if it lies beyond the largest
finite datum. -/
def ofRatio (num den : Nat) : Option Double :=
  if num = 0 then some zero
  else
    let e := scaleOf num den
    let q := roundDiv (num * pow2 (-e)) (den * pow2 e)
    if q < Nat.pow 2 52 then some ⟨false, 0, q⟩
    else
      let wide := q == Nat.pow 2 53
      let exponent := (e + 1075 + if wide then 1 else 0).toNat
      if exponent < 2047 then some ⟨false, exponent, if wide then 0 else q - Nat.pow 2 52⟩ else none

/-- The datum nearest to an integer of at most 1024 binary digits. -/
def ofNat? (n : Nat) : Option Double := ofRatio n 1

end Double

end Scoping
