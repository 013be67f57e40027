namespace SchemaLoom

/-! Double-precision numbers, kept exactly: a finite one is a sign and
`significand * 2 ^ exponent` with a significand below `2 ^ 53`. -/

inductive Binary64 where
  | finite (negative : Bool) (significand : Nat) (exponent : Int)
  | infinite (negative : Bool)
  | nan
  deriving DecidableEq, Repr

namespace Binary64

/-- The exponent of the least number above zero. -/
def minExponent : Int := -1074

/-- The exponent of the largest finite numbers. -/
def maxExponent : Int := 971

/-- `numerator / denominator` to the nearest natural number, a half to the even
neighbour. -/
def roundDiv (numerator denominator : Nat) : Nat :=
  let quotient := numerator / denominator
  let twice := 2 * (numerator % denominator)
  if twice < denominator then quotient
  else if denominator < twice then quotient + 1
  else quotient + quotient % 2

/-- `numerator / (denominator * 2 ^ exponent)` as a fraction of naturals. -/
def scale (numerator denominator : Nat) (exponent : Int) : Nat × Nat :=
  if exponent < 0 then (numerator * Nat.pow 2 (-exponent).toNat, denominator)
  else (numerator, denominator * Nat.pow 2 exponent.toNat)

/-- The exponent that leaves a significand of 53 bits for a fraction, or the
least exponent if that is larger. -/
def fitExponent (numerator denominator : Nat) : Int :=
  let guess : Int := (numerator.log2 : Int) - denominator.log2 - 53
  let (top, bottom) := scale numerator denominator guess
  let fitted := if top / bottom < Nat.pow 2 53 then guess else guess + 1
  max fitted minExponent

/-- The double nearest to a fraction; ties go to the even significand, and what
rounds beyond the largest double is infinite. -/
def ofFraction (negative : Bool) (numerator denominator : Nat) : Binary64 :=
  if numerator = 0 then .finite negative 0 minExponent
  else
    let exponent := fitExponent numerator denominator
    let (top, bottom) := scale numerator denominator exponent
    let rounded := roundDiv top bottom
    let (significand, exponent) :=
      if rounded = Nat.pow 2 53 then (Nat.pow 2 52, exponent + 1)
      else (rounded, exponent)
    if maxExponent < exponent then .infinite negative
    else .finite negative significand exponent

/-- The double nearest to `digits * 10 ^ exponent`.  Beyond `10 ^ 310` all is
infinite and below `10 ^ -330` all is zero, so the exponent is never expanded
there. -/
def ofDecimal (negative : Bool) (digits : Nat) (exponent : Int) : Binary64 :=
  let magnitude : Int := (Nat.toDigits 10 digits).length + exponent
  if digits = 0 ∨ magnitude < -330 then .finite negative 0 minExponent
  else if 310 < magnitude then .infinite negative
  else if exponent < 0 then
    ofFraction negative digits (Nat.pow 10 (-exponent).toNat)
  else
    ofFraction negative (digits * Nat.pow 10 exponent.toNat) 1

end Binary64

end SchemaLoom
