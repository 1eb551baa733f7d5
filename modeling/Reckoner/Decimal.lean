/-
This file holds decimal numbers and the doubles next to them.
-/

import Reckoner.Scalar.Binary64

namespace Reckoner

/-- This is the number `coefficient` times ten to the `exponent`. -/
structure Decimal where
  coefficient : Nat
  exponent : Int

namespace Decimal

/-- Ten to this exponent is above every double, and its reciprocal is below every one but zero. -/
def exponentLimit : Nat := 400

/-- The nearest double, and the one with the even mantissa of two that are as near. -/
def toFloat (decimal : Decimal) : Float :=
  if decimal.coefficient = 0 then 0.0
  else if exponentLimit < decimal.exponent then Binary64.infinity
  else if decimal.exponent + decimal.coefficient.log2 < -exponentLimit then 0.0
  else
    Float.ofScientific decimal.coefficient (decimal.exponent < 0) decimal.exponent.natAbs

end Decimal

end Reckoner
