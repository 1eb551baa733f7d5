/-
This file computes powers as the exponential of a multiple of a logarithm.
-/

import Reckoner.Approximation.Exponential
import Reckoner.Approximation.Logarithm
import Reckoner.Scalar.Binary64

namespace Reckoner.Power

/-- An odd number is one away from a multiple of two. The remainder is exact, so that it tells of
numbers of any size. -/
def isOdd (exponent : Float) : Bool := Scalar.magnitude (exponent % 2.0) == 1.0

def isWhole (exponent : Float) : Bool := exponent % 2.0 == 0.0 || isOdd exponent

/-- A power of zero is zero for any exponent, and a negative base needs a whole exponent. -/
def approximate (base exponent : Float) : Except DomainError (Approximation Float) :=
  if base == 0.0 then .ok (.exact 0.0)
  else if exponent == 0.0 then .ok (.exact 1.0)
  else if base < 0.0 && !isWhole exponent then .error .fractionalPowerOfNegative
  else do
    let logarithm ← Logarithm.approximate Logarithm.standard (Scalar.magnitude base)
    let magnitude := Exponential.approximate Exponential.standard (exponent * logarithm.value)
    let value := if base < 0.0 && isOdd exponent then -magnitude.value else magnitude.value
    return ⟨value, logarithm.notices ++ magnitude.notices⟩

end Reckoner.Power
