/-
This file holds decimal numbers that are written without an exponent.
-/

import Reckoner.Decimal

namespace Reckoner

/-- The last `places` digits of the coefficient stand behind the point. -/
structure FixedPoint where
  coefficient : Nat
  places : Nat

namespace FixedPoint

def toDecimal (number : FixedPoint) : Decimal := ⟨number.coefficient, -number.places⟩

/-- A finite double is the mantissa times two to the exponent, and no digit of it is lost here. -/
def ofBinary (mantissa : Nat) (exponent : Int) : FixedPoint :=
  if 0 ≤ exponent then ⟨mantissa <<< exponent.toNat, 0⟩
  else ⟨mantissa * Nat.pow 5 (-exponent).toNat, (-exponent).toNat⟩

def digits (number : FixedPoint) : List Char := Nat.toDigits 10 number.coefficient

/-- A digit stands on either side of the point, and a whole number has none. -/
def text (number : FixedPoint) : List Char :=
  if number.places = 0 then number.digits
  else
    let padding := List.replicate (number.places + 1 - number.digits.length) '0'
    let padded := padding ++ number.digits
    let whole := padded.length - number.places
    padded.take whole ++ '.' :: padded.drop whole

/-- No zero is left at the end of the places. -/
def trimmed (coefficient : Nat) : (places : Nat) → FixedPoint
  | 0 => ⟨coefficient, 0⟩
  | places + 1 =>
      if coefficient % 10 = 0 then trimmed (coefficient / 10) places
      else ⟨coefficient, places + 1⟩

/-- The neighbours whose last `count` digits are zeros, the nearer first and the upper in a tie. -/
def neighbours (number : FixedPoint) (count : Nat) : List FixedPoint :=
  let unit := Nat.pow 10 count
  let rest := number.coefficient % unit
  let lower := trimmed (number.coefficient - rest) number.places
  let upper := trimmed (number.coefficient - rest + unit) number.places
  if 2 * rest < unit then [lower, upper] else [upper, lower]

end FixedPoint

end Reckoner
