/-
This file makes the fractions a scalar type, on which the approximations run without rounding.
-/

import Mathlib.Data.Rat.Floor
import Reckoner.Scalar

namespace Reckoner

open Float.Model (UnpackedFloat)

/-- Every finite double is a fraction. -/
def Binary64.fraction? (x : Float) : Option ℚ :=
  match x.toModel.unpack with
  | .finite .positive mantissa exponent _ => some (mantissa * (2 : ℚ) ^ exponent)
  | .finite .negative mantissa exponent _ => some (-(mantissa * (2 : ℚ) ^ exponent))
  | .zero _ => some 0
  | .infinity _ | .notANumber => none

instance : Scalar ℚ where
  decideLess := inferInstance
  decideAtMost := inferInstance
  isFinite _ := true
  floor x := (⌊x⌋ : ℚ)
  rank x := ⌊x⌋.toNat
  ofFloat x := (Binary64.fraction? x).getD 0

@[simp] theorem Scalar.magnitude_eq_abs (x : ℚ) : Scalar.magnitude x = |x| := by
  unfold Scalar.magnitude
  split
  · next negative => exact (abs_of_neg negative).symm
  · next nonneg => exact (abs_of_nonneg (not_lt.mp nonneg)).symm

end Reckoner
