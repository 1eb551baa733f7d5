/-
This file says which operations give numbers where their arguments are numbers, infinite ones
included, and on which side of a finite double a number lies.
-/

import Reckoner.Proofs.Negation
import Reckoner.Proofs.OrderedRounding

namespace Reckoner.Binary64

open Float.Model (UnpackedFloat Format)
open Float.Model.UnpackedFloat

section Order

variable {x y : Float} {value : ℚ}

/-- Of two doubles in strict order neither fails to be a number, so that they are in order. -/
theorem le_of_lt_number (less : x < y) : x ≤ y := by
  change decide (x.toModel.unpack.lt y.toModel.unpack = true) = true at less
  change decide (x.toModel.unpack.le y.toModel.unpack = true) = true
  rw [decide_eq_true_iff, UnpackedFloat.lt, beq_iff_eq] at less
  rw [decide_eq_true_iff, UnpackedFloat.le, less]
  rfl

/-- Nothing but a number is at most as large as anything. -/
theorem isNaN_of_le_left (le : x ≤ y) : x.isNaN = false := by
  obtain ⟨place, _, same, _⟩ := le_iff_place.mp le
  have itself : x ≤ x := le_iff_place.mpr ⟨place, place, same, same, le_rfl⟩
  exact (isNumber_iff x).mp (decide_eq_true itself)

/-- A finite double is a number. -/
theorem isNaN_of_fraction (fraction : fraction? x = some value) : x.isNaN = false :=
  (isNumber_iff x).mp (isNumber_of_fraction fraction)

/-- A number is infinite or finite. -/
theorem infinity_or_fraction (number : x.isNaN = false) :
    (∃ sign, x.toModel.unpack = .infinity sign) ∨ ∃ value, fraction? x = some value := by
  rcases place_cases x with ⟨value, fraction, _⟩ | ⟨read, _⟩ | ⟨read, _⟩ | ⟨read, _⟩
  · exact .inr ⟨value, fraction⟩
  · exact .inl ⟨_, read⟩
  · exact .inl ⟨_, read⟩
  · change x.toModel.unpack.isNaN = false at number
    rw [read] at number
    contradiction

/-- Every finite double lies below the positive infinity. -/
theorem lt_infinity (read : x.toModel.unpack = .infinity .positive)
    (fraction : fraction? y = some value) : y < x := by
  change decide (y.toModel.unpack.lt x.toModel.unpack = true) = true
  rw [decide_eq_true_iff, UnpackedFloat.lt, read, (compare_infinity .positive fraction).2]
  rfl

/-- Every finite double lies above the negative infinity. -/
theorem infinity_lt (read : x.toModel.unpack = .infinity .negative)
    (fraction : fraction? y = some value) : x < y := by
  change decide (x.toModel.unpack.lt y.toModel.unpack = true) = true
  rw [decide_eq_true_iff, UnpackedFloat.lt, read, (compare_infinity .negative fraction).1]
  rfl

/-- Only what is no number can be neither above a finite double nor at most as large. -/
theorem le_fraction_of_not_lt (number : x.isNaN = false) (fraction : fraction? y = some value)
    (notLess : ¬y < x) : x ≤ y := by
  rcases infinity_or_fraction number with ⟨sign, infinite⟩ | ⟨own, ownFraction⟩
  · cases sign with
    | positive => exact absurd (lt_infinity infinite fraction) notLess
    | negative => exact infinity_le infinite fraction
  · rw [lt_iff fraction ownFraction, not_lt] at notLess
    exact (le_iff ownFraction fraction).mpr notLess

/-- A number that is not below a finite double is at least as large. -/
theorem fraction_le_of_not_lt (number : x.isNaN = false) (fraction : fraction? y = some value)
    (notLess : ¬x < y) : y ≤ x := by
  rcases infinity_or_fraction number with ⟨sign, infinite⟩ | ⟨own, ownFraction⟩
  · cases sign with
    | positive => exact le_infinity infinite fraction
    | negative => exact absurd (infinity_lt infinite fraction) notLess
  · rw [lt_iff ownFraction fraction, not_lt] at notLess
    exact (le_iff fraction ownFraction).mpr notLess

end Order

section Operations

variable {x y : Float} {value : ℚ}

/-- What keeps the order of an exact result is a number, infinite or not. -/
theorem KeepsOrder.isNaN (keeps : KeepsOrder x value) : x.isNaN = false := by
  rcases le_total 0 value with nonneg | nonpos
  · exact isNaN_of_le (keeps.least fraction_zero nonneg)
  · exact isNaN_of_le_left (keeps.most fraction_zero nonpos)

/-- An infinity is still a number when it has been written to its bits. -/
theorem isNaN_pack_infinity (sign : Sign) :
    (Float.Model.pack (.infinity sign)).unpack.isNaN = false := by
  cases sign <;> decide

/-- The opposite of a number is a number. -/
theorem isNaN_neg (number : x.isNaN = false) : (-x).isNaN = false := by
  change x.toModel.unpack.isNaN = false at number
  change (-x).toModel.unpack.isNaN = false
  rw [unpack_neg_eq]
  cases read : x.toModel.unpack with
  | notANumber => simp [read, UnpackedFloat.isNaN] at number
  | infinity sign | zero sign | finite sign _ _ _ => rfl

/-- A whole number is rounded to a number, however large it is. -/
theorem isNaN_natCast (number : Nat) : (Float.ofNat number).isNaN = false := by
  rcases Nat.eq_zero_or_pos number with rfl | positive
  · decide
  · exact (keepsOrder_natCast positive).isNaN

/-- What is below a number and whole is a number. -/
theorem isNaN_floor (number : x.isNaN = false) : (floor x).isNaN = false := by
  unfold floor
  split
  · split
    · exact number
    · exact isNaN_natCast _
    · exact isNaN_neg (isNaN_natCast _)
  · exact number

/-- Nothing finite moves an infinite number. -/
theorem infinite_add {sign : Sign} (infinite : x.toModel.unpack = .infinity sign)
    (fraction : fraction? y = some value) : x + y = x := by
  change Float.ofModel (.pack (add Format.binary64 x.toModel.unpack y.toModel.unpack)) = x
  rw [infinite]
  rcases exists_unpack fraction with ⟨_, read, _⟩ | ⟨_, _, _, _, read, _⟩ <;> rw [read] <;>
  exact ofModel_pack infinite

/-- A sum with a finite number is a number, since an infinite one stays as it is. -/
theorem isNaN_add (number : x.isNaN = false) (fraction : fraction? y = some value) :
    (x + y).isNaN = false := by
  rcases infinity_or_fraction number with ⟨sign, infinite⟩ | ⟨own, ownFraction⟩
  · rwa [infinite_add infinite fraction]
  · exact (keepsOrder_add ownFraction fraction).isNaN

/-- A difference from a finite number is a number. -/
theorem isNaN_sub (fraction : fraction? x = some value) (number : y.isNaN = false) :
    (x - y).isNaN = false := by
  rcases infinity_or_fraction number with ⟨sign, infinite⟩ | ⟨other, otherFraction⟩
  · have difference : sub Format.binary64 x.toModel.unpack y.toModel.unpack =
        .infinity (-sign) := by
      rw [infinite]
      rcases exists_unpack fraction with ⟨_, read, _⟩ | ⟨_, _, _, _, read, _⟩ <;> rw [read] <;> rfl
    change (Float.Model.pack (sub Format.binary64 x.toModel.unpack _)).unpack.isNaN = false
    rw [difference]
    exact isNaN_pack_infinity _
  · rw [sub_eq_add_neg_of_fraction otherFraction]
    exact (keepsOrder_add fraction (fraction_neg otherFraction)).isNaN

/-- The product with a finite number above zero is a number. -/
theorem isNaN_mul (fraction : fraction? x = some value) (positive : 0 < value)
    (number : y.isNaN = false) : (x * y).isNaN = false := by
  rcases infinity_or_fraction number with ⟨sign, infinite⟩ | ⟨other, otherFraction⟩
  · obtain ⟨_, _, ⟨_, read⟩, _⟩ := exists_isPositive fraction positive
    have product : mul Format.binary64 x.toModel.unpack y.toModel.unpack =
        .infinity (.positive * sign) := by
      rw [infinite, read]
      rfl
    change (Float.Model.pack (mul Format.binary64 x.toModel.unpack _)).unpack.isNaN = false
    rw [product]
    exact isNaN_pack_infinity _
  · exact (keepsOrder_mul fraction otherFraction).isNaN

/-- The quotient by a finite number above zero is a number. -/
theorem isNaN_div (number : x.isNaN = false) (fraction : fraction? y = some value)
    (positive : 0 < value) : (x / y).isNaN = false := by
  rcases infinity_or_fraction number with ⟨sign, infinite⟩ | ⟨own, ownFraction⟩
  · obtain ⟨_, _, ⟨_, read⟩, _⟩ := exists_isPositive fraction positive
    have quotient : div Format.binary64 x.toModel.unpack y.toModel.unpack =
        .infinity (sign / .positive) := by
      rw [infinite, read]
      rfl
    change (Float.Model.pack (div Format.binary64 _ y.toModel.unpack)).unpack.isNaN = false
    rw [quotient]
    exact isNaN_pack_infinity _
  · exact (keepsOrder_div ownFraction fraction positive.ne').isNaN

end Operations

end Reckoner.Binary64
