/-
This file says on which side of zero a double lies, infinite ones included, and that the opposite
double lies on the other. Products and sums of opposite doubles are opposite, whatever is rounded,
but for the sign of a sum that is zero.
-/

import Reckoner.Proofs.RoundedArithmetic

namespace Reckoner.Binary64

open Float.Model (UnpackedFloat Format)
open Float.Model.UnpackedFloat

variable {x y : Float}

/-- Whatever the double is, a minus sign takes no rounding. -/
theorem unpack_neg_eq (x : Float) : (-x).toModel.unpack = x.toModel.unpack.neg := by
  change (Float.Model.pack x.toModel.unpack.neg).unpack = x.toModel.unpack.neg
  cases read : x.toModel.unpack with
  | notANumber => rfl
  | infinity sign | zero sign => cases sign <;> rfl
  | finite sign mantissa exponent positive => exact (fits_of_unpack read).unpack_pack (-sign)

/-- Two minus signs leave every double as it was, bit for bit. -/
@[simp] theorem neg_neg_eq (x : Float) : - -x = x := by
  apply eq_of_unpack
  rw [unpack_neg_eq, unpack_neg_eq]
  cases x.toModel.unpack with
  | notANumber => rfl
  | infinity sign | zero sign | finite sign => cases sign <;> rfl

/-- The order of the double and zero, if it is a number. -/
def side? (x : Float) : Option Ordering := x.toModel.unpack.compare (.zero .positive)

/-- The opposite double lies on the other side of zero. -/
@[simp] theorem side_neg (x : Float) : side? (-x) = (side? x).map Ordering.swap := by
  rw [side?, side?, unpack_neg_eq]
  cases x.toModel.unpack with
  | notANumber => rfl
  | infinity sign | zero sign | finite sign => cases sign <;> rfl

/-- A double is below zero exactly if it lies on the lower side. -/
theorem lt_zero_iff : x < 0.0 ↔ side? x = some .lt := by
  change decide (x.toModel.unpack.lt (.zero .positive) = true) = true ↔ _
  rw [decide_eq_true_iff, UnpackedFloat.lt, beq_iff_eq, side?]

/-- A double is at most zero exactly if it lies on the lower side or on neither. -/
theorem le_zero_iff : x ≤ 0.0 ↔ side? x = some .lt ∨ side? x = some .eq := by
  change decide (x.toModel.unpack.le (.zero .positive) = true) = true ↔ _
  rw [decide_eq_true_iff, UnpackedFloat.le, side?]
  rcases x.toModel.unpack.compare (.zero .positive) with _ | _ | _ | _ <;> decide

/-- Zero lies on the other side of a double than the double lies of zero. -/
theorem compare_zero_left (number : UnpackedFloat) :
    UnpackedFloat.compare (.zero .positive) number =
      (number.compare (.zero .positive)).map Ordering.swap := by
  cases number with
  | notANumber => rfl
  | infinity sign | zero sign | finite sign => cases sign <;> rfl

/-- A double is above zero exactly if it lies on the upper side. -/
theorem zero_lt_iff : 0.0 < x ↔ side? x = some .gt := by
  change decide (UnpackedFloat.lt (.zero .positive) x.toModel.unpack = true) = true ↔ _
  rw [decide_eq_true_iff, UnpackedFloat.lt, beq_iff_eq, compare_zero_left, side?]
  rcases x.toModel.unpack.compare (.zero .positive) with _ | _ | _ | _ <;> decide

/-- A double is at least zero exactly if it lies on the upper side or on neither. -/
theorem zero_le_iff : 0.0 ≤ x ↔ side? x = some .gt ∨ side? x = some .eq := by
  change decide (UnpackedFloat.le (.zero .positive) x.toModel.unpack = true) = true ↔ _
  rw [decide_eq_true_iff, UnpackedFloat.le, compare_zero_left, side?]
  rcases x.toModel.unpack.compare (.zero .positive) with _ | _ | _ | _ <;> decide

/-- A double equals zero exactly if it lies on neither side. -/
theorem beq_zero_iff : (x == 0.0) = true ↔ side? x = some .eq := by
  change x.toModel.unpack.beq (.zero .positive) = true ↔ _
  rw [UnpackedFloat.beq, beq_iff_eq, side?]

/-- Every number lies on a side or on neither, infinite ones included. -/
theorem exists_side (number : x.isNaN = false) : ∃ order, side? x = some order := by
  change x.toModel.unpack.isNaN = false at number
  unfold side?
  cases read : x.toModel.unpack with
  | notANumber =>
      rw [read] at number
      contradiction
  | infinity sign | zero sign | finite sign => cases sign <;> exact ⟨_, rfl⟩

/-- A number is below zero or at least zero. -/
theorem lt_zero_or_zero_le (number : x.isNaN = false) : x < 0.0 ∨ 0.0 ≤ x := by
  obtain ⟨order, side⟩ := exists_side number
  rw [lt_zero_iff, zero_le_iff, side]
  cases order <;> decide

/-- No double is both at least zero and below it. -/
theorem not_lt_zero_of_zero_le (nonneg : 0.0 ≤ x) : ¬x < 0.0 := by
  rw [zero_le_iff] at nonneg
  rw [lt_zero_iff]
  rcases nonneg with side | side <;> rw [side] <;> decide

/-- The opposite of a double below zero is at least zero. -/
theorem zero_le_neg_of_lt_zero (negative : x < 0.0) : 0.0 ≤ -x := by
  rw [zero_le_iff, side_neg, lt_zero_iff.mp negative]
  exact .inl rfl

/-- No magnitude of a number is below zero. -/
theorem zero_le_magnitude (number : x.isNaN = false) : 0.0 ≤ Scalar.magnitude x := by
  unfold Scalar.magnitude
  split
  · next negative => exact zero_le_neg_of_lt_zero negative
  · next notNegative => exact (lt_zero_or_zero_le number).resolve_left notNegative

/-- Nothing but a zero lies on neither side. -/
theorem fraction_of_beq_zero (zero : (x == 0.0) = true) : fraction? x = some 0 := by
  rw [beq_zero_iff, side?] at zero
  unfold fraction?
  cases read : x.toModel.unpack with
  | zero sign => rfl
  | notANumber =>
      rw [read] at zero
      contradiction
  | infinity sign | finite sign =>
      rw [read] at zero
      cases sign <;> simp [UnpackedFloat.compare] at zero

/-- A zero has either sign. -/
theorem beq_zero_iff_unpack :
    (x == 0.0) = true ↔ ∃ sign, x.toModel.unpack = .zero sign := by
  rw [beq_zero_iff, side?]
  cases x.toModel.unpack with
  | zero sign => exact iff_of_true rfl ⟨sign, rfl⟩
  | notANumber => exact iff_of_false nofun nofun
  | infinity sign | finite sign => exact iff_of_false (by cases sign <;> nofun) nofun

/-- The opposite of a zero is a zero, and of nothing else. -/
theorem beq_zero_neg_iff : (-x == 0.0) = true ↔ (x == 0.0) = true := by
  rw [beq_zero_iff, beq_zero_iff, side_neg]
  rcases side? x with _ | _ | _ | _ <;> decide

/-- Adding a zero changes nothing but the sign of a zero. -/
theorem add_of_beq_zero (zero : (x == 0.0) = true) (some : ¬(y == 0.0) = true) : x + y = y := by
  obtain ⟨sign, read⟩ := beq_zero_iff_unpack.mp zero
  rw [beq_zero_iff_unpack] at some
  have same : add Format.binary64 x.toModel.unpack y.toModel.unpack = y.toModel.unpack := by
    rw [read]
    generalize y.toModel.unpack = number at *
    cases number with
    | zero other => exact absurd ⟨other, rfl⟩ some
    | _ => rfl
  exact ofModel_pack same.symm

/-- Two zeros add up to a zero, whatever their signs are. -/
theorem beq_zero_add (zero : (x == 0.0) = true) (other : (y == 0.0) = true) :
    (x + y == 0.0) = true := by
  obtain ⟨sign, read⟩ := beq_zero_iff_unpack.mp zero
  obtain ⟨otherSign, otherRead⟩ := beq_zero_iff_unpack.mp other
  rw [← ofModel_pack read, ← ofModel_pack otherRead]
  cases sign <;> cases otherSign <;> decide

/-- Zeros with different signs are in the same place of the order. -/
theorem le_iff_of_beq_zero (zero : (x == 0.0) = true) (other : (y == 0.0) = true) (bound : Float) :
    x ≤ bound ↔ y ≤ bound := by
  obtain ⟨sign, read⟩ := beq_zero_iff_unpack.mp zero
  obtain ⟨otherSign, otherRead⟩ := beq_zero_iff_unpack.mp other
  change decide (x.toModel.unpack.le bound.toModel.unpack = true) = true ↔
    decide (y.toModel.unpack.le bound.toModel.unpack = true) = true
  rw [read, otherRead]
  cases bound.toModel.unpack with
  | infinity boundSign | finite boundSign => cases boundSign <;> exact Iff.rfl
  | _ => exact Iff.rfl

/-- The magnitude of a zero is a zero, which may have kept its sign. -/
theorem beq_zero_magnitude (zero : (x == 0.0) = true) : (Scalar.magnitude x == 0.0) = true := by
  unfold Scalar.magnitude
  split
  · exact beq_zero_neg_iff.mpr zero
  · exact zero

/-- Opposite doubles have the same magnitude, bit for bit, unless they are zeros. -/
theorem magnitude_neg (some : ¬(x == 0.0) = true) : Scalar.magnitude (-x) = Scalar.magnitude x := by
  rw [beq_zero_iff_unpack] at some
  cases read : x.toModel.unpack with
  | zero sign => exact absurd ⟨sign, read⟩ some
  | finite sign mantissa exponent positive =>
      apply eq_of_unpack
      rw [unpack_magnitude read, unpack_magnitude (unpack_neg read)]
  | notANumber =>
      rw [← ofModel_pack read]
      exact Float.toBits_inj.mp (by decide)
  | infinity sign =>
      rw [← ofModel_pack read]
      cases sign <;> exact Float.toBits_inj.mp (by decide)

/-- A bound on the magnitude holds for both of two opposite doubles, zeros included. -/
theorem magnitude_neg_le_iff (x bound : Float) :
    Scalar.magnitude (-x) ≤ bound ↔ Scalar.magnitude x ≤ bound := by
  by_cases zero : (x == 0.0) = true
  · have opposite := beq_zero_magnitude (beq_zero_neg_iff.mpr zero)
    exact le_iff_of_beq_zero opposite (beq_zero_magnitude zero) bound
  · rw [magnitude_neg zero]

/-- The sign is kept apart from all that is rounded. -/
theorem roundWithAccuracy_neg (sign : Sign) (mantissa : Nat) (exponent : Int)
    (accuracy : Accuracy) :
    roundWithAccuracy Format.binary64 (-sign) mantissa exponent accuracy =
      (roundWithAccuracy Format.binary64 sign mantissa exponent accuracy).neg := by
  simp only [roundWithAccuracy]
  split <;> rfl

/-- Opposite numbers are rounded to opposite ones. -/
theorem round_neg (sign : Sign) (mantissa : Nat) (exponent : Int) :
    UnpackedFloat.round Format.binary64 (-sign) mantissa exponent =
      (UnpackedFloat.round Format.binary64 sign mantissa exponent).neg :=
  roundWithAccuracy_neg sign _ _ _

/-- Opposite whole mantissas are rounded to opposite numbers, where there is a sign to keep. -/
theorem normalize_neg {number : Int} (some : number ≠ 0) (exponent : Int) (sign : Sign) :
    UnpackedFloat.normalize Format.binary64 (-number) exponent sign =
      (UnpackedFloat.normalize Format.binary64 number exponent sign).neg := by
  rcases Int.lt_or_gt_of_ne some with below | above
  · have opposite : 0 < -number := Int.neg_pos_of_neg below
    simp only [UnpackedFloat.normalize, Int.compare_eq_lt.mpr below, Int.compare_eq_gt.mpr opposite]
    exact round_neg .negative _ _
  · have opposite : -number < 0 := Int.neg_neg_of_pos above
    simp only [UnpackedFloat.normalize, Int.compare_eq_gt.mpr above, Int.compare_eq_lt.mpr opposite,
      neg_neg]
    exact round_neg .positive _ _

/-- Packing may lose everything but the sign. -/
theorem unpack_pack_neg (number : UnpackedFloat) :
    (Float.Model.pack number.neg).unpack = (Float.Model.pack number).unpack.neg := by
  cases number with
  | notANumber => rfl
  | infinity sign | zero sign => cases sign <;> rfl
  | finite sign mantissa exponent positive =>
      have components (biased : BitVec 11) (fraction : BitVec 52) :
          unpack Format.binary64 (packComponents Format.binary64 (-sign) biased fraction) =
            (unpack Format.binary64 (packComponents Format.binary64 sign biased fraction)).neg := by
        rw [unpack_packComponents, unpack_packComponents]
        split
        · split <;> rfl
        · split
          · split <;> rfl
          · rfl
      change unpack Format.binary64 (pack Format.binary64 _) =
        (unpack Format.binary64 (pack Format.binary64 _)).neg
      simp only [UnpackedFloat.neg, pack]
      split
      · cases sign <;> rfl
      · split <;> exact components _ _

/-- The bits of the opposite number are those of the opposite double. -/
theorem ofModel_pack_neg (number : UnpackedFloat) :
    Float.ofModel (.pack number.neg) = -Float.ofModel (.pack number) := by
  apply eq_of_unpack
  rw [unpack_neg_eq]
  exact unpack_pack_neg number

/-- A product has the opposite sign if its first factor has. -/
theorem mul_neg_left (number other : UnpackedFloat) :
    mul Format.binary64 number.neg other = (mul Format.binary64 number other).neg := by
  have opposite (first second : Sign) : -first * second = -(first * second) := by
    cases first <;> cases second <;> rfl
  cases number <;> cases other <;>
    simp only [UnpackedFloat.neg, mul, opposite, roundWithAccuracy_neg]

/-- Neither the sign of a product nor what is rounded depends on the order of its factors. -/
theorem mul_comm_unpacked (number other : UnpackedFloat) :
    mul Format.binary64 number other = mul Format.binary64 other number := by
  have swapped (first second : Sign) : first * second = second * first := by
    cases first <;> cases second <;> rfl
  cases number with
  | finite sign mantissa exponent =>
      cases other with
      | finite otherSign otherMantissa otherExponent =>
          simp only [mul, swapped sign, Nat.mul_comm mantissa, Int.add_comm exponent]
      | _ => simp only [mul, swapped sign]
  | infinity sign | zero sign => cases other <;> simp only [mul, swapped sign]
  | notANumber => cases other <;> rfl

/-- The product with an opposite double is the opposite product, bit for bit. -/
theorem neg_mul_eq (x y : Float) : -x * y = -(x * y) := by
  change Float.ofModel (.pack (mul Format.binary64 (-x).toModel.unpack y.toModel.unpack)) = _
  rw [unpack_neg_eq, mul_neg_left, ofModel_pack_neg]
  rfl

/-- The factors of a product of doubles can be exchanged. -/
theorem mul_comm_eq (x y : Float) : x * y = y * x :=
  congrArg (fun number => Float.ofModel (.pack number)) (mul_comm_unpacked _ _)

/-- A sum that is zero is the positive zero, also where both numbers are turned around. -/
theorem add_neg_neg (number other : UnpackedFloat) :
    add Format.binary64 number.neg other.neg = (add Format.binary64 number other).neg ∨
      add Format.binary64 number other = .zero .positive ∧
        add Format.binary64 number.neg other.neg = .zero .positive := by
  cases number with
  | finite sign mantissa exponent =>
      cases other with
      | finite otherSign otherMantissa otherExponent =>
          simp only [UnpackedFloat.neg, add, apply_neg, ← Int.neg_add]
          generalize sign.apply _ + otherSign.apply _ = total
          rcases Decidable.eq_or_ne total 0 with rfl | some
          · exact .inr ⟨rfl, rfl⟩
          · exact .inl (normalize_neg some _ _)
      | _ => exact .inl rfl
  | infinity sign | zero sign =>
      cases other with
      | infinity otherSign | zero otherSign =>
          cases sign <;> cases otherSign <;> first | exact .inl rfl | exact .inr ⟨rfl, rfl⟩
      | _ => exact .inl rfl
  | notANumber => exact .inl rfl

/-- The sum of opposite doubles is the opposite sum, unless both are zeros of any sign. -/
theorem neg_add_neg_eq (x y : Float) :
    -x + -y = -(x + y) ∨ (x + y == 0.0) = true ∧ (-x + -y == 0.0) = true := by
  have sum (first second : Float) : first + second =
    .ofModel (.pack (add Format.binary64 first.toModel.unpack second.toModel.unpack)) := rfl
  rw [sum, sum, unpack_neg_eq, unpack_neg_eq]
  rcases add_neg_neg x.toModel.unpack y.toModel.unpack with opposite | ⟨none, other⟩
  · rw [opposite, ofModel_pack_neg]
    exact .inl rfl
  · rw [none, other]
    exact .inr ⟨by decide, by decide⟩

end Reckoner.Binary64
