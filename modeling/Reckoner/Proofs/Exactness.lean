/-
This file shows that an operation whose exact result is a double has that double as its result, and
that a decimal number which is a double is read as it.
-/

import Reckoner.Decimal
import Reckoner.Proofs.Rounding

namespace Reckoner.Binary64

open Float.Model (UnpackedFloat Format totalExponent)
open Float.Model.UnpackedFloat

/-- Doubles that are read from their bits alike are equal. -/
theorem eq_of_unpack {x y : Float} (same : x.toModel.unpack = y.toModel.unpack) : x = y := by
  rw [← Float.toBits_inj, ← UInt64.toBitVec_inj]
  exact (unpack_inj_of_valid x.toModel.valid y.toModel.valid).mp same

/-- A double has the bits of what is read from them. -/
theorem ofModel_pack {x : Float} {number : UnpackedFloat} (same : x.toModel.unpack = number) :
    Float.ofModel (.pack number) = x := by
  subst same
  rw [← Float.toBits_inj, ← UInt64.toBitVec_inj]
  exact pack_unpack_of_valid x.toModel.valid

/-- A minus sign takes no rounding. -/
theorem unpack_neg {x : Float} {sign : Sign} {mantissa : Nat} {exponent : Int}
    {positive : 0 < mantissa}
    (read : x.toModel.unpack = .finite sign mantissa exponent positive) :
    (-x).toModel.unpack = .finite (-sign) mantissa exponent positive := by
  change (Float.Model.pack x.toModel.unpack.neg).unpack = _
  rw [read]
  exact (fits_of_unpack read).unpack_pack (-sign)

/-- The magnitude of a finite double has the other bits of the double. -/
theorem unpack_magnitude {x : Float} {sign : Sign} {mantissa : Nat} {exponent : Int}
    {positive : 0 < mantissa}
    (read : x.toModel.unpack = .finite sign mantissa exponent positive) :
    (Scalar.magnitude x).toModel.unpack = .finite .positive mantissa exponent positive := by
  have less : x.lt 0.0 = x.toModel.unpack.lt (.zero .positive) := by
    change decide (x.toModel.unpack.lt (.zero .positive) = true) = _
    rw [Bool.decide_eq_true]
  change (if x.lt 0.0 then -x else x).toModel.unpack = _
  rw [less, read]
  cases sign with
  | positive => exact read
  | negative => exact unpack_neg read

/-- The double is positive, and has the mantissa and the exponent. -/
def IsPositive (x : Float) (mantissa : Nat) (exponent : Int) : Prop :=
  ∃ positive, x.toModel.unpack = .finite .positive mantissa exponent positive

theorem exists_isPositive {x : Float} {value : ℚ} (fraction : fraction? x = some value)
    (positive : 0 < value) :
    ∃ mantissa exponent, IsPositive x mantissa exponent ∧ mantissa * 2 ^ exponent = value := by
  unfold fraction? at fraction
  split at fraction
  · next mantissa exponent some same =>
      exact ⟨mantissa, exponent, ⟨some, same⟩, Option.some.inj fraction⟩
  · next mantissa exponent some same =>
      obtain rfl := Option.some.inj fraction
      have magnitude : 0 < (mantissa : ℚ) * 2 ^ exponent := by positivity
      exact absurd positive (by linarith)
  · obtain rfl := Option.some.inj fraction
    exact absurd positive (lt_irrefl _)
  · contradiction
  · contradiction

variable {x y z : Float} {first second : ℚ}

/-- A quotient of doubles that is a double itself is not rounded. -/
theorem div_eq_of_fraction (firstFraction : fraction? x = some first)
    (secondFraction : fraction? y = some second) (quotient : fraction? z = some (first / second))
    (firstPositive : 0 < first) (secondPositive : 0 < second) : x / y = z := by
  obtain ⟨_, _, ⟨positive, read⟩, rfl⟩ := exists_isPositive firstFraction firstPositive
  obtain ⟨_, _, ⟨otherPositive, otherRead⟩, rfl⟩ := exists_isPositive secondFraction secondPositive
  obtain ⟨_, _, ⟨_, zRead⟩, value⟩ :=
    exists_isPositive quotient (div_pos firstPositive secondPositive)
  have fits := fits_of_unpack zRead
  change Float.ofModel (.pack (div Format.binary64 x.toModel.unpack y.toModel.unpack)) = z
  rw [read, otherRead, fits.div_eq positive otherPositive]
  · exact ofModel_pack zRead
  · rw [value, mul_div_cancel₀ _ secondPositive.ne']

/-- The product of two doubles has no lower exponent than its factors together. -/
theorem Fits.add_le {mantissa firstMantissa secondMantissa : Nat}
    {exponent firstExponent secondExponent : Int} (fits : Fits mantissa exponent)
    (firstFits : Fits firstMantissa firstExponent) (secondFits : Fits secondMantissa secondExponent)
    (same : (firstMantissa * 2 ^ firstExponent * (secondMantissa * 2 ^ secondExponent) : ℚ) =
      mantissa * 2 ^ exponent) : firstExponent + secondExponent ≤ exponent := by
  have least := mul_le_mul (zpow_le_value firstFits.positive firstExponent)
    (zpow_le_value secondFits.positive secondExponent) (by positivity) (by positivity)
  rw [same, ← zpow_add₀ two_ne_zero] at least
  have exponents := (zpow_lt_zpow_iff_right₀ one_lt_two).mp
    (least.trans_lt (value_lt_zpow fits.positive exponent))
  have sizes := fits.log2
  have firstSizes := firstFits.log2
  have secondSizes := secondFits.log2
  simp only [totalExponent] at exponents
  omega

/-- A product of doubles that is a double itself is not rounded. -/
theorem mul_eq_of_fraction (firstFraction : fraction? x = some first)
    (secondFraction : fraction? y = some second) (product : fraction? z = some (first * second))
    (firstPositive : 0 < first) (secondPositive : 0 < second) : x * y = z := by
  obtain ⟨_, _, ⟨_, read⟩, rfl⟩ := exists_isPositive firstFraction firstPositive
  obtain ⟨_, _, ⟨_, otherRead⟩, rfl⟩ := exists_isPositive secondFraction secondPositive
  obtain ⟨_, _, ⟨_, zRead⟩, value⟩ :=
    exists_isPositive product (mul_pos firstPositive secondPositive)
  have fits := fits_of_unpack zRead
  have below := fits.add_le (fits_of_unpack read) (fits_of_unpack otherRead) value.symm
  change Float.ofModel (.pack (mul Format.binary64 x.toModel.unpack y.toModel.unpack)) = z
  rw [read, otherRead]
  simp only [mul]
  rw [fits.roundWithAccuracy_eq _ _ below]
  · exact ofModel_pack zRead
  · rw [value, zpow_add₀ two_ne_zero]
    push_cast
    ring

/-- A whole number of no more bits than a mantissa has is a double. -/
theorem fits_of_log2 {number shift : Nat} (positive : 0 < number)
    (total : number.log2 + shift = 52) : Fits (number * 2 ^ shift) (-shift) := by
  have full := log2_mul_two_pow positive shift
  exact .of_log2 (by positivity) (by omega) (by omega) (by omega) (.inl (by omega))

theorem ofUInt64_eq {number shift : Nat} (positive : 0 < number)
    (total : number.log2 + shift = 52) :
    UnpackedFloat.ofUInt64 Format.binary64 number.toUInt64 =
      .finite .positive (number * 2 ^ shift) (-shift) (fits_of_log2 positive total).positive := by
  have size : number < 2 ^ 53 := (Nat.log2_lt positive.ne').mp (by omega)
  have word : number.toUInt64.toNat = number := Nat.mod_eq_of_lt (by omega)
  have target : Format.binary64.targetExponent (totalExponent number 0) = -shift := by
    simp only [Format.targetExponent, totalExponent, Format.mantissaBits, Format.minExponent]
    omega
  have sign : compare (number : Int) 0 = .gt := Int.compare_eq_gt.mpr (by omega)
  have places : (0 - -(shift : Int)).toNat = shift := by omega
  have lowest : (0 : Int) - shift = -shift := by omega
  have exact := (fits_of_log2 positive total).roundWithAccuracy_shifted .positive 0
  rw [Nat.pow_zero, Nat.mul_one, Int.natCast_zero, Int.sub_zero] at exact
  simp only [UnpackedFloat.ofUInt64, UnpackedFloat.ofNat, UnpackedFloat.ofInt,
    UnpackedFloat.normalize, word, sign, UnpackedFloat.round, decreaseExponent,
    Int.toNat_natCast]
  rw [target, places, lowest, Nat.shiftLeft_eq, exact]

theorem fraction_toFloat {number : Nat} (positive : 0 < number) (small : number < 2 ^ 53) :
    fraction? number.toUInt64.toFloat = some (number : ℚ) := by
  have log2 : number.log2 < 53 := (Nat.log2_lt positive.ne').mpr small
  obtain ⟨shift, total⟩ := Nat.exists_eq_add_of_le (Nat.le_of_lt_succ log2)
  have read : number.toUInt64.toFloat.toModel.unpack =
      .finite .positive (number * 2 ^ shift) (-shift) (by positivity) := by
    change (Float.Model.pack (UnpackedFloat.ofUInt64 Format.binary64 number.toUInt64)).unpack = _
    rw [ofUInt64_eq positive total.symm, (fits_of_log2 positive total.symm).unpack_pack]
  have power : (2 : ℚ) ^ shift ≠ 0 := by positivity
  simp only [fraction?, read, zpow_neg, zpow_natCast, Nat.cast_mul, Nat.cast_pow, Nat.cast_ofNat,
    mul_inv_cancel_right₀ power]

/-- The small powers of ten are doubles. -/
theorem fraction_powers : ∀ power : Fin 23,
    fraction? Float.exactlyRepresentablePowersOfTen[power] = some (10 ^ power.val) := by
  decide +kernel

variable {mantissa : Nat} {exponent : Int}

/-- A double that is not below one has no mantissa so small that its bits are a fraction. -/
theorem Fits.neg_le_of_le (fits : Fits mantissa exponent)
    (large : (1 : ℚ) ≤ mantissa * 2 ^ exponent) : -52 ≤ exponent := by
  have exponents := (zpow_lt_zpow_iff_right₀ one_lt_two).mp
    ((zpow_zero (2 : ℚ)).trans_le large |>.trans_lt (value_lt_zpow fits.positive exponent))
  have sizes := fits.log2
  simp only [totalExponent] at exponents
  omega

/-- A decimal number without places is not rounded where it is a double. -/
theorem Fits.roundWithAccuracy_whole (fits : Fits mantissa exponent)
    {coefficient digits : Nat} (positive : 0 < coefficient)
    (same : (coefficient * 10 ^ digits : ℚ) = mantissa * 2 ^ exponent) :
    roundWithAccuracy Format.binary64 .positive (coefficient * 2 ^ 53 * 10 ^ digits) (-53) .exact =
      .finite .positive mantissa exponent fits.positive := by
  have shifted : ((coefficient * 2 ^ 53 * 10 ^ digits : Nat) : ℚ) * 2 ^ (-53 : Int) =
      mantissa * 2 ^ exponent := by
    rw [← same, zpow_neg]
    push_cast
    norm_num
    ring
  have large : (1 : ℚ) ≤ mantissa * 2 ^ exponent := by
    rw [← same]
    exact_mod_cast Nat.mul_pos positive (Nat.pow_pos (Nat.succ_pos 9))
  have least := fits.neg_le_of_le large
  exact fits.roundWithAccuracy_eq .positive shifted (by omega)

/-- A decimal number with places is divided once, and not rounded where it is a double. -/
theorem Fits.div_pow_ten (fits : Fits mantissa exponent)
    {coefficient places : Nat} (positive : 0 < coefficient) (some : 0 < 10 ^ places)
    (same : (coefficient / 10 ^ places : ℚ) = mantissa * 2 ^ exponent) :
    div Format.binary64 (.finite .positive coefficient 0 positive)
        (.finite .positive (10 ^ places) 0 some) =
      .finite .positive mantissa exponent fits.positive := by
  have power : (10 : ℚ) ^ places ≠ 0 := by positivity
  have product : (coefficient : ℚ) * 2 ^ (0 : Int) =
      (10 ^ places : Nat) * 2 ^ (0 : Int) * (mantissa * 2 ^ exponent) := by
    rw [← same]
    push_cast
    field_simp
  exact fits.div_eq positive some .positive .positive product

/-- A decimal number that is a double is not rounded, but for the limits of its size. -/
theorem Fits.ofScientific_eq (fits : Fits mantissa exponent)
    {coefficient : Nat} {power : Int} (positive : 0 < coefficient) (most : power ≤ 2 ^ 11)
    (least : -(2 ^ 11 + coefficient.log2) ≤ power)
    (same : (coefficient : ℚ) * 10 ^ power = mantissa * 2 ^ exponent) :
    UnpackedFloat.ofScientific Format.binary64 coefficient power =
      .finite .positive mantissa exponent fits.positive := by
  have notAbove : ¬power > 2 ^ 11 := by omega
  have notBelow : ¬power < -(2 ^ 11 + coefficient.log2) := by omega
  simp only [UnpackedFloat.ofScientific, positive.ne', notAbove, notBelow, ↓reduceDIte, ↓reduceIte]
  split
  · next whole =>
      obtain ⟨digits, rfl⟩ := Int.eq_ofNat_of_zero_le whole
      rw [zpow_natCast] at same
      simp only [mul, Int.toNat_natCast, Nat.shiftLeft_eq]
      exact fits.roundWithAccuracy_whole positive same
  · next fractional =>
      obtain ⟨places, rfl⟩ : ∃ places : Nat, power = -places := ⟨power.natAbs, by omega⟩
      rw [zpow_neg, zpow_natCast, ← div_eq_mul_inv] at same
      simp only [neg_neg, Int.toNat_natCast]
      exact fits.div_pow_ten positive (Nat.pow_pos (Nat.succ_pos 9)) same

/-- Few digits are divided by a small power of ten or multiplied with it. -/
theorem ofScientific_eq_of_small {x : Float} {coefficient places : Nat} {negative : Bool}
    (positive : 0 < coefficient) (small : coefficient < 2 ^ 53 ∧ places ≤ 22)
    (fraction : fraction? x = some
      (if negative then coefficient / 10 ^ places else coefficient * 10 ^ places : ℚ)) :
    Float.ofScientific coefficient negative places = x := by
  have digits := fraction_toFloat positive small.1
  have power := fraction_powers ⟨places, by omega⟩
  have digitsPositive : (0 : ℚ) < coefficient := by exact_mod_cast positive
  have powerPositive : (0 : ℚ) < 10 ^ places := by positivity
  unfold Float.ofScientific
  rw [dif_pos small]
  cases negative with
  | false => exact mul_eq_of_fraction digits power fraction digitsPositive powerPositive
  | true => exact div_eq_of_fraction digits power fraction digitsPositive powerPositive

end Reckoner.Binary64

namespace Reckoner.Decimal

open Binary64
open Float.Model (totalExponent)

theorem zpow_three_le {exponent : Int} (whole : 0 ≤ exponent) :
    (2 : ℚ) ^ (3 * exponent) ≤ 10 ^ exponent := by
  rw [zpow_mul]
  exact zpow_le_zpow_left₀ whole (by norm_num) (by norm_num)

theorem le_zpow_three {exponent : Int} (fractional : exponent ≤ 0) :
    (10 : ℚ) ^ exponent ≤ 2 ^ (3 * exponent) := by
  have opposite := zpow_three_le (Int.neg_nonneg_of_nonpos fractional)
  rw [mul_neg, zpow_neg, zpow_neg] at opposite
  exact (inv_le_inv₀ (by positivity) (by positivity)).mp opposite

/-- A decimal number that is a double is neither too large nor too small to be read. -/
theorem exponent_bounds {decimal : Decimal} {mantissa : Nat} {exponent : Int}
    (fits : Fits mantissa exponent) (positive : 0 < decimal.coefficient)
    (same : (decimal.coefficient : ℚ) * 10 ^ decimal.exponent = mantissa * 2 ^ exponent) :
    decimal.exponent ≤ 400 ∧ -400 ≤ decimal.exponent + decimal.coefficient.log2 := by
  have sizes := fits.log2
  have bounded := fits.bounded
  rcases Int.le_total 0 decimal.exponent with whole | fractional
  · have power := zpow_three_le whole
    have least : (2 : ℚ) ^ (3 * decimal.exponent) ≤ mantissa * 2 ^ exponent := by
      rw [← same]
      refine power.trans (le_mul_of_one_le_left (by positivity) ?_)
      exact_mod_cast positive
    have exponents := (zpow_lt_zpow_iff_right₀ one_lt_two).mp
      (least.trans_lt (value_lt_zpow fits.positive exponent))
    simp only [totalExponent] at exponents
    omega
  · have most : (mantissa * 2 ^ exponent : ℚ) ≤
        decimal.coefficient * 2 ^ (3 * decimal.exponent) := by
      rw [← same]
      gcongr
      exact le_zpow_three fractional
    have exponents := (zpow_lt_zpow_iff_right₀ one_lt_two).mp
      ((zpow_le_value fits.positive exponent).trans most |>.trans_lt (value_lt_zpow positive _))
    simp only [totalExponent] at exponents
    omega

theorem zpow_eq_of_sign (exponent : Int) :
    (10 : ℚ) ^ exponent =
      if exponent < 0 then (10 ^ exponent.natAbs)⁻¹ else 10 ^ exponent.natAbs := by
  cases exponent with
  | ofNat power => rfl
  | negSucc power =>
      rw [if_pos (Int.negSucc_lt_zero power), zpow_negSucc, Int.natAbs_negSucc]

theorem eq_of_sign (exponent : Int) :
    (if exponent < 0 then Int.negOfNat exponent.natAbs else Int.ofNat exponent.natAbs) =
      exponent := by
  cases exponent with
  | ofNat power => rfl
  | negSucc power =>
      rw [if_pos (Int.negSucc_lt_zero power)]
      rfl

/-- A decimal number that is a double is read as this double. -/
theorem toFloat_eq {decimal : Decimal} {x : Float} (positive : 0 < decimal.coefficient)
    (fraction : fraction? x = some (decimal.coefficient * 10 ^ decimal.exponent : ℚ)) :
    decimal.toFloat = x := by
  obtain ⟨mantissa, exponent, ⟨some, read⟩, same⟩ := exists_isPositive fraction (by positivity)
  have fits := fits_of_unpack read
  obtain ⟨most, least⟩ := exponent_bounds fits positive same.symm
  have notLarge : ¬(exponentLimit : Int) < decimal.exponent := by
    simp only [exponentLimit]
    omega
  have notSmall : ¬decimal.exponent + decimal.coefficient.log2 < -(exponentLimit : Int) := by
    simp only [exponentLimit]
    omega
  rw [toFloat, if_neg positive.ne', if_neg notLarge, if_neg notSmall]
  by_cases small : decimal.coefficient < 2 ^ 53 ∧ decimal.exponent.natAbs ≤ 22
  · apply ofScientific_eq_of_small positive small
    rw [fraction, zpow_eq_of_sign]
    split <;> simp_all [div_eq_mul_inv]
  · have power := eq_of_sign decimal.exponent
    unfold Float.ofScientific
    rw [dif_neg small]
    simp only [decide_eq_true_eq, power]
    rw [Float.Model.ofScientific, fits.ofScientific_eq positive (by omega) (by omega) same.symm]
    exact ofModel_pack read

end Reckoner.Decimal
