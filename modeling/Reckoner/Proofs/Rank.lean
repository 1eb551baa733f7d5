/-
This file shows that the ranks of the doubles above zero are in the order of the doubles.
-/

import Reckoner.Proofs.OrderedRounding
import Reckoner.Proofs.Sign

namespace Reckoner.Binary64

open Float.Model (UnpackedFloat Format)
open Float.Model.UnpackedFloat

variable {x y : Float} {first second : ℚ} {mantissa otherMantissa : Nat}
  {exponent otherExponent : Int}

/-- The first bit of a double is its sign. -/
theorem rank_eq_ite (x : Float) :
    rank x = if x.toBits.toBitVec.msb then 0 else x.toBits.toNat := by
  have below : x.toBits < 0x8000000000000000 ↔ ¬2 ^ 63 ≤ x.toBits.toBitVec.toNat := by
    rw [UInt64.lt_iff_toNat_lt, Nat.not_le]
    rfl
  rw [rank, BitVec.msb_eq_decide]
  simp only [below, decide_eq_true_eq, ite_not]

/-- The rank of a double without a sign is its bits as a number. -/
theorem rank_of_isUnsigned (unsigned : IsUnsigned x) : rank x = x.toBits.toNat := by
  rw [rank_eq_ite, (isUnsigned_iff_msb unsigned.not_isNaN).mp unsigned]
  rfl

/-- A double with a sign has the lowest rank. -/
theorem rank_of_not_isUnsigned (number : x.isNaN = false) (signed : ¬IsUnsigned x) :
    rank x = 0 := by
  rw [isUnsigned_iff_msb number, Bool.not_eq_false] at signed
  rw [rank_eq_ite, signed]
  rfl

/-- The bits of the exponent stand above those of the fraction. -/
theorem toNat_packComponents (biased : BitVec 11) (fraction : BitVec 52) :
    (packComponents Format.binary64 .positive biased fraction).toNat =
      biased.toNat * 2 ^ 52 + fraction.toNat := by
  change (0#1 ++ biased ++ fraction).toNat = _
  rw [BitVec.toNat_append, ← Nat.shiftLeft_add_eq_or_of_lt fraction.isLt, Nat.shiftLeft_eq]
  congr 2
  rw [BitVec.toNat_append, ← Nat.shiftLeft_add_eq_or_of_lt biased.isLt]
  simp

/-- The leading bit of a mantissa counts as one more of the exponent. -/
theorem Fits.toNat_pack (fits : Fits mantissa exponent) :
    (pack Format.binary64 (.finite .positive mantissa exponent fits.positive)).toNat =
      (exponent + 1074).toNat * 2 ^ 52 + mantissa := by
  obtain ⟨most, least, used⟩ := fits.log2
  have bounded := fits.bounded
  have size : mantissa < 2 ^ 53 := (Nat.log2_lt fits.positive.ne').mp (Nat.lt_succ_of_le most)
  have bias : (exponent + Format.binary64.exponentBias +
      Format.binary64.mantissaBitsWithoutImplicit).toNat = (exponent + 1075).toNat := by
    simp only [Format.exponentBias]
    omega
  have below : ¬2 ^ 11 ≤ (exponent + 1075).toNat + 1 := by omega
  simp only [pack, bias, below, ↓reduceIte]
  split
  · next full =>
      have leading : 2 ^ 52 ≤ mantissa :=
        (Nat.le_log2 fits.positive.ne').mp (Nat.le_of_succ_le_succ full.ge)
      rw [toNat_packComponents, BitVec.toNat_ofNat, BitVec.toNat_ofNat]
      change _ % 2 ^ 11 * 2 ^ 52 + mantissa % 2 ^ 52 = _
      omega
  · next short =>
      have unused : mantissa.log2 ≠ 52 := fun full => short (congrArg Nat.succ full)
      obtain rfl := used.resolve_left unused
      have small : mantissa < 2 ^ 52 := (Nat.log2_lt fits.positive.ne').mp (by omega)
      rw [toNat_packComponents, BitVec.toNat_ofNat]
      change 0 * 2 ^ 52 + mantissa % 2 ^ 52 = _
      omega

/-- The exponent counts for more in the bits of a double than the mantissa does. -/
theorem rank_of_isPositive (isPositive : IsPositive x mantissa exponent) :
    rank x = (exponent + 1074).toNat * 2 ^ 52 + mantissa := by
  obtain ⟨positive, read⟩ := isPositive
  have unsigned : IsUnsigned x := by
    rw [IsUnsigned, read]
    rfl
  have packed : x.toBits.toBitVec =
      pack Format.binary64 (.finite .positive mantissa exponent positive) := by
    rw [← ofModel_pack read]
    rfl
  rw [rank_of_isUnsigned unsigned, ← (fits_of_unpack read).toNat_pack, ← packed]
  rfl

/-- Larger numbers have larger bits, also where the smaller one has no leading bit. -/
theorem Fits.rank_lt (fits : Fits mantissa exponent) (otherFits : Fits otherMantissa otherExponent)
    (less : (mantissa * 2 ^ exponent : ℚ) < otherMantissa * 2 ^ otherExponent) :
    (exponent + 1074).toNat * 2 ^ 52 + mantissa <
      (otherExponent + 1074).toNat * 2 ^ 52 + otherMantissa := by
  obtain ⟨most, least, _⟩ := fits.log2
  obtain ⟨_, _, used⟩ := otherFits.log2
  have size : mantissa < 2 ^ 53 := (Nat.log2_lt fits.positive.ne').mp (Nat.lt_succ_of_le most)
  rcases lt_trichotomy exponent otherExponent with lower | rfl | higher
  · have leading : 2 ^ 52 ≤ otherMantissa :=
      (Nat.le_log2 otherFits.positive.ne').mp (used.resolve_right (by omega)).ge
    omega
  · have unit : (0 : ℚ) < 2 ^ exponent := by positivity
    rw [mul_lt_mul_iff_left₀ unit, Nat.cast_lt] at less
    omega
  · exact absurd (otherFits.lt_of_exponent_lt fits higher) less.not_gt

/-- A number above zero has a rank above zero. -/
theorem rank_pos (fraction : fraction? x = some first) (positive : 0 < first) : 0 < rank x := by
  obtain ⟨mantissa, exponent, isPositive, _⟩ := exists_isPositive fraction positive
  rw [rank_of_isPositive isPositive]
  have some := isPositive.choose
  omega

/-- A double that is not above zero has no rank. -/
theorem rank_of_nonpos (fraction : fraction? x = some first) (nonpos : first ≤ 0) : rank x = 0 := by
  have number : x.isNaN = false := (isNumber_iff x).mp (isNumber_of_fraction fraction)
  by_cases unsigned : IsUnsigned x
  · rcases exists_unpack fraction with ⟨sign, read, _⟩ | ⟨sign, mantissa, exponent, some, read, rfl⟩
    · rw [IsUnsigned, read] at unsigned
      obtain rfl := Option.some.inj unsigned
      obtain rfl : x = 0.0 := eq_of_unpack read
      rfl
    · rw [IsUnsigned, read] at unsigned
      obtain rfl := Option.some.inj unsigned
      have above : (0 : ℚ) < mantissa * 2 ^ exponent := by positivity
      exact absurd nonpos above.not_ge
  · exact rank_of_not_isUnsigned number unsigned

/-- The rank of a number above zero exceeds that of any number below it. -/
theorem rank_lt_rank (firstFraction : fraction? x = some first)
    (secondFraction : fraction? y = some second) (less : first < second) (positive : 0 < second) :
    rank x < rank y := by
  rcases le_or_gt first 0 with nonpos | above
  · rw [rank_of_nonpos firstFraction nonpos]
    exact rank_pos secondFraction positive
  · obtain ⟨mantissa, exponent, isPositive, rfl⟩ := exists_isPositive firstFraction above
    obtain ⟨otherMantissa, otherExponent, otherPositive, rfl⟩ :=
      exists_isPositive secondFraction positive
    rw [rank_of_isPositive isPositive, rank_of_isPositive otherPositive]
    exact (fits_of_unpack isPositive.choose_spec).rank_lt
      (fits_of_unpack otherPositive.choose_spec) less

/-- No two doubles above zero have one fraction. -/
theorem eq_of_fraction_eq (firstFraction : fraction? x = some first)
    (secondFraction : fraction? y = some first) (positive : 0 < first) : x = y := by
  obtain ⟨mantissa, exponent, ⟨_, read⟩, rfl⟩ := exists_isPositive firstFraction positive
  obtain ⟨otherMantissa, otherExponent, ⟨_, otherRead⟩, same⟩ :=
    exists_isPositive secondFraction positive
  have fits := fits_of_unpack read
  have otherFits := fits_of_unpack otherRead
  rcases lt_trichotomy exponent otherExponent with lower | rfl | higher
  · exact absurd same (fits.lt_of_exponent_lt otherFits lower).ne'
  · have unit : (2 ^ exponent : ℚ) ≠ 0 := by positivity
    obtain rfl : otherMantissa = mantissa := Nat.cast_injective (mul_right_cancel₀ unit same)
    exact eq_of_unpack (read.trans otherRead.symm)
  · exact absurd same (otherFits.lt_of_exponent_lt fits higher).ne

/-- A finite double that is not above a positive one is the same double or has a lower rank. -/
theorem eq_or_rank_lt (firstFraction : fraction? x = some first)
    (secondFraction : fraction? y = some second) (le : first ≤ second) (positive : 0 < second) :
    x = y ∨ rank x < rank y := by
  rcases le.eq_or_lt with rfl | less
  · exact .inl (eq_of_fraction_eq firstFraction secondFraction positive)
  · exact .inr (rank_lt_rank firstFraction secondFraction less positive)

end Reckoner.Binary64
