/-
This file says what the remainder of doubles is: the exact remainder of a division that is cut
towards zero. It has no more bits than one of the two numbers, so that it is a double itself.
-/

import Reckoner.Proofs.Comparison

namespace Reckoner.Binary64

open Float.Model (UnpackedFloat Format totalExponent)
open Float.Model.UnpackedFloat

variable {mantissa : Nat} {exponent : Int}

/-- A number with no more bits than a mantissa has is not rounded. -/
theorem fraction_round (positive : 0 < mantissa) (size : mantissa < 2 ^ 53)
    (least : -1074 ≤ exponent) (most : exponent ≤ 971) (sign : Sign) :
    fraction? (.ofModel (.pack (UnpackedFloat.round Format.binary64 sign mantissa exponent))) =
      some (signed sign (mantissa * 2 ^ exponent)) := by
  obtain ⟨shift, lowest, rounded⟩ := exists_round positive exponent sign
  have bits : mantissa.log2 < 53 := (Nat.log2_lt positive.ne').mpr size
  have shifted := log2_mul_two_pow positive shift
  rw [targetExponent_eq, totalExponent] at lowest
  have fits : Fits (mantissa * 2 ^ shift) (exponent - shift) :=
    .of_log2 (by positivity) (by omega) (by omega) (by omega) (by omega)
  have value : ((mantissa * 2 ^ shift : Nat) : ℚ) * 2 ^ (exponent - shift) =
      mantissa * 2 ^ exponent := value_eq_of_shift rfl rfl
  rw [rounded, fits.roundWithAccuracy_eq sign rfl le_rfl, fits.fraction_pack, value]

/-- A whole number of no more bits is not rounded either, whatever its sign is. -/
theorem fraction_normalize {number : Int} (size : number.natAbs < 2 ^ 53)
    (least : -1074 ≤ exponent) (most : exponent ≤ 971) (zeroSign : Sign) :
    fraction? (.ofModel (.pack (normalize Format.binary64 number exponent zeroSign))) =
      some (number * 2 ^ exponent : ℚ) := by
  rcases eq_or_ne number 0 with rfl | some
  · rw [Int.cast_zero, zero_mul]
    exact fraction_pack_zero zeroSign
  · obtain ⟨sign, mantissa, positive, value, rounded⟩ := exists_normalize some exponent zeroSign
    have same : number.natAbs = mantissa := by
      have magnitude : (|number| : ℚ) = mantissa := by rw [value, abs_signed, Nat.abs_cast]
      rw [← Int.cast_abs, Int.abs_eq_natAbs] at magnitude
      exact_mod_cast magnitude
    rw [rounded, value, signed_mul_right]
    exact fraction_round positive (same ▸ size) least most sign

/-- The remainder has the sign of the dividend, whatever the sign of the divisor is. -/
theorem tmod_apply (sign otherSign : Sign) (dividend divisor : Nat) :
    (sign.apply dividend).tmod (otherSign.apply divisor) = sign.apply (dividend % divisor : Nat) := by
  rw [Int.ofNat_tmod]
  cases sign <;> cases otherSign <;> simp only [Sign.apply, Int.neg_tmod, Int.tmod_neg]

variable {x y : Float} {first second : ℚ}

/-- Both doubles are whole multiples of the lower one of their last bits, and what is left of the
one has no more bits than it had, or than the other has. -/
theorem exists_remainder (firstFraction : fraction? x = some first)
    (secondFraction : fraction? y = some second) (some : second ≠ 0) :
    ∃ (dividend divisor exponent : Int), first = dividend * 2 ^ exponent ∧
      second = divisor * 2 ^ exponent ∧
      fraction? (x % y) = Option.some (dividend.tmod divisor * 2 ^ exponent : ℚ) := by
  have definition : x % y = remainder x y := rfl
  rcases exists_unpack secondFraction with ⟨_, _, none⟩ |
    ⟨otherSign, divisor, divisorExponent, divisorPositive, otherRead, rfl⟩
  · exact absurd none some
  rcases exists_unpack firstFraction with ⟨sign, read, rfl⟩ |
    ⟨sign, mantissa, exponent, positive, read, rfl⟩
  · refine ⟨0, otherSign.apply divisor, divisorExponent, by simp, ?_, ?_⟩
    · simpa using signed_eq otherSign divisor (le_refl divisorExponent)
    · rw [definition, remainder, read, otherRead]
      simpa using firstFraction
  · have sizes := (fits_of_unpack read).log2
    have otherSizes := (fits_of_unpack otherRead).log2
    have bounded := (fits_of_unpack read).bounded
    have otherBounded := (fits_of_unpack otherRead).bounded
    generalize lower : min exponent divisorExponent = lowest
    have below : lowest ≤ exponent := lower ▸ min_le_left _ _
    have otherBelow : lowest ≤ divisorExponent := lower ▸ min_le_right _ _
    refine ⟨_, _, lowest, signed_eq sign mantissa below, signed_eq otherSign divisor otherBelow, ?_⟩
    have small : mantissa <<< (exponent - lowest).toNat %
        divisor <<< (divisorExponent - lowest).toNat < 2 ^ 53 := by
      have mantissaSize : mantissa < 2 ^ 53 := (Nat.log2_lt positive.ne').mp (by omega)
      have divisorSize : divisor < 2 ^ 53 := (Nat.log2_lt divisorPositive.ne').mp (by omega)
      rcases min_choice exponent divisorExponent with same | same
      · rw [← lower, same, Int.sub_self, Int.toNat_zero, Nat.shiftLeft_zero]
        exact (Nat.mod_le _ _).trans_lt mantissaSize
      · rw [← lower, same, Int.sub_self, Int.toNat_zero, Nat.shiftLeft_zero]
        exact (Nat.mod_lt _ divisorPositive).trans divisorSize
    rw [definition, remainder, read, otherRead, tmod_apply]
    simp only [lower]
    have least : -1074 ≤ lowest := by omega
    have most : lowest ≤ 971 := by omega
    refine fraction_normalize ?_ least most sign
    generalize mantissa <<< (exponent - lowest).toNat %
      divisor <<< (divisorExponent - lowest).toNat = rest at small
    cases sign with
    | positive => exact small
    | negative => exact (Int.natAbs_neg rest).trans_lt small

/-- The remainder differs from the dividend by whole multiples of the divisor, is smaller than the
divisor, and is not on the other side of zero than the dividend. -/
theorem fraction_remainder (firstFraction : fraction? x = some first)
    (secondFraction : fraction? y = some second) (some : second ≠ 0) :
    ∃ turns : ℤ, fraction? (x % y) = Option.some (first - turns * second) ∧
      |first - turns * second| < |second| ∧ 0 ≤ first * (first - turns * second) := by
  obtain ⟨dividend, divisor, exponent, rfl, rfl, fraction⟩ :=
    exists_remainder firstFraction secondFraction some
  have unit : (0 : ℚ) < 2 ^ exponent := by positivity
  have divisorSome : divisor ≠ 0 := by
    rintro rfl
    exact some (by simp)
  have left : (dividend * 2 ^ exponent - dividend.tdiv divisor * (divisor * 2 ^ exponent) : ℚ) =
      dividend.tmod divisor * 2 ^ exponent := by
    rw [Int.tmod_def]
    push_cast
    ring
  refine ⟨dividend.tdiv divisor, ?_, ?_, ?_⟩ <;> rw [left]
  · exact fraction
  · rw [abs_mul, abs_mul]
    gcongr
    have less := Nat.mod_lt dividend.natAbs (Int.natAbs_pos.mpr divisorSome)
    rw [← Int.natAbs_tmod] at less
    rw [← Int.cast_abs, ← Int.cast_abs, Int.abs_eq_natAbs, Int.abs_eq_natAbs]
    exact_mod_cast less
  · have sameSide : 0 ≤ dividend * dividend.tmod divisor := by
      rcases Int.le_total 0 dividend with nonneg | nonpos
      · exact mul_nonneg nonneg (Int.tmod_nonneg divisor nonneg)
      · have opposite := Int.tmod_nonneg divisor (Int.neg_nonneg_of_nonpos nonpos)
        rw [Int.neg_tmod, Int.neg_nonneg] at opposite
        exact mul_nonneg_of_nonpos_of_nonpos nonpos opposite
    have scaled : (dividend * 2 ^ exponent * (dividend.tmod divisor * 2 ^ exponent) : ℚ) =
        (dividend * dividend.tmod divisor : ℤ) * (2 ^ exponent * 2 ^ exponent) := by
      push_cast
      ring
    rw [scaled]
    exact mul_nonneg (by exact_mod_cast sameSide) (by positivity)

/-- Neither an infinite number nor no number at all leaves a number. -/
theorem remainder_of_not_finite (broken : fraction? x = none) (y : Float) : x % y = nan := by
  have definition : x % y = remainder x y := rfl
  rw [definition, remainder]
  unfold fraction? at broken
  split at broken
  · contradiction
  · contradiction
  · contradiction
  · next sign read => rw [read]
  · next read => rw [read]

end Reckoner.Binary64
