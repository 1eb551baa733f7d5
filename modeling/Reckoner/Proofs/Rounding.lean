/-
This file says when a number is a double: rounding leaves such a number as it is.
-/

import Mathlib
import Reckoner.Scalar.Rational

namespace Reckoner.Binary64

open Float.Model (UnpackedFloat Format totalExponent)
open Float.Model.UnpackedFloat

/-- A finite double holds the mantissa with no other exponent than this one. -/
structure Fits (mantissa : Nat) (exponent : Int) : Prop where
  positive : 0 < mantissa
  exponent_eq : Format.binary64.targetExponent (totalExponent mantissa exponent) = exponent
  bounded : exponent ≤ 971

variable {mantissa : Nat} {exponent : Int}

/-- All bits of the mantissa are in use, unless the exponent is the least one. -/
theorem Fits.log2 (fits : Fits mantissa exponent) :
    mantissa.log2 ≤ 52 ∧ -1074 ≤ exponent ∧ (mantissa.log2 = 52 ∨ exponent = -1074) := by
  have same := fits.exponent_eq
  simp only [Format.targetExponent, totalExponent, Format.mantissaBits, Format.minExponent] at same
  omega

theorem Fits.of_log2 (positive : 0 < mantissa) (most : mantissa.log2 ≤ 52)
    (least : -1074 ≤ exponent) (bounded : exponent ≤ 971)
    (used : mantissa.log2 = 52 ∨ exponent = -1074) : Fits mantissa exponent := by
  refine ⟨positive, ?_, bounded⟩
  simp only [Format.targetExponent, totalExponent, Format.mantissaBits, Format.minExponent]
  omega

theorem log2_mul_two_pow (positive : 0 < mantissa) (shift : Nat) :
    (mantissa * 2 ^ shift).log2 = mantissa.log2 + shift := by
  induction shift with
  | zero => simp
  | succ shift ih =>
      have some : mantissa * 2 ^ shift ≠ 0 := by positivity
      rw [Nat.pow_succ', Nat.mul_left_comm, Nat.log2_two_mul some, ih, Nat.add_assoc]

/-- A number with spare zeros at its end loses nothing when they are shifted out. -/
theorem shiftRight_exact (mantissa shift : Nat) :
    ExtendedMantissa.ofMantissaAndAccuracy (mantissa * 2 ^ shift) .exact >>> shift =
      ExtendedMantissa.ofMantissaAndAccuracy mantissa .exact := by
  change shift.repeat ExtendedMantissa.shiftRightOne _ = _
  induction shift generalizing mantissa with
  | zero => simp [Nat.repeat]
  | succ shift ih =>
      have doubled := ih (mantissa * 2)
      rw [Nat.pow_succ', ← Nat.mul_assoc, Nat.repeat, doubled]
      simp [ExtendedMantissa.ofMantissaAndAccuracy, ExtendedMantissa.shiftRightOne]

/-- The zeros at the end of a mantissa are shifted out. -/
theorem shiftToTargetExponent_mul_two_pow (positive : 0 < mantissa)
    (same : Format.binary64.targetExponent (totalExponent mantissa exponent) = exponent)
    (shift : Nat) :
    shiftToTargetExponent Format.binary64 (mantissa * 2 ^ shift) (exponent - shift) .exact =
      (.ofMantissaAndAccuracy mantissa .exact, exponent) := by
  have total : totalExponent (mantissa * 2 ^ shift) (exponent - shift) =
      totalExponent mantissa exponent := by
    simp only [totalExponent, log2_mul_two_pow positive]
    omega
  have amount : (exponent - (exponent - shift)).toNat = shift := by omega
  simp only [shiftToTargetExponent, shiftToExponent, total, same, amount, shiftRight_exact]
  simp

theorem Fits.shiftToTargetExponent_eq (fits : Fits mantissa exponent) (shift : Nat) :
    shiftToTargetExponent Format.binary64 (mantissa * 2 ^ shift) (exponent - shift) .exact =
      (.ofMantissaAndAccuracy mantissa .exact, exponent) :=
  shiftToTargetExponent_mul_two_pow fits.positive fits.exponent_eq shift

/-- A double is not rounded, however many zeros its mantissa ends with. -/
theorem Fits.roundWithAccuracy_shifted (fits : Fits mantissa exponent) (sign : Sign) (shift : Nat) :
    roundWithAccuracy Format.binary64 sign (mantissa * 2 ^ shift) (exponent - shift) .exact =
      .finite sign mantissa exponent fits.positive := by
  have again := fits.shiftToTargetExponent_eq 0
  rw [Nat.pow_zero, Nat.mul_one, Int.natCast_zero, Int.sub_zero] at again
  have rounded : (ExtendedMantissa.ofMantissaAndAccuracy mantissa .exact).roundedMantissa =
      mantissa := rfl
  simp only [roundWithAccuracy, fits.shiftToTargetExponent_eq shift, rounded, again]
  simp [ExtendedMantissa.ofMantissaAndAccuracy, fits.positive.ne']

/-- Of two forms of a number the one with the lower exponent ends with more zeros. -/
theorem eq_mul_two_pow {other : Nat} {lower : Int}
    (same : (other : ℚ) * 2 ^ lower = mantissa * 2 ^ exponent) (below : lower ≤ exponent) :
    other = mantissa * 2 ^ (exponent - lower).toNat := by
  obtain ⟨shift, rfl⟩ := Int.le.dest below
  have power : (2 : ℚ) ^ lower ≠ 0 := by positivity
  rw [zpow_add₀ two_ne_zero, zpow_natCast, mul_left_comm, mul_comm] at same
  have shifted := mul_left_cancel₀ power same
  rw [add_sub_cancel_left, Int.toNat_natCast]
  exact_mod_cast shifted

/-- A number that is a double is not rounded. -/
theorem Fits.roundWithAccuracy_eq (fits : Fits mantissa exponent) (sign : Sign) {other : Nat}
    {lower : Int} (same : (other : ℚ) * 2 ^ lower = mantissa * 2 ^ exponent)
    (below : lower ≤ exponent) :
    roundWithAccuracy Format.binary64 sign other lower .exact =
      .finite sign mantissa exponent fits.positive := by
  have shift : exponent - (exponent - lower).toNat = lower := by omega
  have rounded := fits.roundWithAccuracy_shifted sign (exponent - lower).toNat
  rwa [shift, ← eq_mul_two_pow same below] at rounded

theorem zpow_le_value (positive : 0 < mantissa) (exponent : Int) :
    (2 : ℚ) ^ (mantissa.log2 + exponent) ≤ mantissa * 2 ^ exponent := by
  rw [zpow_add₀ two_ne_zero, zpow_natCast]
  gcongr
  exact_mod_cast Nat.log2_self_le positive.ne'

theorem value_lt_zpow (positive : 0 < mantissa) (exponent : Int) :
    (mantissa : ℚ) * 2 ^ exponent < 2 ^ totalExponent mantissa exponent := by
  rw [totalExponent, zpow_add₀ two_ne_zero, ← Nat.cast_succ, zpow_natCast]
  gcongr
  exact_mod_cast (Nat.log2_lt positive.ne').mp (Nat.lt_succ_self _)

/-- Where the quotient is a double, the divisor goes into the shifted dividend. -/
theorem shifted_dividend {dividend divisor : Nat} {high low target : Int}
    (same : (dividend : ℚ) * 2 ^ high = divisor * 2 ^ low * (mantissa * 2 ^ exponent))
    (below : target ≤ exponent) (belowDifference : target ≤ high - low) :
    dividend * 2 ^ (high - low - target).toNat =
      mantissa * 2 ^ (exponent - target).toNat * divisor := by
  obtain ⟨up, rfl⟩ := Int.le.dest below
  obtain ⟨down, downSame⟩ := Int.le.dest belowDifference
  obtain rfl : high = low + target + down := by omega
  rw [zpow_add₀ two_ne_zero, zpow_add₀ two_ne_zero, zpow_add₀ two_ne_zero, zpow_natCast,
    zpow_natCast] at same
  have power : (2 : ℚ) ^ low * 2 ^ target ≠ 0 := by positivity
  have scaled : (dividend * 2 ^ down : ℚ) = mantissa * 2 ^ up * divisor := by
    apply mul_left_cancel₀ power
    linear_combination same
  have upward : (target + up - target).toNat = up := by omega
  have downward : (low + target + down - low - target).toNat = down := by omega
  rw [upward, downward]
  exact_mod_cast scaled

/-- A quotient that is a double is not rounded. -/
theorem Fits.div_eq (fits : Fits mantissa exponent) {dividend divisor : Nat} {high low : Int}
    (dividendPositive : 0 < dividend) (divisorPositive : 0 < divisor) (first second : Sign)
    (same : (dividend : ℚ) * 2 ^ high = divisor * 2 ^ low * (mantissa * 2 ^ exponent)) :
    div Format.binary64 (.finite first dividend high dividendPositive)
        (.finite second divisor low divisorPositive) =
      .finite (first / second) mantissa exponent fits.positive := by
  -- The division goes on to a bit that is no higher than the last one of the quotient.
  have difference : totalExponent dividend high - totalExponent divisor low ≤
      totalExponent mantissa exponent := by
    have least := zpow_le_value dividendPositive high
    have most := mul_lt_mul'' (value_lt_zpow divisorPositive low)
      (value_lt_zpow fits.positive exponent) (by positivity) (by positivity)
    rw [← same, ← zpow_add₀ two_ne_zero] at most
    have exponents := (zpow_lt_zpow_iff_right₀ one_lt_two).mp (least.trans_lt most)
    simp only [totalExponent] at exponents ⊢
    omega
  let target := min (high - low) (Format.binary64.targetExponent
    (totalExponent dividend high - totalExponent divisor low))
  have below : target ≤ exponent := by
    have same := fits.exponent_eq
    simp only [target, Format.targetExponent] at same ⊢
    omega
  have exact : dividend * 2 ^ (high - low - target).toNat =
      mantissa * 2 ^ (exponent - target).toNat * divisor :=
    shifted_dividend same below (min_le_left _ _)
  have core : divCore Format.binary64 dividend high divisor low =
      (mantissa * 2 ^ (exponent - target).toNat, target, .exact) := by
    change (dividend <<< (high - low - target).toNat / divisor, target,
      accuracyOfFraction (dividend <<< (high - low - target).toNat % divisor) divisor) = _
    rw [Nat.shiftLeft_eq, exact, Nat.mul_div_cancel _ divisorPositive, Nat.mul_mod_left]
    rfl
  have shift : target = exponent - (exponent - target).toNat := by omega
  have rounded := fits.roundWithAccuracy_shifted (first / second) (exponent - target).toNat
  rw [← shift] at rounded
  simp only [div, core, rounded]

theorem ofNat_ne_allOnes {biased : Nat} (below : ¬2 ^ 11 ≤ biased + 1) :
    BitVec.ofNat 11 biased ≠ -1#11 := by
  intro same
  have numbers := congrArg BitVec.toNat same
  simp at numbers
  omega

theorem toNat_append_one (fraction : BitVec 52) :
    (1#1 ++ fraction).toNat = 2 ^ 52 + fraction.toNat := by
  rw [BitVec.toNat_append, ← Nat.shiftLeft_add_eq_or_of_lt fraction.isLt]
  rfl

/-- The exponent says whether the leading bit is there, and its largest value that there is no
finite number. -/
theorem unpack_packComponents (sign : Sign) (biased : BitVec 11) (fraction : BitVec 52) :
    unpack Format.binary64 (packComponents Format.binary64 sign biased fraction) =
      if biased = -1#11 then
        if fraction = 0#52 then .infinity sign else .notANumber
      else if biased = 0#11 then
        if some : fraction = 0#52 then .zero sign
        else .finite sign fraction.toNat (-1074) (by
          exact Nat.pos_of_ne_zero fun none => some (BitVec.eq_of_toNat_eq none))
      else .finite sign (1#1 ++ fraction).toNat (biased.toNat - 1075) (by
        rw [toNat_append_one]
        positivity) := by
  unfold unpack
  simp only [unpackExponent_packComponents, unpackMantissa_packComponents,
    unpackSign_packComponents, Sign.ofBitVec_toBitVec]
  split
  · rfl
  · split
    · next zero =>
        subst zero
        rfl
    · rfl

/-- With its leading bit a mantissa is read from the bits behind that one. -/
theorem unpack_packComponents_normal (sign : Sign) {biased : Nat} (some : 0 < biased)
    (below : biased + 1 < 2 ^ 11) (leading : 2 ^ 52 ≤ mantissa) (size : mantissa < 2 ^ 53) :
    unpack Format.binary64 (packComponents Format.binary64 sign (.ofNat 11 biased)
        (.ofNat 52 mantissa)) =
      .finite sign mantissa (biased - 1075) (by omega) := by
  have nonzero : BitVec.ofNat 11 biased ≠ 0#11 := by
    intro same
    have numbers := congrArg BitVec.toNat same
    simp at numbers
    omega
  rw [unpack_packComponents, if_neg (ofNat_ne_allOnes (Nat.not_le.mpr below)), if_neg nonzero]
  simp only [UnpackedFloat.finite.injEq, toNat_append_one, BitVec.toNat_ofNat, true_and]
  omega

/-- A mantissa without its leading bit has the least exponent. -/
theorem unpack_packComponents_subnormal (sign : Sign) (positive : 0 < mantissa)
    (size : mantissa < 2 ^ 52) :
    unpack Format.binary64 (packComponents Format.binary64 sign 0#11 (.ofNat 52 mantissa)) =
      .finite sign mantissa (-1074) positive := by
  have nonzero : BitVec.ofNat 52 mantissa ≠ 0#52 := by
    intro same
    have numbers := congrArg BitVec.toNat same
    simp at numbers
    omega
  rw [unpack_packComponents, if_neg (by decide), if_pos rfl, dif_neg nonzero]
  simp only [UnpackedFloat.finite.injEq, BitVec.toNat_ofNat, true_and, and_true]
  omega

/-- A double gets the bits that it is read from. -/
theorem Fits.unpack_pack (fits : Fits mantissa exponent) (sign : Sign) :
    (Float.Model.pack (.finite sign mantissa exponent fits.positive)).unpack =
      .finite sign mantissa exponent fits.positive := by
  obtain ⟨most, least, used⟩ := fits.log2
  have bounded := fits.bounded
  have size : mantissa < 2 ^ 53 := (Nat.log2_lt fits.positive.ne').mp (Nat.lt_succ_of_le most)
  have bias : (exponent + Format.binary64.exponentBias +
      Format.binary64.mantissaBitsWithoutImplicit).toNat = (exponent + 1075).toNat := by
    simp only [Format.exponentBias]
    omega
  have below : ¬2 ^ 11 ≤ (exponent + 1075).toNat + 1 := by omega
  change unpack Format.binary64 (pack Format.binary64 _) = _
  simp only [pack, bias, below, ↓reduceIte]
  split
  · next full =>
      have leading : 2 ^ 52 ≤ mantissa :=
        (Nat.le_log2 fits.positive.ne').mp (Nat.le_of_succ_le_succ full.ge)
      have unbiased : ((exponent + 1075).toNat : Int) - 1075 = exponent := by omega
      rw [unpack_packComponents_normal sign (by omega) (Nat.not_le.mp below) leading size]
      simp only [unbiased]
  · next short =>
      have unused : mantissa.log2 ≠ 52 := fun full => short (congrArg Nat.succ full)
      obtain rfl := used.resolve_left unused
      have small : mantissa < 2 ^ 52 := (Nat.log2_lt fits.positive.ne').mp (by omega)
      exact unpack_packComponents_subnormal sign fits.positive small

/-- Whatever the bits are, a finite number that is read from them is a double. -/
theorem fits_of_unpack {x : Float} {sign : Sign} {positive : 0 < mantissa}
    (finite : x.toModel.unpack = .finite sign mantissa exponent positive) :
    Fits mantissa exponent := by
  obtain ⟨read, biased, fraction, parts⟩ : ∃ (read : Sign) (biased : BitVec 11)
      (fraction : BitVec 52), x.toModel.toBits.toBitVec =
        packComponents Format.binary64 read biased fraction :=
    ⟨_, _, _, (@packComponents_unpackSign_unpackExponent_unpackMantissa Format.binary64
      x.toModel.toBits.toBitVec).symm⟩
  change unpack Format.binary64 x.toModel.toBits.toBitVec = _ at finite
  rw [parts, unpack_packComponents] at finite
  have small := fraction.isLt
  split at finite
  · split at finite <;> contradiction
  · next number =>
      split at finite
      · split at finite
        · contradiction
        · obtain ⟨-, rfl, rfl⟩ := UnpackedFloat.finite.inj finite
          have log2 := (Nat.log2_lt positive.ne').mpr small
          exact .of_log2 positive (by omega) le_rfl (by decide) (.inr rfl)
      · next normal =>
          obtain ⟨-, rfl, rfl⟩ := UnpackedFloat.finite.inj finite
          have full : (1#1 ++ fraction).toNat.log2 = 52 := by
            rw [Nat.log2_eq_iff positive.ne', toNat_append_one]
            omega
          have some : biased.toNat ≠ 0 := fun none => normal (BitVec.eq_of_toNat_eq none)
          have less : biased.toNat ≠ 2047 := fun all => number (BitVec.eq_of_toNat_eq all)
          exact .of_log2 positive full.le (by omega) (by omega) (.inl full)

end Reckoner.Binary64
