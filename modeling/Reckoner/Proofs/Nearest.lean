/-
This file says how far rounding moves a number: by no more than half a unit in its last place.
-/

import Reckoner.Proofs.Exactness

namespace Reckoner.Binary64

open Float.Model (UnpackedFloat Format totalExponent)
open Float.Model.UnpackedFloat

theorem targetExponent_eq (total : Int) :
    Format.binary64.targetExponent total = max (total - 53) (-1074) := by
  simp only [Format.targetExponent, Format.mantissaBits, Format.minExponent]
  omega

/-- The bits behind the mantissa tell on which side of the middle the number lies. -/
structure Holds (extended : ExtendedMantissa) (exact : ℚ) : Prop where
  least : extended.mantissa ≤ exact
  most : exact < extended.mantissa + 1
  round : extended.roundBit ↔ extended.mantissa + 1 / 2 ≤ exact
  sticky : extended.stickyBit ↔
    exact ≠ extended.mantissa ∧ exact ≠ extended.mantissa + 1 / 2

variable {extended : ExtendedMantissa} {exact : ℚ}

theorem holds_exact (mantissa : Nat) :
    Holds (.ofMantissaAndAccuracy mantissa .exact) mantissa where
  least := le_rfl
  most := lt_add_one _
  round := by norm_num [ExtendedMantissa.ofMantissaAndAccuracy]
  sticky := by simp [ExtendedMantissa.ofMantissaAndAccuracy]

/-- What lies behind the mantissa is told by how it compares to one half. -/
theorem holds_inexact (mantissa : Nat) {part : ℚ} (above : 0 < part) (below : part < 1) :
    Holds (.ofMantissaAndAccuracy mantissa (.inexact (compare part (1 / 2))))
      (mantissa + part) := by
  rcases lt_trichotomy part (1 / 2) with less | same | more
  · rw [compare_lt_iff_lt.mpr less]
    constructor <;> simp only [ExtendedMantissa.ofMantissaAndAccuracy] <;> grind
  · rw [compare_eq_iff_eq.mpr same]
    constructor <;> simp only [ExtendedMantissa.ofMantissaAndAccuracy] <;> grind
  · rw [compare_gt_iff_gt.mpr more]
    constructor <;> simp only [ExtendedMantissa.ofMantissaAndAccuracy] <;> grind

/-- The remainder of a division is told by how its double compares to the divisor. -/
theorem holds_div (dividend : Nat) {divisor : Nat} (positive : 0 < divisor) :
    Holds (.ofMantissaAndAccuracy (dividend / divisor)
      (accuracyOfFraction (dividend % divisor) divisor)) (dividend / divisor) := by
  have some : (0 : ℚ) < divisor := by exact_mod_cast positive
  have whole : (dividend / divisor : ℚ) =
      (dividend / divisor : Nat) + (dividend % divisor : Nat) / divisor := by
    have parts : (dividend : ℚ) =
        divisor * (dividend / divisor : Nat) + (dividend % divisor : Nat) := by
      exact_mod_cast (Nat.div_add_mod dividend divisor).symm
    field_simp
    exact parts
  have small := Nat.mod_lt dividend positive
  rw [whole]
  generalize dividend % divisor = rest at small
  unfold accuracyOfFraction
  split
  · next none =>
      subst none
      simpa using holds_exact (dividend / divisor)
  · next inexact =>
      have above : (0 : ℚ) < rest / divisor :=
        div_pos (by exact_mod_cast Nat.pos_of_ne_zero inexact) some
      have below : (rest : ℚ) / divisor < 1 := (div_lt_one some).mpr (by exact_mod_cast small)
      have less : 2 * rest < divisor ↔ (rest : ℚ) / divisor < 1 / 2 := by
        rw [div_lt_div_iff₀ some two_pos, one_mul, mul_comm (rest : ℚ)]
        norm_cast
      have equal : 2 * rest = divisor ↔ (rest : ℚ) / divisor = 1 / 2 := by
        rw [div_eq_div_iff some.ne' two_ne_zero, one_mul, mul_comm (rest : ℚ)]
        norm_cast
      have same : compare (2 * rest) divisor = compare ((rest : ℚ) / divisor) (1 / 2) := by
        simp only [LinearOrder.compare_eq_compareOfLessAndEq, compareOfLessAndEq, less, equal]
      rw [same]
      exact holds_inexact (dividend / divisor) above below

/-- Half of an odd mantissa leaves its last bit as the round bit. -/
theorem Holds.shiftRightOne (holds : Holds extended exact) :
    Holds extended.shiftRightOne (exact / 2) := by
  obtain ⟨mantissa, round, low⟩ := extended
  obtain ⟨least, most, middle, sticky⟩ := holds
  have parts : (mantissa : ℚ) = 2 * (mantissa / 2 : Nat) + (mantissa % 2 : Nat) := by
    exact_mod_cast (Nat.div_add_mod mantissa 2).symm
  rcases Nat.mod_two_eq_zero_or_one mantissa with even | odd
  · rw [even] at parts
    constructor <;> simp only [ExtendedMantissa.shiftRightOne, even] at * <;> grind
  · rw [odd] at parts
    constructor <;> simp only [ExtendedMantissa.shiftRightOne, odd] at * <;> grind

theorem Holds.shiftRight (holds : Holds extended exact) (shift : Nat) :
    Holds (extended >>> shift) (exact / 2 ^ shift) := by
  change Holds (shift.repeat ExtendedMantissa.shiftRightOne extended) _
  induction shift with
  | zero => simpa [Nat.repeat] using holds
  | succ shift ih =>
      rw [Nat.repeat, pow_succ, div_mul_eq_div_div]
      exact ih.shiftRightOne

/-- The rounded mantissa is the one before the number or the one after it, and no farther from it
than half a unit. -/
theorem Holds.roundedMantissa (holds : Holds extended exact) :
    extended.mantissa ≤ extended.roundedMantissa ∧
      extended.roundedMantissa ≤ extended.mantissa + 1 ∧
      |(extended.roundedMantissa : ℚ) - exact| ≤ 1 / 2 := by
  obtain ⟨mantissa, round, low⟩ := extended
  obtain ⟨least, most, middle, sticky⟩ := holds
  rcases Nat.mod_two_eq_zero_or_one mantissa with even | odd
  · cases round <;> cases low <;> simp only [ExtendedMantissa.roundedMantissa,
      ExtendedMantissa.accuracy, Accuracy.roundToNearestEven, even] at * <;> grind
  · cases round <;> cases low <;> simp only [ExtendedMantissa.roundedMantissa,
      ExtendedMantissa.accuracy, Accuracy.roundToNearestEven, odd] at * <;> grind

/-- The mantissa has as many bits as the exponent leaves room for, which may be too large for a
double. -/
structure IsNormalized (mantissa : Nat) (exponent : Int) : Prop where
  positive : 0 < mantissa
  most : mantissa.log2 ≤ 52
  least : -1074 ≤ exponent
  used : mantissa.log2 = 52 ∨ exponent = -1074

theorem IsNormalized.exponent_eq {mantissa : Nat} {exponent : Int}
    (normalized : IsNormalized mantissa exponent) :
    Format.binary64.targetExponent (totalExponent mantissa exponent) = exponent := by
  obtain ⟨_, most, least, used⟩ := normalized
  rw [targetExponent_eq, totalExponent]
  omega

/-- A mantissa of one bit too many is a power of two, so that the bit can be shifted out. -/
theorem exists_isNormalized {rounded : Nat} {target : Int} (positive : 0 < rounded)
    (most : rounded ≤ 2 ^ 53) (least : -1074 ≤ target)
    (used : 2 ^ 52 ≤ rounded ∨ target = -1074) :
    ∃ (mantissa : Nat) (exponent : Int) (shift : Nat), IsNormalized mantissa exponent ∧
      mantissa * 2 ^ shift = rounded ∧ exponent - shift = target := by
  rcases most.lt_or_eq with short | rfl
  · have log2 := (Nat.log2_lt positive.ne').mpr short
    have full : rounded.log2 = 52 ∨ target = -1074 := by
      refine used.imp_left fun large => ?_
      have := (Nat.le_log2 positive.ne').mpr large
      omega
    exact ⟨rounded, target, 0, ⟨positive, by omega, least, full⟩, by simp, by simp⟩
  · have log2 : (2 ^ 52).log2 = 52 := Nat.log2_two_pow
    exact ⟨2 ^ 52, target + 1, 1, ⟨by positivity, log2.le, by omega, .inl log2⟩, by norm_num,
      by simp⟩

theorem value_eq_of_shift {mantissa rounded shift : Nat} {exponent target : Int}
    (same : mantissa * 2 ^ shift = rounded) (power : exponent - shift = target) :
    (rounded : ℚ) * 2 ^ target = mantissa * 2 ^ exponent := by
  subst same power
  rw [zpow_sub₀ two_ne_zero, zpow_natCast]
  push_cast
  field_simp

theorem IsNormalized.fits {mantissa : Nat} {exponent : Int}
    (normalized : IsNormalized mantissa exponent)
    (bounded : (mantissa : ℚ) * 2 ^ exponent < 2 ^ (1024 : Int)) : Fits mantissa exponent := by
  have total := (zpow_lt_zpow_iff_right₀ one_lt_two).mp
    ((zpow_le_value normalized.positive exponent).trans_lt bounded)
  have used := normalized.used
  exact ⟨normalized.positive, normalized.exponent_eq, by omega⟩

/-- A mantissa with all bits overflows by its exponent alone. -/
theorem IsNormalized.unpack_pack_of_overflow {mantissa : Nat} {exponent : Int}
    (normalized : IsNormalized mantissa exponent)
    (large : (2 : ℚ) ^ (1024 : Int) ≤ mantissa * 2 ^ exponent) (sign : Sign) :
    (Float.Model.pack (.finite sign mantissa exponent normalized.positive)).unpack =
      .infinity sign := by
  have total := (zpow_lt_zpow_iff_right₀ one_lt_two).mp
    (large.trans_lt (value_lt_zpow normalized.positive exponent))
  have most := normalized.most
  rw [totalExponent] at total
  have bias : (exponent + Format.binary64.exponentBias +
      Format.binary64.mantissaBitsWithoutImplicit).toNat = (exponent + 1075).toNat := by
    simp only [Format.exponentBias]
    omega
  have above : 2 ^ 11 ≤ (exponent + 1075).toNat + 1 := by omega
  change unpack Format.binary64 (pack Format.binary64 _) = _
  simp only [pack, bias, above, ↓reduceIte]
  cases sign <;> rfl

/-- The sign of a number and its magnitude. -/
def signed (sign : Sign) (magnitude : ℚ) : ℚ :=
  match sign with
  | .positive => magnitude
  | .negative => -magnitude

theorem abs_signed_sub (sign : Sign) (first second : ℚ) :
    |signed sign first - signed sign second| = |first - second| := by
  cases sign with
  | positive => rfl
  | negative =>
      rw [abs_sub_comm first]
      congr 1
      simp only [signed]
      ring

theorem abs_signed (sign : Sign) (magnitude : ℚ) : |signed sign magnitude| = |magnitude| := by
  cases sign with
  | positive => rfl
  | negative => exact abs_neg magnitude

variable {mantissa : Nat} {exponent : Int}

theorem Fits.fraction_pack (fits : Fits mantissa exponent) (sign : Sign) :
    fraction? (.ofModel (.pack (.finite sign mantissa exponent fits.positive))) =
      some (signed sign (mantissa * 2 ^ exponent)) := by
  have read : (Float.ofModel (.pack (.finite sign mantissa exponent fits.positive))).toModel.unpack
      = .finite sign mantissa exponent fits.positive := fits.unpack_pack sign
  cases sign <;> simp only [fraction?, read] <;> rfl

theorem fraction_pack_zero (sign : Sign) :
    fraction? (.ofModel (.pack (.zero sign))) = some 0 := by
  have read : (Float.ofModel (.pack (.zero sign))).toModel.unpack = .zero sign := by
    cases sign <;> rfl
  simp only [fraction?, read]

variable {accuracy : Accuracy} {target : Int}

theorem mantissa_ofMantissaAndAccuracy (mantissa : Nat) (accuracy : Accuracy) :
    (ExtendedMantissa.ofMantissaAndAccuracy mantissa accuracy).mantissa = mantissa := by
  rcases accuracy with _ | order
  · rfl
  · cases order <;> rfl

theorem shiftToTargetExponent_eq (accuracy : Accuracy) {shift : Nat}
    (same : Format.binary64.targetExponent (totalExponent mantissa exponent) = exponent + shift) :
    shiftToTargetExponent Format.binary64 mantissa exponent accuracy =
      (ExtendedMantissa.ofMantissaAndAccuracy mantissa accuracy >>> shift, exponent + shift) := by
  simp only [shiftToTargetExponent, shiftToExponent, same, add_sub_cancel_left, Int.toNat_natCast]

/-- The second shift finds no more than a single bit too many, and that one is zero. -/
theorem exists_roundWithAccuracy {first : ExtendedMantissa} (sign : Sign)
    (shifted : shiftToTargetExponent Format.binary64 mantissa exponent accuracy = (first, target))
    (positive : 0 < first.roundedMantissa) (most : first.roundedMantissa ≤ 2 ^ 53)
    (least : -1074 ≤ target) (used : 2 ^ 52 ≤ first.roundedMantissa ∨ target = -1074) :
    ∃ (whole : Nat) (power : Int) (normalized : IsNormalized whole power),
      (first.roundedMantissa : ℚ) * 2 ^ target = whole * 2 ^ power ∧
      roundWithAccuracy Format.binary64 sign mantissa exponent accuracy =
        .finite sign whole power normalized.positive := by
  obtain ⟨whole, power, shift, normalized, same, rfl⟩ :=
    exists_isNormalized positive most least used
  have again := shiftToTargetExponent_mul_two_pow normalized.positive normalized.exponent_eq shift
  rw [same] at again
  refine ⟨whole, power, normalized, value_eq_of_shift same rfl, ?_⟩
  simp only [roundWithAccuracy, shifted, again]
  simp [ExtendedMantissa.ofMantissaAndAccuracy, normalized.positive.ne']

theorem fraction_roundWithAccuracy {first : ExtendedMantissa} (sign : Sign)
    (shifted : shiftToTargetExponent Format.binary64 mantissa exponent accuracy = (first, target))
    (most : first.roundedMantissa ≤ 2 ^ 53) (least : -1074 ≤ target)
    (used : 2 ^ 52 ≤ first.roundedMantissa ∨ target = -1074)
    (bounded : (first.roundedMantissa : ℚ) * 2 ^ target < 2 ^ (1024 : Int)) :
    fraction? (.ofModel (.pack
      (roundWithAccuracy Format.binary64 sign mantissa exponent accuracy))) =
        some (signed sign (first.roundedMantissa * 2 ^ target)) := by
  rcases Nat.eq_zero_or_pos first.roundedMantissa with none | positive
  · obtain ⟨power, zero⟩ : ∃ power, shiftToTargetExponent Format.binary64 0 target .exact =
        (.ofMantissaAndAccuracy 0 .exact, power) := by
      refine ⟨_, Prod.ext ?_ rfl⟩
      simpa [shiftToTargetExponent, shiftToExponent] using shiftRight_exact 0 _
    have rounded : roundWithAccuracy Format.binary64 sign mantissa exponent accuracy =
        .zero sign := by
      simp only [roundWithAccuracy, shifted, none, zero]
      rfl
    rw [rounded, fraction_pack_zero, none]
    cases sign <;> simp [signed]
  · obtain ⟨whole, power, normalized, same, rounded⟩ :=
      exists_roundWithAccuracy sign shifted positive most least used
    rw [same] at bounded ⊢
    rw [rounded, (normalized.fits bounded).fraction_pack]

theorem unpack_roundWithAccuracy_of_overflow {first : ExtendedMantissa} (sign : Sign)
    (shifted : shiftToTargetExponent Format.binary64 mantissa exponent accuracy = (first, target))
    (most : first.roundedMantissa ≤ 2 ^ 53) (least : -1074 ≤ target)
    (used : 2 ^ 52 ≤ first.roundedMantissa ∨ target = -1074)
    (large : (2 : ℚ) ^ (1024 : Int) ≤ first.roundedMantissa * 2 ^ target) :
    (Float.ofModel (.pack (roundWithAccuracy Format.binary64 sign mantissa exponent
      accuracy))).toModel.unpack = .infinity sign := by
  have positive : 0 < first.roundedMantissa := by
    refine Nat.pos_of_ne_zero fun none => ?_
    rw [none, Nat.cast_zero, zero_mul] at large
    exact absurd large (not_le.mpr (by positivity))
  obtain ⟨whole, power, normalized, same, rounded⟩ :=
    exists_roundWithAccuracy sign shifted positive most least used
  rw [same] at large
  rw [rounded]
  exact normalized.unpack_pack_of_overflow large sign

/-- A mantissa that is shifted to the exponent of a double has the bits of a mantissa there, fewer
of them only at the least exponent. -/
theorem Holds.bits {number shift : Nat} (held : Holds extended (exact / 2 ^ shift))
    (positive : 0 < number ∨ exponent ≤ -1074) (least : number ≤ exact)
    (most : exact < number + 1)
    (same : exponent + shift = max (number.log2 + 1 + exponent - 53) (-1074)) :
    extended.mantissa < 2 ^ 53 ∧ (2 ^ 52 ≤ extended.mantissa ∨ exponent + shift = -1074) := by
  have power : (0 : ℚ) < 2 ^ shift := by positivity
  have above : extended.mantissa * 2 ^ shift < number + 1 := by
    have bound := ((le_div_iff₀ power).mp held.least).trans_lt most
    exact_mod_cast bound
  have below : number < (extended.mantissa + 1) * 2 ^ shift := by
    have bound := least.trans_lt ((div_lt_iff₀ power).mp held.most)
    exact_mod_cast bound
  constructor
  · apply lt_of_mul_lt_mul_right _ (Nat.zero_le (2 ^ shift))
    calc
      _ ≤ number := Nat.le_of_lt_succ above
      _ < 2 ^ (number.log2 + 1) := Nat.lt_log2_self
      _ ≤ 2 ^ (53 + shift) := Nat.pow_le_pow_right two_pos (by omega)
      _ = 2 ^ 53 * 2 ^ shift := Nat.pow_add 2 53 shift
  · refine or_iff_not_imp_right.mpr fun normal => Nat.le_of_lt_succ ?_
    have some : number ≠ 0 := by
      -- Without a mantissa the exponent would be the least one.
      rintro rfl
      have low := positive.resolve_left (lt_irrefl 0)
      rw [Nat.log2_zero] at same
      omega
    apply lt_of_mul_lt_mul_right _ (Nat.zero_le (2 ^ shift))
    calc
      _ = 2 ^ (52 + shift) := (Nat.pow_add 2 52 shift).symm
      _ = 2 ^ number.log2 := by
        congr 1
        omega
      _ ≤ number := Nat.log2_self_le some
      _ < _ := below

/-- A number is rounded to a whole multiple of the unit in its last place, and to infinity if it is
so large that there is no such double. Nothing but bits below all doubles may come without a
mantissa. -/
theorem exists_fraction_round (positive : 0 < mantissa ∨ exponent ≤ -1074)
    (holds : Holds (.ofMantissaAndAccuracy mantissa accuracy) exact)
    (same : Format.binary64.targetExponent (totalExponent mantissa exponent) = target)
    (below : exponent ≤ target) (sign : Sign) :
    ∃ rounded : Nat, |rounded * 2 ^ target - exact * 2 ^ exponent| ≤ 2 ^ target / 2 ∧
      ((rounded : ℚ) * 2 ^ target < 2 ^ (1024 : Int) →
        fraction? (.ofModel (.pack
          (roundWithAccuracy Format.binary64 sign mantissa exponent accuracy))) =
            some (signed sign (rounded * 2 ^ target))) ∧
      ((2 : ℚ) ^ (1024 : Int) ≤ rounded * 2 ^ target →
        (Float.ofModel (.pack (roundWithAccuracy Format.binary64 sign mantissa exponent
          accuracy))).toModel.unpack = .infinity sign) := by
  obtain ⟨shift, rfl⟩ := Int.le.dest below
  have shifted := shiftToTargetExponent_eq accuracy same
  have held := holds.shiftRight shift
  have least := holds.least
  have most := holds.most
  rw [mantissa_ofMantissaAndAccuracy] at least most
  generalize ExtendedMantissa.ofMantissaAndAccuracy mantissa accuracy >>> shift = first at *
  obtain ⟨atLeast, atMost, near⟩ := held.roundedMantissa
  rw [targetExponent_eq, totalExponent] at same
  obtain ⟨short, used⟩ := held.bits positive least most same.symm
  have usedRounded := used.imp_left fun large => large.trans atLeast
  refine ⟨first.roundedMantissa, ?_, fun bounded => ?_, fun large => ?_⟩
  · have scaled : first.roundedMantissa * 2 ^ (exponent + shift) - exact * 2 ^ exponent =
        (first.roundedMantissa - exact / 2 ^ shift) * 2 ^ (exponent + shift) := by
      rw [zpow_add₀ two_ne_zero, zpow_natCast]
      field_simp
    have unit : (0 : ℚ) < 2 ^ (exponent + shift) := by positivity
    rw [scaled, abs_mul, abs_of_pos unit]
    exact (mul_le_mul_of_nonneg_right near unit.le).trans_eq (one_div_mul_eq_div _ _)
  · exact fraction_roundWithAccuracy sign shifted (by omega) (by omega) usedRounded bounded
  · exact unpack_roundWithAccuracy_of_overflow sign shifted (by omega) (by omega) usedRounded large

/-- From here on infinity takes the place of a double. -/
def overflow : ℚ := (2 ^ 54 - 1) * 2 ^ (970 : Int)

theorem overflow_add : overflow + 2 ^ (971 : Int) / 2 = 2 ^ (1024 : Int) := by
  have next : (2 : ℚ) ^ (971 : Int) = 2 * 2 ^ (970 : Int) := zpow_one_add₀ two_ne_zero 970
  have last : (2 : ℚ) ^ (1024 : Int) = 2 ^ (54 : Int) * 2 ^ (970 : Int) :=
    zpow_add₀ two_ne_zero 54 970
  rw [overflow, next, last]
  ring

theorem overflow_lt : overflow < 2 ^ (1024 : Int) := by
  rw [← overflow_add]
  exact lt_add_of_pos_right _ (by positivity)

/-- A finite double is within half a unit of the exact value, which is a part in `2 ^ 53` of it. -/
def Rounds (x : Float) (exact : ℚ) : Prop :=
  ∃ value, fraction? x = some value ∧ |value - exact| ≤ |exact| / 2 ^ 53

/-- The mantissa has all of its bits where the exponent is above the least one. -/
theorem rounds_of_normal (positive : 0 < mantissa)
    (holds : Holds (.ofMantissaAndAccuracy mantissa accuracy) exact)
    (same : Format.binary64.targetExponent (totalExponent mantissa exponent) =
      mantissa.log2 + exponent - 52)
    (below : exponent ≤ mantissa.log2 + exponent - 52)
    (bounded : exact * 2 ^ exponent < overflow) (sign : Sign) :
    Rounds (.ofModel (.pack (roundWithAccuracy Format.binary64 sign mantissa exponent accuracy)))
      (signed sign (exact * 2 ^ exponent)) := by
  obtain ⟨rounded, near, read, _⟩ := exists_fraction_round (.inl positive) holds same below sign
  have least := holds.least
  rw [mantissa_ofMantissaAndAccuracy] at least
  have unit : (2 : ℚ) ^ (mantissa.log2 + exponent) ≤ exact * 2 ^ exponent :=
    (zpow_le_value positive exponent).trans (by gcongr)
  have large : (mantissa.log2 + exponent : Int) < 1024 :=
    (zpow_lt_zpow_iff_right₀ one_lt_two).mp (unit.trans_lt (bounded.trans overflow_lt))
  have half : (2 : ℚ) ^ (mantissa.log2 + exponent - 52) / 2 ≤ exact * 2 ^ exponent / 2 ^ 53 := by
    rw [zpow_sub₀ two_ne_zero, div_div]
    norm_num
    linarith
  have most : (2 : ℚ) ^ (mantissa.log2 + exponent - 52) ≤ 2 ^ (971 : Int) :=
    zpow_le_zpow_right₀ one_le_two (by omega)
  refine ⟨_, read ?_, ?_⟩
  · have above := (abs_le.mp near).2
    calc
      _ ≤ exact * 2 ^ exponent + 2 ^ (mantissa.log2 + exponent - 52) / 2 := by linarith
      _ < overflow + 2 ^ (971 : Int) / 2 := by linarith
      _ = _ := overflow_add
  · have magnitude := abs_signed sign (exact * 2 ^ exponent)
    rw [abs_signed_sub, magnitude]
    exact near.trans (half.trans (by gcongr; exact le_abs_self _))

/-- The least number whose double has a mantissa with all bits. -/
def leastNormal : ℚ := 2 ^ (-1022 : Int)

theorem rounds_roundWithAccuracy (some : 0 < mantissa ∨ exponent ≤ -1074)
    (holds : Holds (.ofMantissaAndAccuracy mantissa accuracy) exact)
    (below : exponent ≤ Format.binary64.targetExponent (totalExponent mantissa exponent))
    (normal : leastNormal ≤ exact * 2 ^ exponent) (bounded : exact * 2 ^ exponent < overflow)
    (sign : Sign) :
    Rounds (.ofModel (.pack (roundWithAccuracy Format.binary64 sign mantissa exponent accuracy)))
      (signed sign (exact * 2 ^ exponent)) := by
  have most := holds.most
  rw [mantissa_ofMantissaAndAccuracy] at most
  have next : (mantissa + 1 : ℚ) ≤ 2 ^ (mantissa.log2 + 1) := by
    exact_mod_cast Nat.succ_le_of_lt Nat.lt_log2_self
  have size : (-1022 : Int) < mantissa.log2 + 1 + exponent := by
    apply (zpow_lt_zpow_iff_right₀ (one_lt_two (α := ℚ))).mp
    calc
      _ ≤ exact * 2 ^ exponent := normal
      _ < 2 ^ (mantissa.log2 + 1) * 2 ^ exponent := by
        gcongr
        exact most.trans_le next
      _ = _ := by rw [zpow_add₀ two_ne_zero, ← Nat.cast_succ, zpow_natCast]
  have same : Format.binary64.targetExponent (totalExponent mantissa exponent) =
      mantissa.log2 + exponent - 52 := by
    rw [targetExponent_eq, totalExponent]
    omega
  have positive : 0 < mantissa := by
    refine Nat.pos_of_ne_zero fun none => ?_
    rw [none, Nat.log2_zero] at size
    omega
  exact rounds_of_normal positive holds same (below.trans_eq same) bounded sign

/-- A finite double is its own value. -/
theorem Fits.rounds (fits : Fits mantissa exponent) (sign : Sign) :
    Rounds (.ofModel (.pack (.finite sign mantissa exponent fits.positive)))
      (signed sign (mantissa * 2 ^ exponent)) := by
  refine ⟨_, fits.fraction_pack sign, ?_⟩
  rw [sub_self, abs_zero]
  positivity

/-- Rounding starts with no higher exponent than it ends with. -/
theorem exists_round (positive : 0 < mantissa) (exponent : Int) (sign : Sign) :
    ∃ shift : Nat, exponent - shift = min exponent (Format.binary64.targetExponent
        (totalExponent (mantissa * 2 ^ shift) (exponent - shift))) ∧
      UnpackedFloat.round Format.binary64 sign mantissa exponent =
        roundWithAccuracy Format.binary64 sign (mantissa * 2 ^ shift) (exponent - shift)
          .exact := by
  have target := targetExponent_eq (totalExponent mantissa exponent)
  simp only [UnpackedFloat.round, decreaseExponent, Nat.shiftLeft_eq]
  generalize same : Format.binary64.targetExponent (totalExponent mantissa exponent) = unit at *
  generalize shifted : (exponent - unit).toNat = shift
  have log2 := log2_mul_two_pow positive shift
  refine ⟨shift, ?_, rfl⟩
  rw [targetExponent_eq]
  simp only [totalExponent] at *
  omega

/-- A whole multiple of the least unit keeps all bits for which there is no room. -/
theorem rounds_round (positive : 0 < mantissa) (least : -1074 ≤ exponent)
    (bounded : (mantissa : ℚ) * 2 ^ exponent < overflow) (sign : Sign) :
    Rounds (.ofModel (.pack (UnpackedFloat.round Format.binary64 sign mantissa exponent)))
      (signed sign (mantissa * 2 ^ exponent)) := by
  obtain ⟨shift, lowest, rounded⟩ := exists_round positive exponent sign
  have some : 0 < mantissa * 2 ^ shift := by positivity
  have value : ((mantissa * 2 ^ shift : Nat) : ℚ) * 2 ^ (exponent - shift) =
      mantissa * 2 ^ exponent := value_eq_of_shift rfl rfl
  rw [← value] at bounded ⊢
  rw [rounded]
  generalize same : Format.binary64.targetExponent
    (totalExponent (mantissa * 2 ^ shift) (exponent - shift)) = unit at lowest
  have target := same
  rw [targetExponent_eq, totalExponent] at target
  by_cases normal : unit = (mantissa * 2 ^ shift).log2 + (exponent - shift) - 52
  · exact rounds_of_normal some (holds_exact _) (same.trans normal) (by omega) bounded sign
  · have fits : Fits (mantissa * 2 ^ shift) (exponent - shift) :=
      .of_log2 some (by omega) (by omega) (by omega) (.inr (by omega))
    have exact := fits.roundWithAccuracy_shifted sign 0
    rw [Nat.pow_zero, Nat.mul_one, Int.natCast_zero, Int.sub_zero] at exact
    rw [exact]
    exact fits.rounds sign

theorem signed_mul_right (sign : Sign) (magnitude factor : ℚ) :
    signed sign magnitude * factor = signed sign (magnitude * factor) := by
  cases sign with
  | positive => rfl
  | negative => exact neg_mul magnitude factor

/-- A number that is not zero is rounded with its sign. -/
theorem exists_normalize {number : Int} (some : number ≠ 0) (exponent : Int) (zeroSign : Sign) :
    ∃ sign mantissa, 0 < mantissa ∧ (number : ℚ) = signed sign (mantissa : Nat) ∧
      normalize Format.binary64 number exponent zeroSign =
        UnpackedFloat.round Format.binary64 sign mantissa exponent := by
  rcases lt_or_gt_of_ne some with below | above
  · obtain ⟨mantissa, rfl⟩ : ∃ mantissa : Nat, number = -mantissa := ⟨number.natAbs, by omega⟩
    have value : ((-mantissa : Int) : ℚ) = signed .negative mantissa := by push_cast; rfl
    refine ⟨.negative, mantissa, by omega, value, ?_⟩
    rw [UnpackedFloat.normalize, Int.compare_eq_lt.mpr below, neg_neg, Int.toNat_natCast]
  · obtain ⟨mantissa, rfl⟩ : ∃ mantissa : Nat, number = mantissa := ⟨number.natAbs, by omega⟩
    refine ⟨.positive, mantissa, by omega, Int.cast_natCast mantissa, ?_⟩
    rw [UnpackedFloat.normalize, Int.compare_eq_gt.mpr above, Int.toNat_natCast]

theorem rounds_normalize {number : Int} (least : -1074 ≤ exponent)
    (bounded : (|number| : ℚ) * 2 ^ exponent < overflow) (sign : Sign) :
    Rounds (.ofModel (.pack (normalize Format.binary64 number exponent sign)))
      (number * 2 ^ exponent) := by
  rcases eq_or_ne number 0 with rfl | some
  · refine ⟨0, fraction_pack_zero sign, ?_⟩
    norm_num
  · obtain ⟨itsSign, mantissa, positive, value, rounded⟩ := exists_normalize some exponent sign
    rw [value, abs_signed, Nat.abs_cast] at bounded
    rw [rounded, value, signed_mul_right]
    exact rounds_round positive least bounded itsSign

end Reckoner.Binary64
