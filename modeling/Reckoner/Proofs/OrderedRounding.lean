/-
This file shows that rounding keeps the order. The result of an operation on finite doubles, which
may be infinite, lies on the same side of every finite double as the exact result.
-/

import Reckoner.Proofs.Comparison

namespace Reckoner.Binary64

open Float.Model (UnpackedFloat Format totalExponent)
open Float.Model.UnpackedFloat

/-- No finite double lies between the two numbers. -/
structure KeepsOrder (x : Float) (exact : ℚ) : Prop where
  least : ∀ {y : Float} {value : ℚ}, fraction? y = some value → value ≤ exact → y ≤ x
  most : ∀ {y : Float} {value : ℚ}, fraction? y = some value → exact ≤ value → x ≤ y

section Rounding

variable {x y : Float} {first second value exact : ℚ} {mantissa : Nat} {exponent target : Int}
  {accuracy : Accuracy}

/-- A finite double keeps the order of its own fraction. -/
theorem KeepsOrder.of_fraction (fraction : fraction? x = some value) : KeepsOrder x value :=
  ⟨fun other least => (le_iff other fraction).mpr least,
    fun other most => (le_iff fraction other).mpr most⟩

/-- A result that keeps the order is finite if the exact one lies between finite doubles. -/
theorem KeepsOrder.exists_fraction {least most : Float} (keeps : KeepsOrder x value)
    (leastFraction : fraction? least = some first) (mostFraction : fraction? most = some second)
    (above : first ≤ value) (below : value ≤ second) :
    ∃ value, fraction? x = some value ∧ first ≤ value ∧ value ≤ second :=
  exists_fraction_between leastFraction mostFraction (keeps.least leastFraction above)
    (keeps.most mostFraction below)

/-- A multiple of a unit that lies less than a unit above another is not above it. -/
theorem multiple_le_of_lt {count other : Nat} {unit : ℚ} (positive : 0 < unit)
    (less : count * unit < other * unit + unit) : count * unit ≤ other * unit := by
  rw [← add_one_mul, mul_lt_mul_iff_left₀ positive] at less
  gcongr
  exact Nat.le_of_lt_succ (by exact_mod_cast less)

/-- Where a number is rounded to a multiple of its unit, no multiple is passed. -/
theorem le_rounded_and_rounded_le {rounded : Nat}
    (near : |rounded * 2 ^ target - exact| ≤ 2 ^ target / 2) (whole : Nat) :
    (whole * 2 ^ target ≤ exact → whole * 2 ^ target ≤ (rounded * 2 ^ target : ℚ)) ∧
      (exact ≤ whole * 2 ^ target → rounded * 2 ^ target ≤ (whole * 2 ^ target : ℚ)) := by
  have unit : (0 : ℚ) < 2 ^ target := by positivity
  obtain ⟨below, above⟩ := abs_le.mp near
  exact ⟨fun least => multiple_le_of_lt unit (by linarith),
    fun most => multiple_le_of_lt unit (by linarith)⟩

/-- The doubles are multiples of the unit, or smaller than all numbers that fill a mantissa with
it. -/
theorem Fits.exists_multiple_or_lt (fits : Fits mantissa exponent) (target : Int) :
    (∃ whole : Nat, (mantissa * 2 ^ exponent : ℚ) = whole * 2 ^ target) ∨
      -1074 < target ∧ (mantissa * 2 ^ exponent : ℚ) < (2 ^ 52 : Nat) * 2 ^ target := by
  rcases le_or_gt target exponent with le | less
  · obtain ⟨shift, rfl⟩ := Int.le.dest le
    refine .inl ⟨mantissa * 2 ^ shift, ?_⟩
    rw [zpow_add₀ two_ne_zero, zpow_natCast]
    push_cast
    ring
  · have sizes := fits.log2
    refine .inr ⟨by omega, (value_lt_zpow fits.positive exponent).trans_le ?_⟩
    calc
      _ ≤ (2 : ℚ) ^ (52 + target) := by
        apply zpow_le_zpow_right₀ one_le_two
        rw [totalExponent]
        omega
      _ = _ := by
        rw [zpow_add₀ two_ne_zero]
        norm_num

/-- No double lies between a number and the nearest multiple of its unit. -/
theorem keeps_of_near (fraction : fraction? x = some value) {rounded : Nat} (nonneg : 0 ≤ exact)
    (near : |rounded * 2 ^ target - exact| ≤ 2 ^ target / 2)
    (used : (2 ^ 52 : Nat) * 2 ^ target ≤ exact ∨ target = -1074) :
    (value ≤ exact → value ≤ rounded * 2 ^ target) ∧
      (exact ≤ value → rounded * 2 ^ target ≤ value) := by
  rcases exists_unpack fraction with ⟨_, _, rfl⟩ | ⟨sign, mantissa, exponent, positive, read, rfl⟩
  · have passed := le_rounded_and_rounded_le near 0
    rwa [Nat.cast_zero, zero_mul] at passed
  have magnitude : (0 : ℚ) < mantissa * 2 ^ exponent := by positivity
  cases sign with
  | negative =>
      refine ⟨fun _ => (neg_neg_of_pos magnitude).le.trans (by positivity), fun most => ?_⟩
      exact absurd (nonneg.trans most) (neg_neg_of_pos magnitude).not_ge
  | positive =>
      rcases (fits_of_unpack read).exists_multiple_or_lt target with ⟨whole, same⟩ | ⟨above, small⟩
      · rw [signed, same]
        exact le_rounded_and_rounded_le near whole
      · have large := used.resolve_right above.ne'
        have full := (le_rounded_and_rounded_le near (2 ^ 52)).1 large
        exact ⟨fun _ => small.le.trans full, fun most => absurd (large.trans most) small.not_ge⟩

/-- The order is kept also where both numbers have a minus sign. -/
theorem keeps_of_near_signed (sign : Sign) (fraction : fraction? x = some value) {rounded : Nat}
    (nonneg : 0 ≤ exact) (near : |rounded * 2 ^ target - exact| ≤ 2 ^ target / 2)
    (used : (2 ^ 52 : Nat) * 2 ^ target ≤ exact ∨ target = -1074) :
    (value ≤ signed sign exact → value ≤ signed sign (rounded * 2 ^ target)) ∧
      (signed sign exact ≤ value → signed sign (rounded * 2 ^ target) ≤ value) := by
  cases sign with
  | positive => exact keeps_of_near fraction nonneg near used
  | negative =>
      have opposite := keeps_of_near (fraction_neg fraction) nonneg near used
      exact ⟨fun low => le_neg.mp (opposite.2 (le_neg.mp low)),
        fun high => neg_le.mp (opposite.1 (neg_le.mp high))⟩

/-- A number with bits above the least unit fills a mantissa. -/
theorem used_of_targetExponent (some : 0 < mantissa ∨ exponent ≤ -1074)
    (least : mantissa ≤ exact)
    (same : Format.binary64.targetExponent (totalExponent mantissa exponent) = target) :
    (2 ^ 52 : Nat) * 2 ^ target ≤ exact * 2 ^ exponent ∨ target = -1074 := by
  rw [targetExponent_eq, totalExponent] at same
  refine or_iff_not_imp_right.mpr fun normal => ?_
  have positive : 0 < mantissa := by
    refine Nat.pos_of_ne_zero fun none => ?_
    have low := some.resolve_left none.not_gt
    rw [none, Nat.log2_zero] at same
    omega
  calc
    _ = (2 : ℚ) ^ (mantissa.log2 + exponent : Int) := by
      have total : (mantissa.log2 + exponent : Int) = 52 + target := by omega
      rw [total, zpow_add₀ two_ne_zero]
      norm_num
    _ ≤ mantissa * 2 ^ exponent := zpow_le_value positive exponent
    _ ≤ _ := by gcongr

/-- No finite double reaches the power of two that overflows. -/
theorem abs_lt_of_fraction (fraction : fraction? x = some value) : |value| < 2 ^ (1024 : Int) :=
  (lt_add_one _).trans ((abs_add_one_lt_overflow fraction).trans overflow_lt)

/-- No finite double is above the positive infinity. -/
theorem le_infinity (read : x.toModel.unpack = .infinity .positive)
    (fraction : fraction? y = some value) : y ≤ x :=
  le_iff_place.mpr ⟨_, _, place_of_fraction fraction, by simp only [place?, read], le_top⟩

/-- No finite double is below the negative infinity. -/
theorem infinity_le (read : x.toModel.unpack = .infinity .negative)
    (fraction : fraction? y = some value) : x ≤ y :=
  le_iff_place.mpr ⟨_, _, by simp only [place?, read], place_of_fraction fraction, bot_le⟩

/-- Rounding passes no double, and may end at infinity. -/
theorem keepsOrder_roundWithAccuracy (size : 0 < mantissa ∨ exponent ≤ -1074)
    (holds : Holds (.ofMantissaAndAccuracy mantissa accuracy) exact)
    (below : exponent ≤ Format.binary64.targetExponent (totalExponent mantissa exponent))
    (sign : Sign) :
    KeepsOrder
      (.ofModel (.pack (roundWithAccuracy Format.binary64 sign mantissa exponent accuracy)))
      (signed sign (exact * 2 ^ exponent)) := by
  have least := holds.least
  rw [mantissa_ofMantissaAndAccuracy] at least
  have nonneg : 0 ≤ exact := (Nat.cast_nonneg mantissa).trans least
  generalize same : Format.binary64.targetExponent (totalExponent mantissa exponent) = target
    at below
  obtain ⟨rounded, near, finite, infinite⟩ := exists_fraction_round size holds same below sign
  have used := used_of_targetExponent size least same
  generalize Float.ofModel _ = result at *
  -- The rounded number passes no double, also where it is too large to be one itself.
  have keeps {y : Float} {value : ℚ} (fraction : fraction? y = some value) :=
    keeps_of_near_signed sign fraction (by positivity : 0 ≤ exact * 2 ^ exponent) near used
  rcases lt_or_ge (rounded * 2 ^ target : ℚ) (2 ^ (1024 : Int)) with bounded | large
  · exact ⟨fun fraction low => (le_iff fraction (finite bounded)).mpr ((keeps fraction).1 low),
      fun fraction high => (le_iff (finite bounded) fraction).mpr ((keeps fraction).2 high)⟩
  · have read := infinite large
    cases sign with
    | positive =>
        refine ⟨fun fraction _ => le_infinity read fraction, fun fraction high => ?_⟩
        have passed := large.trans ((keeps fraction).2 high)
        exact absurd ((le_abs_self _).trans_lt (abs_lt_of_fraction fraction)) passed.not_gt
    | negative =>
        refine ⟨fun fraction low => ?_, fun fraction _ => infinity_le read fraction⟩
        have passed := large.trans (le_neg.mp ((keeps fraction).1 low))
        exact absurd ((neg_le_abs _).trans_lt (abs_lt_of_fraction fraction)) passed.not_gt

/-- Rounding a whole mantissa keeps the order. -/
theorem keepsOrder_round (positive : 0 < mantissa) (exponent : Int) (sign : Sign) :
    KeepsOrder (.ofModel (.pack (UnpackedFloat.round Format.binary64 sign mantissa exponent)))
      (signed sign (mantissa * 2 ^ exponent)) := by
  obtain ⟨shift, lowest, rounded⟩ := exists_round positive exponent sign
  have some : 0 < mantissa * 2 ^ shift := by positivity
  have value : ((mantissa * 2 ^ shift : Nat) : ℚ) * 2 ^ (exponent - shift) =
      mantissa * 2 ^ exponent := value_eq_of_shift rfl rfl
  rw [rounded, ← value]
  exact keepsOrder_roundWithAccuracy (.inl some) (holds_exact _)
    (lowest.trans_le (min_le_right _ _)) sign

/-- Rounding a whole mantissa with its sign keeps the order. -/
theorem keepsOrder_normalize (number : Int) (exponent : Int) (sign : Sign) :
    KeepsOrder (.ofModel (.pack (normalize Format.binary64 number exponent sign)))
      (number * 2 ^ exponent) := by
  rcases eq_or_ne number 0 with rfl | some
  · rw [Int.cast_zero, zero_mul]
    exact .of_fraction (fraction_pack_zero sign)
  · obtain ⟨itsSign, mantissa, positive, value, rounded⟩ := exists_normalize some exponent sign
    rw [rounded, value, signed_mul_right]
    exact keepsOrder_round positive exponent itsSign

end Rounding

section Operations

variable {x y : Float} {first second : ℚ}

/-- A sum of finite doubles keeps the order of the exact sums. -/
theorem keepsOrder_add (firstFraction : fraction? x = some first)
    (secondFraction : fraction? y = some second) : KeepsOrder (x + y) (first + second) := by
  rcases exists_add firstFraction secondFraction with exact | ⟨number, exponent, _, value, rounded⟩
  · exact .of_fraction exact
  · rw [value, rounded]
    exact keepsOrder_normalize number exponent .positive

/-- A product of finite doubles keeps the order of the exact products. -/
theorem keepsOrder_mul (firstFraction : fraction? x = some first)
    (secondFraction : fraction? y = some second) : KeepsOrder (x * y) (first * second) := by
  rcases exists_mul firstFraction secondFraction with exact |
    ⟨sign, mantissa, exponent, positive, below, value, rounded⟩
  · exact .of_fraction exact
  · rw [value, rounded]
    exact keepsOrder_roundWithAccuracy (.inl positive) (holds_exact _) below sign

/-- A quotient of finite doubles keeps the order of the exact quotients. -/
theorem keepsOrder_div (firstFraction : fraction? x = some first)
    (secondFraction : fraction? y = some second) (nonzero : second ≠ 0) :
    KeepsOrder (x / y) (first / second) := by
  rcases exists_div firstFraction secondFraction nonzero with exact |
    ⟨sign, mantissa, exponent, accuracy, exact, size, below, holds, value, _, rounded⟩
  · exact .of_fraction exact
  · rw [value, rounded]
    exact keepsOrder_roundWithAccuracy size holds below sign

/-- A whole number is rounded like every other number. -/
theorem ofScientific_natCast {number : Nat} (positive : 0 < number) :
    UnpackedFloat.ofScientific Format.binary64 number 0 =
      roundWithAccuracy Format.binary64 .positive (number * 2 ^ 53) (-53) .exact := by
  have notAbove : ¬(0 : Int) > 2 ^ 11 := by norm_num
  have notBelow : ¬(0 : Int) < -(2 ^ 11 + number.log2) := by omega
  simp only [UnpackedFloat.ofScientific, positive.ne', notAbove, notBelow, ↓reduceDIte, ↓reduceIte,
    le_refl, mul, Nat.shiftLeft_eq, Int.toNat_zero, Nat.pow_zero, Nat.mul_one, Int.add_zero]
  rfl

/-- The double of a whole number keeps the order of the whole numbers. -/
theorem keepsOrder_natCast {number : Nat} (positive : 0 < number) :
    KeepsOrder (number : Float) number := by
  by_cases small : number < 2 ^ 53
  · exact .of_fraction (fraction_natCast small)
  · have some : 0 < number * 2 ^ 53 := by positivity
    have log2 := log2_mul_two_pow positive 53
    have below : (-53 : Int) ≤ Format.binary64.targetExponent
        (totalExponent (number * 2 ^ 53) (-53)) := by
      rw [targetExponent_eq, totalExponent]
      omega
    have value : (number : ℚ) = signed .positive ((number * 2 ^ 53 : Nat) * 2 ^ (-53 : Int)) := by
      rw [signed]
      push_cast
      norm_num
      ring
    have rounded := keepsOrder_roundWithAccuracy (.inl some) (holds_exact _) below .positive
    rw [← value, ← ofScientific_natCast positive] at rounded
    have same : (number : Float) =
        .ofModel (.pack (UnpackedFloat.ofScientific Format.binary64 number 0)) := by
      change Float.ofScientific number false 0 = _
      unfold Float.ofScientific
      rw [dif_neg (fun fits => small fits.1)]
      rfl
    rw [same]
    exact rounded

end Operations

section Infinity

variable {x y : Float} {value : ℚ}

theorem ofModel_pack_infinity : Float.ofModel (.pack (.infinity .positive)) = infinity :=
  Float.toBits_inj.mp (by decide)

theorem unpack_infinity : infinity.toModel.unpack = .infinity .positive := by
  rw [← ofModel_pack_infinity]
  rfl

/-- A number that is not below zero is infinite or finite. -/
theorem infinity_or_fraction_of_zero_le (nonneg : 0.0 ≤ x) :
    x = infinity ∨ ∃ value, fraction? x = some value ∧ 0 ≤ value := by
  cases read : x.toModel.unpack with
  | notANumber =>
      rw [← ofModel_pack read] at nonneg
      exact absurd nonneg (by decide)
  | infinity sign =>
      cases sign with
      | positive => exact .inl (eq_of_unpack (read.trans unpack_infinity.symm))
      | negative =>
          rw [← ofModel_pack read] at nonneg
          exact absurd nonneg (by decide)
  | zero sign =>
      have fraction : fraction? x = some 0 := by rw [fraction?, read]
      exact .inr ⟨0, fraction, le_rfl⟩
  | finite sign mantissa exponent positive =>
      have fraction := fraction_finite read
      exact .inr ⟨_, fraction, (le_iff fraction_zero fraction).mp nonneg⟩

/-- No number from zero up is above infinity. -/
theorem le_infinity_of_zero_le (nonneg : 0.0 ≤ x) : x ≤ infinity := by
  rcases infinity_or_fraction_of_zero_le nonneg with rfl | ⟨value, fraction, _⟩
  · decide
  · exact le_infinity unpack_infinity fraction

/-- Infinity stays what it is when a number from zero up is added. -/
theorem infinity_add (nonneg : 0.0 ≤ y) : infinity + y = infinity := by
  rcases infinity_or_fraction_of_zero_le nonneg with rfl | ⟨value, fraction, _⟩
  · exact Float.toBits_inj.mp (by decide)
  · change Float.ofModel (.pack (add Format.binary64 _ y.toModel.unpack)) = _
    rw [unpack_infinity]
    rcases exists_unpack fraction with ⟨_, read, _⟩ | ⟨_, _, _, _, read, _⟩ <;> rw [read] <;>
    exact ofModel_pack_infinity

/-- A finite number is lost when infinity is added. -/
theorem add_infinity (fraction : fraction? y = some value) : y + infinity = infinity := by
  change Float.ofModel (.pack (add Format.binary64 y.toModel.unpack _)) = _
  rw [unpack_infinity]
  rcases exists_unpack fraction with ⟨_, read, _⟩ | ⟨_, _, _, _, read, _⟩ <;> rw [read] <;>
  exact ofModel_pack_infinity

/-- The product of infinity and a finite number above zero is infinity. -/
theorem infinity_mul (fraction : fraction? y = some value) (positive : 0 < value) :
    infinity * y = infinity := by
  obtain ⟨_, _, ⟨_, read⟩, _⟩ := exists_isPositive fraction positive
  change Float.ofModel (.pack (mul Format.binary64 _ y.toModel.unpack)) = _
  rw [unpack_infinity, read]
  exact ofModel_pack_infinity

/-- The quotient of infinity by a finite number above zero is infinity. -/
theorem infinity_div (fraction : fraction? y = some value) (positive : 0 < value) :
    infinity / y = infinity := by
  obtain ⟨_, _, ⟨_, read⟩, _⟩ := exists_isPositive fraction positive
  change Float.ofModel (.pack (div Format.binary64 _ y.toModel.unpack)) = _
  rw [unpack_infinity, read]
  exact ofModel_pack_infinity

/-- A sum of two numbers that are not below zero is not below the first of them. -/
theorem le_add_of_zero_le (nonneg : 0.0 ≤ x) (other : 0.0 ≤ y) : x ≤ x + y := by
  rcases infinity_or_fraction_of_zero_le nonneg with rfl | ⟨first, fraction, _⟩
  · rw [infinity_add other]
    exact le_infinity_of_zero_le nonneg
  rcases infinity_or_fraction_of_zero_le other with rfl | ⟨second, otherFraction, least⟩
  · rw [add_infinity fraction]
    exact le_infinity_of_zero_le nonneg
  · exact (keepsOrder_add fraction otherFraction).least fraction (le_add_of_nonneg_right least)

/-- Nothing is lost to a factor that is neither zero nor infinite. -/
theorem zero_le_mul (nonneg : 0.0 ≤ x) (fraction : fraction? y = some value)
    (positive : 0 < value) : 0.0 ≤ x * y := by
  rcases infinity_or_fraction_of_zero_le nonneg with rfl | ⟨first, firstFraction, least⟩
  · rw [infinity_mul fraction positive]
    exact nonneg
  · exact (keepsOrder_mul firstFraction fraction).least fraction_zero
      (mul_nonneg least positive.le)

end Infinity

end Reckoner.Binary64
