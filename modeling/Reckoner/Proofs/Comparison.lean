/-
This file shows that finite doubles are in the order of their fractions, with the infinite ones on
either side of them.
-/

import Reckoner.Proofs.RoundedArithmetic

namespace Reckoner.Binary64

open Float.Model (UnpackedFloat Format totalExponent)
open Float.Model.UnpackedFloat

variable {mantissa otherMantissa : Nat} {exponent otherExponent : Int}

/-- The exponents decide before the mantissas do. -/
theorem Fits.lt_of_exponent_lt (fits : Fits mantissa exponent)
    (otherFits : Fits otherMantissa otherExponent) (less : exponent < otherExponent) :
    (mantissa * 2 ^ exponent : ℚ) < otherMantissa * 2 ^ otherExponent := by
  have sizes := fits.log2
  have otherSizes := otherFits.log2
  calc
    _ < (2 : ℚ) ^ totalExponent mantissa exponent := value_lt_zpow fits.positive exponent
    _ ≤ 2 ^ (otherMantissa.log2 + otherExponent) := by
      apply zpow_le_zpow_right₀ one_le_two
      rw [totalExponent]
      omega
    _ ≤ _ := zpow_le_value otherFits.positive otherExponent

/-- Comparing the exponents and then the mantissas compares the numbers. -/
theorem Fits.compare_eq (fits : Fits mantissa exponent)
    (otherFits : Fits otherMantissa otherExponent) :
    (compare exponent otherExponent).then (compare mantissa otherMantissa) =
      compare (mantissa * 2 ^ exponent : ℚ) (otherMantissa * 2 ^ otherExponent) := by
  rcases lt_trichotomy exponent otherExponent with less | rfl | more
  · rw [Int.compare_eq_lt.mpr less, compare_lt_iff_lt.mpr (fits.lt_of_exponent_lt otherFits less)]
    rfl
  · have unit : (0 : ℚ) < 2 ^ exponent := by positivity
    rw [Int.compare_eq_eq.mpr rfl, Ordering.eq_then]
    rcases lt_trichotomy mantissa otherMantissa with less | rfl | more
    · rw [Nat.compare_eq_lt.mpr less, eq_comm, compare_lt_iff_lt]
      gcongr
    · rw [Nat.compare_eq_eq.mpr rfl, eq_comm, compare_eq_iff_eq]
    · rw [Nat.compare_eq_gt.mpr more, eq_comm, compare_gt_iff_gt]
      gcongr
  · rw [Int.compare_eq_gt.mpr more, compare_gt_iff_gt.mpr (otherFits.lt_of_exponent_lt fits more)]
    rfl

/-- Opposite numbers are in the opposite order. -/
theorem compare_neg (first second : ℚ) :
    compare (-first) (-second) = (compare first second).swap := by
  rcases lt_trichotomy first second with less | rfl | more
  · rw [compare_lt_iff_lt.mpr less, Ordering.swap, compare_gt_iff_gt]
    exact neg_lt_neg less
  · rw [compare_eq_iff_eq.mpr rfl, compare_eq_iff_eq.mpr rfl, Ordering.swap]
  · rw [compare_gt_iff_gt.mpr more, Ordering.swap, compare_lt_iff_lt]
    exact neg_lt_neg more

variable {x y : Float} {first second value : ℚ}

/-- Finite doubles compare as their fractions do, whatever their signs are. -/
theorem compare_unpack (firstFraction : fraction? x = some first)
    (secondFraction : fraction? y = some second) :
    x.toModel.unpack.compare y.toModel.unpack = some (compare first second) := by
  rcases exists_unpack firstFraction with ⟨sign, read, rfl⟩ |
    ⟨sign, mantissa, exponent, positive, read, rfl⟩ <;>
  rcases exists_unpack secondFraction with ⟨otherSign, otherRead, rfl⟩ |
    ⟨otherSign, otherMantissa, otherExponent, otherPositive, otherRead, rfl⟩
  · rw [read, otherRead, compare_eq_iff_eq.mpr rfl]
    rfl
  · have magnitude : (0 : ℚ) < otherMantissa * 2 ^ otherExponent := by positivity
    rw [read, otherRead]
    cases otherSign with
    | positive => rw [signed, compare_lt_iff_lt.mpr magnitude]; rfl
    | negative => rw [signed, compare_gt_iff_gt.mpr (neg_neg_of_pos magnitude)]; rfl
  · have magnitude : (0 : ℚ) < mantissa * 2 ^ exponent := by positivity
    rw [read, otherRead]
    cases sign with
    | positive => rw [signed, compare_gt_iff_gt.mpr magnitude]; rfl
    | negative => rw [signed, compare_lt_iff_lt.mpr (neg_neg_of_pos magnitude)]; rfl
  · have magnitude : (0 : ℚ) < mantissa * 2 ^ exponent := by positivity
    have otherMagnitude : (0 : ℚ) < otherMantissa * 2 ^ otherExponent := by positivity
    have same := (fits_of_unpack read).compare_eq (fits_of_unpack otherRead)
    rw [read, otherRead]
    cases sign <;> cases otherSign <;> simp only [signed]
    · rw [compare_neg, ← same]
      rfl
    · rw [compare_lt_iff_lt.mpr (by linarith)]
      rfl
    · rw [compare_gt_iff_gt.mpr (by linarith)]
      rfl
    · rw [← same]
      rfl

/-- Finite doubles are in strict order exactly if their fractions are. -/
theorem lt_iff (firstFraction : fraction? x = some first)
    (secondFraction : fraction? y = some second) : x < y ↔ first < second := by
  change decide (x.toModel.unpack.lt y.toModel.unpack = true) = true ↔ _
  rw [decide_eq_true_iff, UnpackedFloat.lt, compare_unpack firstFraction secondFraction,
    beq_iff_eq, Option.some_inj, compare_lt_iff_lt]

/-- Finite doubles are in order exactly if their fractions are. -/
theorem le_iff (firstFraction : fraction? x = some first)
    (secondFraction : fraction? y = some second) : x ≤ y ↔ first ≤ second := by
  change decide (x.toModel.unpack.le y.toModel.unpack = true) = true ↔ _
  rw [decide_eq_true_iff, UnpackedFloat.le, compare_unpack firstFraction secondFraction,
    Option.any_some, Ordering.isLE_iff_ne_gt]
  exact compare_le_iff_le

/-- Finite doubles are equal numbers exactly if their fractions are equal. -/
theorem beq_iff (firstFraction : fraction? x = some first)
    (secondFraction : fraction? y = some second) : (x == y) = true ↔ first = second := by
  change x.toModel.unpack.beq y.toModel.unpack = true ↔ _
  rw [UnpackedFloat.beq, beq_iff_eq, compare_unpack firstFraction secondFraction,
    Option.some_inj, compare_eq_iff_eq]

@[simp] theorem fraction_zero : fraction? 0.0 = some 0 := rfl

@[simp] theorem fraction_one : fraction? 1.0 = some 1 := by
  decide +kernel

/-- The magnitude of a finite double is the absolute value of its fraction. -/
theorem fraction_magnitude (fraction : fraction? x = some value) :
    fraction? (Scalar.magnitude x) = some |value| := by
  unfold Scalar.magnitude
  split
  · next negative =>
      rw [abs_of_neg ((lt_iff fraction fraction_zero).mp negative)]
      exact fraction_neg fraction
  · next nonnegative =>
      rw [abs_of_nonneg (not_lt.mp (mt (lt_iff fraction fraction_zero).mpr nonnegative))]
      exact fraction

/-- No finite double is larger than the one with all bits set and the largest exponent. -/
theorem abs_le_of_fraction (fraction : fraction? x = some value) :
    |value| ≤ (2 ^ 53 - 1) * 2 ^ (971 : Int) := by
  rcases exists_unpack fraction with ⟨sign, read, rfl⟩ |
    ⟨sign, mantissa, exponent, positive, read, rfl⟩
  · rw [abs_zero]
    positivity
  · have fits := fits_of_unpack read
    have bounded := fits.bounded
    have size : mantissa + 1 ≤ 2 ^ 53 :=
      (Nat.log2_lt positive.ne').mp (Nat.lt_succ_of_le fits.log2.1)
    have most : (mantissa : ℚ) ≤ 2 ^ 53 - 1 := by
      rw [le_sub_iff_add_le]
      exact_mod_cast size
    rw [abs_signed, abs_of_pos (by positivity)]
    exact mul_le_mul most (zpow_le_zpow_right₀ one_le_two bounded) (by positivity) (by norm_num)

/-- One more makes no finite double overflow. -/
theorem abs_add_one_lt_overflow (fraction : fraction? x = some value) : |value| + 1 < overflow := by
  have one : (1 : ℚ) < 2 ^ (970 : Int) := one_lt_zpow₀ one_lt_two (by norm_num)
  have next : (2 ^ 53 - 1) * 2 ^ (971 : Int) + 2 ^ (970 : Int) = overflow := by
    rw [show (2 : ℚ) ^ (971 : Int) = 2 * 2 ^ (970 : Int) from zpow_one_add₀ two_ne_zero 970,
      overflow]
    ring
  exact (add_lt_add_of_le_of_lt (abs_le_of_fraction fraction) one).trans_eq next

/-- A finite double is at most itself. -/
theorem isNumber_of_fraction (fraction : fraction? x = some value) : Scalar.isNumber x :=
  decide_eq_true ((le_iff fraction fraction).mpr le_rfl)

/-- The test for numbers fails on nothing but what is no number. -/
theorem isNumber_iff (x : Float) : Scalar.isNumber x ↔ x.isNaN = false := by
  have test : Scalar.isNumber x ↔ x.toModel.unpack.le x.toModel.unpack = true := by
    refine decide_eq_true_iff.trans ?_
    change decide (x.toModel.unpack.le x.toModel.unpack = true) = true ↔ _
    rw [decide_eq_true_iff]
  have kind : x.isNaN = x.toModel.unpack.isNaN := rfl
  rw [kind]
  cases read : x.toModel.unpack with
  | finite sign mantissa exponent positive =>
      exact iff_of_true (isNumber_of_fraction (fraction_finite read)) rfl
  | notANumber =>
      rw [test, read]
      decide
  | infinity sign | zero sign =>
      rw [test, read]
      cases sign <;> decide

/-- A double with a fraction is finite. -/
theorem isFinite_of_fraction (fraction : fraction? x = some value) : Scalar.isFinite x := by
  change x.toModel.unpack.isFinite = true
  rcases exists_unpack fraction with ⟨sign, read, rfl⟩ |
    ⟨sign, mantissa, exponent, positive, read, rfl⟩
  · rw [read]
    rfl
  · rw [read]
    rfl

/-- A finite double has a fraction. -/
theorem exists_fraction {x : Float} (finite : x.isFinite) : ∃ value, fraction? x = some value := by
  change x.toModel.unpack.isFinite = true at finite
  unfold fraction?
  cases read : x.toModel.unpack with
  | notANumber | infinity sign => simp [read, UnpackedFloat.isFinite] at finite
  | zero sign => exact ⟨_, rfl⟩
  | finite sign mantissa exponent positive => cases sign <;> exact ⟨_, rfl⟩

/-- A number with no more bits than a mantissa is the value of its double. -/
theorem fraction_natCast {number : Nat} (small : number < 2 ^ 53) :
    fraction? (number : Float) = some (number : ℚ) := by
  rcases Nat.eq_zero_or_pos number with rfl | positive
  · rfl
  · have fraction := fraction_toFloat positive small
    have same : Float.ofScientific number false 0 = number.toUInt64.toFloat :=
      ofScientific_eq_of_small positive ⟨small, Nat.zero_le 22⟩ (by
        rw [fraction, if_neg Bool.false_ne_true, pow_zero, mul_one])
    change fraction? (Float.ofScientific number false 0) = _
    rw [same, fraction]

theorem zero_le_one_double : (0.0 : Float) ≤ 1.0 :=
  (le_iff fraction_zero fraction_one).mpr zero_le_one

section Places

variable {z : Float}

/-- The fractions, with one more place on either side of all of them. -/
abbrev Place := WithBot (WithTop ℚ)

/-- The place of a fraction lies between those of the infinities. -/
def Place.of (value : ℚ) : Place := WithBot.some (WithTop.some value)

/-- Every number has its place. -/
def place? (x : Float) : Option Place :=
  match x.toModel.unpack with
  | .notANumber => none
  | .infinity .positive => some ⊤
  | .infinity .negative => some ⊥
  | .zero _ | .finite .. => (fraction? x).map Place.of

/-- The places of fractions are in the order of the fractions. -/
theorem Place.of_le_of {first second : ℚ} : of first ≤ of second ↔ first ≤ second :=
  WithBot.coe_le_coe.trans WithTop.coe_le_coe

/-- A finite double has the place of its fraction. -/
theorem place_of_fraction (fraction : fraction? x = some value) :
    place? x = some (.of value) := by
  unfold place?
  rcases exists_unpack fraction with ⟨sign, read, rfl⟩ | ⟨sign, mantissa, exponent, _, read, rfl⟩
  · simp only [read, fraction, Option.map_some]
  · simp only [read, fraction, Option.map_some]

/-- A double is finite, infinite or no number. -/
theorem place_cases (x : Float) :
    (∃ value, fraction? x = some value ∧ place? x = some (.of value)) ∨
    (x.toModel.unpack = .infinity .positive ∧ place? x = some ⊤) ∨
    (x.toModel.unpack = .infinity .negative ∧ place? x = some ⊥) ∨
    (x.toModel.unpack = .notANumber ∧ place? x = none) := by
  cases read : x.toModel.unpack with
  | notANumber => exact .inr (.inr (.inr ⟨rfl, by simp only [place?, read]⟩))
  | infinity sign =>
      cases sign with
      | positive => exact .inr (.inl ⟨rfl, by simp only [place?, read]⟩)
      | negative => exact .inr (.inr (.inl ⟨rfl, by simp only [place?, read]⟩))
  | zero sign =>
      have fraction : fraction? x = some 0 := by rw [fraction?, read]
      exact .inl ⟨0, fraction, place_of_fraction fraction⟩
  | finite sign mantissa exponent positive =>
      exact .inl ⟨_, fraction_finite read, place_of_fraction (fraction_finite read)⟩

/-- Every finite double lies between the infinities. -/
theorem compare_infinity (sign : Sign) (fraction : fraction? x = some value) :
    UnpackedFloat.compare (.infinity sign) x.toModel.unpack =
        some (match sign with | .positive => .gt | .negative => .lt) ∧
      x.toModel.unpack.compare (.infinity sign) =
        some (match sign with | .positive => .lt | .negative => .gt) := by
  rcases exists_unpack fraction with ⟨other, read, rfl⟩ | ⟨other, mantissa, exponent, _, read, rfl⟩
  · rw [read]
    cases sign <;> exact ⟨rfl, rfl⟩
  · rw [read]
    cases sign <;> cases other <;> exact ⟨rfl, rfl⟩

/-- There is no order between anything and what is no number. -/
theorem compare_notANumber (number : UnpackedFloat) : number.compare .notANumber = none := by
  cases number <;> rfl

/-- The numbers are in the order of their places, and nothing else is in any order. -/
theorem le_iff_place :
    x ≤ y ↔ ∃ first second, place? x = some first ∧ place? y = some second ∧ first ≤ second := by
  have test : x ≤ y ↔ (x.toModel.unpack.compare y.toModel.unpack).any (·.isLE) = true := by
    change decide (x.toModel.unpack.le y.toModel.unpack = true) = true ↔ _
    rw [decide_eq_true_iff]
    rfl
  rcases place_cases x with ⟨first, fraction, place⟩ | ⟨read, place⟩ | ⟨read, place⟩ |
    ⟨read, place⟩
  · rcases place_cases y with ⟨second, other, otherPlace⟩ | ⟨otherRead, otherPlace⟩ |
      ⟨otherRead, otherPlace⟩ | ⟨otherRead, otherPlace⟩
    · simp [le_iff fraction other, place, otherPlace, Place.of_le_of]
    all_goals
      simp [test, otherRead, compare_infinity, compare_notANumber, fraction, place, otherPlace,
        Place.of]
  all_goals
    rcases place_cases y with ⟨second, otherRead, otherPlace⟩ | ⟨otherRead, otherPlace⟩ |
      ⟨otherRead, otherPlace⟩ | ⟨otherRead, otherPlace⟩ <;>
    simp [test, read, otherRead, compare_infinity, compare_notANumber, place, otherPlace, Place.of]
    <;> rfl

/-- The order of the doubles is transitive, infinite ones included. -/
theorem le_trans_number (le : x ≤ y) (other : y ≤ z) : x ≤ z := by
  rw [le_iff_place] at *
  obtain ⟨first, second, firstPlace, secondPlace, least⟩ := le
  obtain ⟨_, third, same, thirdPlace, most⟩ := other
  obtain rfl := Option.some.inj (secondPlace.symm.trans same)
  exact ⟨first, third, firstPlace, thirdPlace, least.trans most⟩

/-- Nothing but a number is at least as large as anything. -/
theorem isNaN_of_le (le : x ≤ y) : y.isNaN = false := by
  obtain ⟨_, place, _, same, _⟩ := le_iff_place.mp le
  have itself : y ≤ y := le_iff_place.mpr ⟨place, place, same, same, le_rfl⟩
  exact (isNumber_iff y).mp (decide_eq_true itself)

/-- Every number is at most itself. -/
theorem le_refl_of_isNaN (number : y.isNaN = false) : y ≤ y :=
  of_decide_eq_true ((isNumber_iff y).mpr number)

/-- A number between two finite doubles is finite. -/
theorem exists_fraction_between {least most : Float} (leastFraction : fraction? least = some first)
    (mostFraction : fraction? most = some second) (low : least ≤ x) (high : x ≤ most) :
    ∃ value, fraction? x = some value ∧ first ≤ value ∧ value ≤ second := by
  rcases place_cases x with ⟨value, fraction, _⟩ | ⟨_, place⟩ | ⟨_, place⟩ | ⟨_, place⟩
  · exact ⟨value, fraction, (le_iff leastFraction fraction).mp low,
      (le_iff fraction mostFraction).mp high⟩
  all_goals
    rw [le_iff_place, place] at low high
    simp [place_of_fraction leastFraction, place_of_fraction mostFraction, Place.of] at low high

end Places

end Reckoner.Binary64
