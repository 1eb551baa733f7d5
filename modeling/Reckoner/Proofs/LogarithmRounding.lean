/-
This file says how near the rounded logarithm of a double comes to a partial sum of its series.
-/

import Reckoner.Approximation.Logarithm
import Reckoner.Proofs.Iteration
import Reckoner.Proofs.LogarithmSeries
import Reckoner.Proofs.RelativeError

namespace Reckoner

open Binary64

namespace Logarithm

/-- The ratio of a number, without rounding. -/
def exactRatio (value : ℚ) : ℚ := (value - 1) / (value + 1)

/-- The ratio of a positive number lies between minus one and one. -/
theorem abs_exactRatio_lt_one {value : ℚ} (positive : 0 < value) : |exactRatio value| < 1 := by
  rw [exactRatio, abs_lt, lt_div_iff₀ (by linarith), div_lt_one (by linarith)]
  constructor <;> linarith

variable {x : Float} {value : ℚ}

/-- A double of one half or more is a whole multiple of the least unit there. -/
theorem le_abs_sub_one (fraction : fraction? x = some value) (positive : 0 < value)
    (other : value ≠ 1) : 1 / 2 ^ 53 ≤ |value - 1| := by
  rcases lt_or_ge value (1 / 2) with small | large
  · rw [abs_of_neg (by linarith)]
    have unit : (1 / 2 ^ 53 : ℚ) ≤ 1 / 2 := by norm_num
    linarith
  · obtain ⟨mantissa, exponent, ⟨_, read⟩, rfl⟩ := exists_isPositive fraction positive
    have sizes := (fits_of_unpack read).log2
    have total : (-1 : Int) < mantissa.log2 + 1 + exponent := by
      apply (zpow_lt_zpow_iff_right₀ (one_lt_two (α := ℚ))).mp
      refine lt_of_le_of_lt ?_ (value_lt_zpow (fits_of_unpack read).positive exponent)
      simpa using large
    obtain ⟨places, rfl⟩ : ∃ places : Nat, exponent = -53 + places :=
      ⟨(exponent + 53).toNat, by omega⟩
    have scaled : mantissa * 2 ^ (-53 + places : Int) - 1 =
        ((mantissa * 2 ^ places - 2 ^ 53 : Int) : ℚ) / 2 ^ 53 := by
      rw [zpow_add₀ two_ne_zero, zpow_natCast]
      push_cast
      norm_num
      ring
    have some : (mantissa * 2 ^ places - 2 ^ 53 : Int) ≠ 0 := by
      rintro none
      rw [none, Int.cast_zero, zero_div, sub_eq_zero] at scaled
      exact other scaled
    rw [scaled, abs_div, abs_of_pos (by positivity : (0 : ℚ) < 2 ^ 53), ← Int.cast_abs]
    gcongr
    exact_mod_cast Int.one_le_abs some

/-- The ratio of a double is no smaller than the double next to one allows, unless it is zero. -/
theorem le_abs_exactRatio (fraction : fraction? x = some value) (positive : 0 < value)
    (other : exactRatio value ≠ 0) : 1 / 2 ^ 55 ≤ |exactRatio value| := by
  have next : 0 < value + 1 := by linarith
  have apart : value ≠ 1 := by
    rintro rfl
    norm_num [exactRatio] at other
  have difference := le_abs_sub_one fraction positive apart
  rw [exactRatio, abs_div, abs_of_pos next, le_div_iff₀ next]
  rcases le_total value 2 with small | large
  · have part : 1 / 2 ^ 55 * (value + 1) ≤ 1 / 2 ^ 53 := by linarith
    exact part.trans difference
  · rw [abs_of_pos (by linarith)]
    linarith

/-- The ratio takes three roundings. -/
theorem approximates_ratio (fraction : fraction? x = some value) (positive : 0 < value) :
    Approximates (ratio x) 3 (exactRatio value) := by
  have most := abs_add_one_lt_overflow fraction
  rw [abs_of_pos positive] at most
  have below : Approximates (x - 1) 1 (value - 1) :=
    (rounds_sub fraction fraction_one (abs_lt.mpr ⟨by linarith, by linarith⟩)).near
  have above : Approximates (x + 1) 1 (value + 1) :=
    (rounds_add fraction fraction_one (abs_lt.mpr ⟨by linarith, by linarith⟩)).near
  have small := (abs_exactRatio_lt_one positive).le
  exact below.div above (by linarith) (isModerate_of_le 55 (by norm_num)
    (le_abs_exactRatio fraction positive) (small.trans (by norm_num))) (by norm_num)

/-- A number below one that, without being zero, is not too near to it. -/
structure IsRatio (exact : ℚ) : Prop where
  small : |exact| < 1
  least : exact ≠ 0 → 1 / 2 ^ 55 ≤ |exact|

/-- The ratios of positive doubles have the bounds that are needed. -/
theorem isRatio_exactRatio (fraction : fraction? x = some value) (positive : 0 < value) :
    IsRatio (exactRatio value) :=
  ⟨abs_exactRatio_lt_one positive, le_abs_exactRatio fraction positive⟩

/-- The state of a run after so many steps. -/
structure Reached (exact : ℚ) (index : Nat) (reached : PartialSum Float) : Prop where
  sum : Approximates reached.sum (8 * index) (partialSum exact index)
  term : Approximates reached.term (8 * index + 3) (exact ^ (2 * index + 1))

variable {exact : ℚ} {squared : Float} {index : Nat}

/-- No power of a ratio exceeds one. -/
theorem IsRatio.abs_pow_le_one (isRatio : IsRatio exact) (power : Nat) : |exact ^ power| ≤ 1 := by
  rw [abs_pow]
  exact pow_le_one₀ (abs_nonneg exact) isRatio.small.le

/-- A term is moderate as long as its power is above the tolerance. -/
theorem IsRatio.term_isModerate (isRatio : IsRatio exact) (early : index < 1000)
    (power : 1 / 2 ^ 51 ≤ |exact ^ (2 * index + 1)|) :
    IsModerate (exact ^ (2 * index + 1) / (2 * index + 1 : Nat)) := by
  have divisor : ((2 * index + 1 : Nat) : ℚ) ≤ 2 ^ 11 := by
    have whole : 2 * index + 1 ≤ 2 ^ 11 := by omega
    exact_mod_cast whole
  refine isModerate_of_le 62 (by norm_num) (fun _ => ?_) ?_
  · rw [abs_div, Nat.abs_cast, le_div_iff₀ (by positivity)]
    linarith
  · rw [abs_div, Nat.abs_cast]
    have one : (1 : ℚ) ≤ (2 * index + 1 : Nat) := by exact_mod_cast Nat.le_add_left 1 _
    exact (div_le_one_of_le₀ ((isRatio.abs_pow_le_one _).trans one) (by positivity)).trans
      (by norm_num)

/-- The power after one above the tolerance is moderate. -/
theorem IsRatio.next_isModerate (isRatio : IsRatio exact)
    (power : 1 / 2 ^ 51 ≤ |exact ^ (2 * index + 1)|) :
    IsModerate (exact ^ (2 * index + 1) * exact ^ 2) := by
  refine isModerate_of_le 161 (by norm_num) (fun some => ?_) ?_
  · have nonzero : exact ≠ 0 := by
      rintro rfl
      exact some (by ring)
    rw [abs_mul, abs_pow exact 2]
    calc
      (1 / 2 ^ 161 : ℚ) ≤ 1 / 2 ^ 51 * (1 / 2 ^ 55) ^ 2 := by norm_num
      _ ≤ _ := by
        gcongr
        exact isRatio.least nonzero
  · rw [← pow_add]
    exact (isRatio.abs_pow_le_one _).trans (by norm_num)

/-- The square of a ratio is moderate. -/
theorem IsRatio.square_isModerate (isRatio : IsRatio exact) : IsModerate (exact * exact) := by
  refine isModerate_of_le 110 (by norm_num) (fun some => ?_) ?_
  · have bound := isRatio.least (left_ne_zero_of_mul some)
    rw [abs_mul]
    calc
      (1 / 2 ^ 110 : ℚ) = 1 / 2 ^ 55 * (1 / 2 ^ 55) := by norm_num
      _ ≤ _ := by gcongr
  · rw [← pow_two]
    exact (isRatio.abs_pow_le_one 2).trans (by norm_num)

/-- Twice the sum of a thousand terms is at most sixteen. -/
theorem IsRatio.abs_two_mul_partialSum_le (isRatio : IsRatio exact) {count : Nat}
    (few : count ≤ 1000) : |2 * partialSum exact count| ≤ 16 := by
  rw [abs_mul, abs_two]
  linarith [abs_partialSum_le_eight isRatio.small.le few]

/-- A sum with a term is not much smaller than the ratio. -/
theorem IsRatio.le_abs_two_mul_partialSum (isRatio : IsRatio exact) {count : Nat}
    (some : 2 * partialSum exact count ≠ 0) : 1 / 2 ^ 54 ≤ |2 * partialSum exact count| := by
  cases count with
  | zero => exact absurd (mul_zero 2) some
  | succ count =>
      have nonzero : exact ≠ 0 := by
        rintro rfl
        rw [partialSum_zero, mul_zero] at some
        exact some rfl
      rw [abs_mul, abs_two]
      linarith [isRatio.least nonzero, abs_ratio_le exact count]

/-- The doubled sums are moderate. -/
theorem IsRatio.partialSum_isModerate (isRatio : IsRatio exact) {count : Nat}
    (few : count ≤ 1000) : IsModerate (2 * partialSum exact count) :=
  isModerate_of_le 54 (by norm_num) isRatio.le_abs_two_mul_partialSum
    ((isRatio.abs_two_mul_partialSum_le few).trans (by norm_num))

/-- A step of the run adds a term and makes the power of the next one. -/
theorem Reached.addTerm {reached : PartialSum Float} (holds : Reached exact index reached)
    (isRatio : IsRatio exact) (early : index < 1000)
    (square : Approximates squared 7 (exact ^ 2))
    (unsettled : ¬Scalar.magnitude reached.term ≤ 1e-15) :
    Reached exact (index + 1) (addTerm squared index reached) := by
  have power := le_abs_of_tolerance_lt holds.term (by omega) unsettled
  have whole : Approximates ((2 * index + 1 : Nat) : Float) 0 ((2 * index + 1 : Nat) : ℚ) :=
    approximates_of_fraction (fraction_natCast (by omega))
  constructor
  · have quotient := holds.term.div whole (by positivity) (isRatio.term_isModerate early power)
      (by omega)
    have next := partialSum_succ exact index
    have bounded := abs_partialSum_le_eight isRatio.small.le (Nat.succ_le_of_lt early)
    have same := partialSum_mul_nonneg exact index
    push_cast at quotient
    rw [next] at bounded
    -- The quotient has more roundings behind it than the sum, so that both are counted as many.
    have sum := (holds.sum.mono (by omega)).add quotient same (bounded.trans (by norm_num))
      (by omega)
    rw [← next] at sum
    exact sum.mono (by omega)
  · have product := holds.term.mul square (isRatio.next_isModerate power) (by omega)
    have next : exact ^ (2 * index + 1) * exact ^ 2 = exact ^ (2 * (index + 1) + 1) := by ring
    rw [next] at product
    exact product.mono (by omega)

/-- The run through the terms of the series. -/
def run (series : Series Float) (x : Float) : Run (PartialSum Float) :=
  .untilSettled (fun reached => Scalar.magnitude reached.term ≤ series.tolerance)
    (Logarithm.addTerm (ratio x * ratio x)) series.limit 0 ⟨0, ratio x⟩

/-- The logarithm of a positive double is twice the sum where its run ends. -/
theorem approximate_eq (series : Series Float) (fraction : fraction? x = some value)
    (positive : 0 < value) :
    approximate series x = .ok ⟨((2 : Nat) : Float) * (run series x).state.sum,
      (run series x).notices .logarithm x series.limit⟩ := by
  have above : ¬x ≤ 0 := mt (le_iff fraction fraction_zero).mp positive.not_ge
  have finite : ¬(!Scalar.isFinite x) = true := by
    rw [isFinite_of_fraction fraction]
    exact Bool.false_ne_true
  exact (if_neg above).trans (if_neg finite)

/-- The run ends at a partial sum, which has all terms that the limit allows unless the next power
is small. -/
theorem exists_reached (fraction : fraction? x = some value) (positive : 0 < value) :
    ∃ count ≤ 1000, Reached (exactRatio value) count (run standard x).state ∧
      (count < 1000 → |exactRatio value| ^ (2 * count + 1) ≤ 1 / 2 ^ 48) := by
  have exact := approximates_ratio fraction positive
  have isRatio := isRatio_exactRatio fraction positive
  have start : Reached (exactRatio value) 0 ⟨0, ratio x⟩ :=
    ⟨approximates_of_fraction fraction_zero, by simpa using exact⟩
  have square := exact.mul exact isRatio.square_isModerate (by norm_num)
  rw [← pow_two] at square
  have kept (index : Nat) (reached : PartialSum Float) (early : index < 1000)
      (holds : Reached (exactRatio value) index reached)
      (unsettled : decide (Scalar.magnitude reached.term ≤ standard.tolerance) = false) :=
    holds.addTerm isRatio early square (of_decide_eq_false unsettled)
  obtain ⟨count, few, reached, settled⟩ := Run.exists_untilSettled kept (Nat.zero_add 1000) start
  refine ⟨count, few, reached, fun fewer => ?_⟩
  have power := abs_le_of_le_tolerance reached.term (by omega) (of_decide_eq_true (settled fewer))
  rwa [abs_pow] at power

/-- The logarithm of a positive double is near twice a partial sum of its series. -/
theorem exists_approximate (fraction : fraction? x = some value) (positive : 0 < value) :
    ∃ logarithm count, approximate standard x = .ok logarithm ∧ count ≤ 1000 ∧
      Approximates logarithm.value 8001 (2 * partialSum (exactRatio value) count) ∧
      (count < 1000 → |exactRatio value| ^ (2 * count + 1) ≤ 1 / 2 ^ 48) := by
  obtain ⟨count, few, reached, settled⟩ := exists_reached fraction positive
  have two : Approximates ((2 : Nat) : Float) 0 2 :=
    approximates_of_fraction (fraction_natCast (by norm_num))
  have moderate := (isRatio_exactRatio fraction positive).partialSum_isModerate few
  exact ⟨_, count, approximate_eq standard fraction positive, few,
    (two.mul reached.sum moderate (by omega)).mono (by omega), settled⟩

/-- The logarithm of a positive double is neither large nor too near to zero. -/
theorem exists_fraction_approximate (fraction : fraction? x = some value) (positive : 0 < value) :
    ∃ logarithm read count, approximate standard x = .ok logarithm ∧
      fraction? logarithm.value = some read ∧ |read| ≤ 32 ∧ (read ≠ 0 → 1 / 2 ^ 60 ≤ |read|) ∧
      |read - 2 * partialSum (exactRatio value) count| ≤ 3 / 10 ^ 11 ∧ count ≤ 1000 ∧
      (count < 1000 → |exactRatio value| ^ (2 * count + 1) ≤ 1 / 2 ^ 48) := by
  obtain ⟨logarithm, count, defined, few, ⟨read, readFraction, near⟩, settled⟩ :=
    exists_approximate fraction positive
  have isRatio := isRatio_exactRatio fraction positive
  have most := isRatio.abs_two_mul_partialSum_le few
  obtain ⟨above, below⟩ := near.abs_le_two_mul (by norm_num)
  refine ⟨logarithm, read, count, defined, readFraction, ?_, fun some => ?_, ?_, few, settled⟩
  · linarith
  · have least := isRatio.le_abs_two_mul_partialSum (near.ne_zero_iff.mp some)
    linarith
  · have error := near.abs_sub_le (by norm_num)
    push_cast at error
    linarith

end Logarithm

end Reckoner
