/-
This file says how near the logarithm of a fraction comes to the sum of its series where no
operation is rounded, and that the logarithm of the reciprocal is its opposite.
-/

import Reckoner.Proofs.LogarithmRounding

namespace Reckoner.Logarithm

variable {x ratio : ℚ}

theorem exactRatio_one_div (positive : 0 < x) : exactRatio (1 / x) = -exactRatio x := by
  rw [exactRatio, exactRatio]
  field_simp
  ring

theorem one_sub_exactRatio_sq (positive : 0 < x) :
    1 - exactRatio x ^ 2 = 4 * x / (x + 1) ^ 2 := by
  rw [exactRatio]
  field_simp
  ring

/-- The sum of the first terms, with the power from which the next one is made. -/
def summed (ratio : ℚ) (count : Nat) : PartialSum ℚ :=
  ⟨partialSum ratio count, ratio ^ (2 * count + 1)⟩

theorem summed_zero (ratio : ℚ) : summed ratio 0 = ⟨0, ratio⟩ := by
  simp [summed, partialSum]

theorem addTerm_summed (ratio : ℚ) (count : Nat) :
    addTerm (ratio * ratio) count (summed ratio count) = summed ratio (count + 1) := by
  have power : ratio ^ (2 * (count + 1) + 1) = ratio ^ (2 * count + 1) * (ratio * ratio) := by ring
  have divisor : ((2 * count + 1 : Nat) : ℚ) = 2 * count + 1 := by push_cast; rfl
  unfold summed
  rw [partialSum_succ, power, ← divisor]
  rfl

/-- The run through the terms of the series. -/
def exactRun (series : Series ℚ) (ratio : ℚ) : Run (PartialSum ℚ) :=
  .untilSettled (fun reached => Scalar.magnitude reached.term ≤ series.tolerance)
    (addTerm (ratio * ratio)) series.limit 0 (summed ratio 0)

theorem approximate_eq_exactRun (series : Series ℚ) (positive : 0 < x) :
    approximate series x = .ok ⟨2 * (exactRun series (exactRatio x)).state.sum,
      (exactRun series (exactRatio x)).notices .logarithm x series.limit⟩ := by
  rw [exactRun, summed_zero]
  exact (if_neg positive.not_ge).trans (if_neg Bool.false_ne_true)

/-- The run ends before the first power that is within the tolerance. -/
theorem exists_isEnd (series : Series ℚ) (ratio : ℚ) :
    ∃ count, Run.IsEnd (fun index => |ratio| ^ (2 * index + 1) ≤ series.tolerance)
        series.limit count ∧
      exactRun series ratio = ⟨summed ratio count, decide (count < series.limit)⟩ := by
  have next (index : Nat) :
      addTerm (ratio * ratio) (0 + index) (summed ratio index) = summed ratio (index + 1) := by
    rw [Nat.zero_add]
    exact addTerm_summed ratio index
  obtain ⟨count, isEnd, same⟩ := Run.exists_isEnd_untilSettled
    (fun reached => Scalar.magnitude reached.term ≤ series.tolerance) next series.limit
  refine ⟨count, ?_, same⟩
  simpa only [decide_eq_true_iff, Scalar.magnitude_eq_abs, summed, abs_pow] using isEnd

/-- The run ends at a partial sum, and where it has converged the next power is within the
tolerance. -/
theorem exists_summed (series : Series ℚ) (ratio : ℚ) :
    ∃ count ≤ series.limit, (exactRun series ratio).state = summed ratio count ∧
      ((exactRun series ratio).converged → |ratio| ^ (2 * count + 1) ≤ series.tolerance) := by
  obtain ⟨count, isEnd, same⟩ := exists_isEnd series ratio
  rw [same]
  exact ⟨count, isEnd.within, rfl, fun converged => isEnd.passed (of_decide_eq_true converged)⟩

/-- The sum and the power with the other sign. -/
def opposite (reached : PartialSum ℚ) : PartialSum ℚ := ⟨-reached.sum, -reached.term⟩

/-- The run with the opposite ratio takes the same steps between opposite states. -/
theorem exactRun_neg (series : Series ℚ) (ratio : ℚ) :
    exactRun series (-ratio) =
      ⟨opposite (exactRun series ratio).state, (exactRun series ratio).converged⟩ := by
  have start : summed (-ratio) 0 = opposite (summed ratio 0) := by
    simp [summed, opposite, partialSum]
  rw [exactRun, start]
  apply Run.untilSettled_image opposite
  · intro reached
    rw [Scalar.magnitude_eq_abs, Scalar.magnitude_eq_abs, opposite, abs_neg]
  · intro index reached
    simp only [addTerm, opposite, neg_mul_neg]
    rw [neg_div, ← neg_add, neg_mul]

/-- What the series leaves out of the logarithm where the next power is within the tolerance. -/
theorem abs_two_mul_partialSum_sub_le (positive : 0 < x) {tolerance : ℚ} {count more : Nat}
    (le : count ≤ more) (within : |exactRatio x| ^ (2 * count + 1) ≤ tolerance) :
    |2 * partialSum (exactRatio x) more - 2 * partialSum (exactRatio x) count| ≤
      tolerance * (x + 1) ^ 2 / (2 * x) := by
  have bound := abs_partialSum_sub_le (abs_exactRatio_lt_one positive) le
  rw [one_sub_exactRatio_sq positive] at bound
  rw [← mul_sub, abs_mul, abs_two]
  calc
    _ ≤ 2 * (|exactRatio x| ^ (2 * count + 1) / (4 * x / (x + 1) ^ 2)) := by gcongr
    _ ≤ 2 * (tolerance / (4 * x / (x + 1) ^ 2)) := by gcongr
    _ = _ := by
      field_simp
      ring

/-- A longer partial sum is on the other side of a shorter one than zero. -/
theorem partialSum_ordered (positive : 0 < x) {count more : Nat} (le : count ≤ more) :
    (1 ≤ x → partialSum (exactRatio x) count ≤ partialSum (exactRatio x) more) ∧
      (x ≤ 1 → partialSum (exactRatio x) more ≤ partialSum (exactRatio x) count) := by
  have next : 0 ≤ x + 1 := by linarith
  constructor
  · intro large
    exact partialSum_mono (div_nonneg (sub_nonneg.mpr large) next) le
  · intro small
    have nonneg : 0 ≤ -exactRatio x :=
      neg_nonneg.mpr (div_nonpos_of_nonpos_of_nonneg (sub_nonpos.mpr small) next)
    have grows := partialSum_mono nonneg le
    rwa [partialSum_neg, partialSum_neg, neg_le_neg_iff] at grows

/-- The logarithm of a positive fraction is twice a partial sum of its series, and that of the
reciprocal is the opposite. Where the limit was not reached, all longer sums lie within a bound of
it that grows with the distance of the fraction from one, and on the side away from zero. -/
theorem approximate_near_oddPowers (positive : 0 < x) (series : Series ℚ) :
    ∃ logarithm reciprocal, approximate series x = .ok logarithm ∧
      approximate series (1 / x) = .ok reciprocal ∧ reciprocal.value = -logarithm.value ∧
      ∃ count ≤ series.limit, logarithm.value = 2 * partialSum (exactRatio x) count ∧
        (logarithm.notices = [] → ∀ more, count ≤ more →
          |2 * partialSum (exactRatio x) more - logarithm.value| ≤
            series.tolerance * (x + 1) ^ 2 / (2 * x) ∧
          (1 ≤ x → logarithm.value ≤ 2 * partialSum (exactRatio x) more) ∧
          (x ≤ 1 → 2 * partialSum (exactRatio x) more ≤ logarithm.value)) := by
  obtain ⟨count, few, same, settled⟩ := exists_summed series (exactRatio x)
  refine ⟨_, _, approximate_eq_exactRun series positive,
    approximate_eq_exactRun series (one_div_pos.mpr positive), ?_, count, few, ?_, ?_⟩
  · rw [exactRatio_one_div positive, exactRun_neg]
    exact mul_neg _ _
  · rw [same]
    rfl
  · intro converged more le
    have within := settled ((Run.notices_eq_nil_iff _ _ _ _).mp converged)
    obtain ⟨grows, falls⟩ := partialSum_ordered positive le
    rw [same]
    refine ⟨abs_two_mul_partialSum_sub_le positive le within, fun large => ?_, fun small => ?_⟩
    · exact mul_le_mul_of_nonneg_left (grows large) zero_le_two
    · exact mul_le_mul_of_nonneg_left (falls small) zero_le_two

theorem approximate_near_oddPowers_third :
    (0 : ℚ) < 1 / 3 ∧ approximate ⟨1 / 100, 10⟩ (1 / 3 : ℚ) = .ok ⟨-263 / 240, []⟩ ∧
      (∃ reciprocal, approximate ⟨1 / 100, 10⟩ (1 / (1 / 3) : ℚ) = .ok reciprocal ∧
        reciprocal.value = -(-263 / 240)) ∧
      ∃ count ≤ 10, -263 / 240 = 2 * partialSum (exactRatio (1 / 3)) count ∧
        ∀ more, count ≤ more →
          |2 * partialSum (exactRatio (1 / 3)) more - -263 / 240| ≤
            1 / 100 * (1 / 3 + 1) ^ 2 / (2 * (1 / 3)) ∧
          2 * partialSum (exactRatio (1 / 3)) more ≤ -263 / 240 := by
  have positive : (0 : ℚ) < 1 / 3 := by norm_num
  have below : (1 / 3 : ℚ) ≤ 1 := by norm_num
  have converged : approximate ⟨1 / 100, 10⟩ (1 / 3 : ℚ) = .ok ⟨-263 / 240, []⟩ := by
    rw [approximate_eq_exactRun _ positive, exactRun, summed_zero]
    norm_num [Run.untilSettled, addTerm, exactRatio, Run.notices]
  obtain ⟨logarithm, reciprocal, defined, found, negated, count, few, value, bounds⟩ :=
    approximate_near_oddPowers positive ⟨1 / 100, 10⟩
  obtain rfl := Except.ok.inj (defined.symm.trans converged)
  refine ⟨positive, converged, ⟨reciprocal, found, negated⟩, count, few, value, ?_⟩
  intro more le
  obtain ⟨near, _, falls⟩ := bounds rfl more le
  exact ⟨near, falls below⟩

end Reckoner.Logarithm
