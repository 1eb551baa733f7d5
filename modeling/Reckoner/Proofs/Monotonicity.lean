/-
This file shows that the exponential and the logarithm of fractions grow with their argument,
wherever the series are cut off. A larger argument has larger terms, and no fewer of them.
-/

import Reckoner.Proofs.ExponentialTruncation
import Reckoner.Proofs.LogarithmTruncation

namespace Reckoner

namespace Exponential

variable {x y : ℚ}

/-- Each term of the series grows with a number from zero up. -/
theorem seriesTerm_le_seriesTerm (nonneg : 0 ≤ x) (le : x ≤ y) (index : Nat) :
    seriesTerm x index ≤ seriesTerm y index := by
  unfold seriesTerm
  gcongr

/-- So does each of its sums. -/
theorem partialSum_le_partialSum (nonneg : 0 ≤ x) (le : x ≤ y) (count : Nat) :
    partialSum x count ≤ partialSum y count :=
  Finset.sum_le_sum fun index _ => seriesTerm_le_seriesTerm nonneg le index

/-- The smaller number does not have more terms than the larger one. -/
theorem exactRun_state_le (series : Series ℚ) (nonneg : 0 ≤ x) (le : x ≤ y) :
    (exactRun series x).state.sum ≤ (exactRun series y).state.sum := by
  obtain ⟨last, isEnd, same, _⟩ := exists_isEnd series x
  obtain ⟨lastLarger, isEndLarger, sameLarger, _⟩ := exists_isEnd series y
  have fewer : last ≤ lastLarger := by
    refine isEnd.le_of_imp isEndLarger fun index passed => ⟨passed.1, ?_⟩
    rw [abs_of_nonneg (seriesTerm_nonneg (nonneg.trans le) index)] at passed
    rw [abs_of_nonneg (seriesTerm_nonneg nonneg index)]
    exact (seriesTerm_le_seriesTerm nonneg le index).trans passed.2
  rw [same, sameLarger]
  calc
    partialSum x (last + 1) ≤ partialSum y (last + 1) := partialSum_le_partialSum nonneg le _
    _ ≤ partialSum y (lastLarger + 1) :=
      partialSum_mono (nonneg.trans le) (Nat.succ_le_succ fewer)

/-- The sum starts with one, and nothing negative is added. -/
theorem one_le_exactRun_state (series : Series ℚ) (nonneg : 0 ≤ x) :
    1 ≤ (exactRun series x).state.sum := by
  obtain ⟨last, _, same, _⟩ := exists_isEnd series x
  rw [same]
  exact one_le_partialSum nonneg last

/-- A number from zero up has the sum as its exponential. -/
theorem approximate_value_of_nonneg (series : Series ℚ) (nonneg : 0 ≤ x) :
    (approximate series x).value = (exactRun series x).state.sum := by
  rw [approximate_of_nonneg series nonneg, sum_eq]

/-- A negative number has the reciprocal of the sum of its opposite. -/
theorem approximate_value_of_neg (series : Series ℚ) (negative : x < 0) :
    (approximate series x).value = 1 / (exactRun series (-x)).state.sum := by
  have number : ¬(!Scalar.isNumber x) = true := by simp [Scalar.isNumber]
  have same : approximate series x = (sum series (-x)).map fun value => 1 / value :=
    (if_neg number).trans (if_pos negative)
  rw [same, sum_eq]
  rfl

/-- The values on the two sides of zero lie on the two sides of one. -/
theorem approximate_mono (series : Series ℚ) :
    Monotone fun x : ℚ => (approximate series x).value := by
  intro x y le
  dsimp only
  rcases lt_or_ge x 0 with negative | nonneg
  · have opposite : 0 ≤ -x := neg_nonneg.mpr negative.le
    have one := one_le_exactRun_state series opposite
    rw [approximate_value_of_neg series negative]
    rcases lt_or_ge y 0 with negativeLarger | nonnegLarger
    · have oppositeLarger : 0 ≤ -y := neg_nonneg.mpr negativeLarger.le
      have least := one_le_exactRun_state series oppositeLarger
      rw [approximate_value_of_neg series negativeLarger]
      gcongr
      exact exactRun_state_le series oppositeLarger (neg_le_neg le)
    · rw [approximate_value_of_nonneg series nonnegLarger]
      calc
        _ ≤ 1 := div_le_one_of_le₀ one (zero_le_one.trans one)
        _ ≤ _ := one_le_exactRun_state series nonnegLarger
  · rw [approximate_value_of_nonneg series nonneg,
      approximate_value_of_nonneg series (nonneg.trans le)]
    exact exactRun_state_le series nonneg le

end Exponential

namespace Logarithm

variable {x y ratio larger : ℚ}

/-- The sums of the odd powers grow with a ratio from zero up. -/
theorem partialSum_le_partialSum (nonneg : 0 ≤ ratio) (le : ratio ≤ larger) (count : Nat) :
    partialSum ratio count ≤ partialSum larger count := by
  unfold partialSum
  gcongr

/-- The smaller ratio does not have more terms than the larger one. -/
theorem exactRun_state_le_of_nonneg (series : Series ℚ) (nonneg : 0 ≤ ratio)
    (le : ratio ≤ larger) :
    (exactRun series ratio).state.sum ≤ (exactRun series larger).state.sum := by
  obtain ⟨count, isEnd, same⟩ := exists_isEnd series ratio
  obtain ⟨more, isEndLarger, sameLarger⟩ := exists_isEnd series larger
  have fewer : count ≤ more := by
    refine isEnd.le_of_imp isEndLarger fun index passed => ?_
    rw [abs_of_nonneg (nonneg.trans le)] at passed
    rw [abs_of_nonneg nonneg]
    exact (pow_le_pow_left₀ nonneg le _).trans passed
  rw [same, sameLarger]
  calc
    partialSum ratio count ≤ partialSum larger count := partialSum_le_partialSum nonneg le count
    _ ≤ partialSum larger more := partialSum_mono (nonneg.trans le) fewer

/-- The sum for a ratio from zero up has no negative term. -/
theorem exactRun_state_nonneg (series : Series ℚ) (nonneg : 0 ≤ ratio) :
    0 ≤ (exactRun series ratio).state.sum := by
  obtain ⟨count, _, same⟩ := exists_isEnd series ratio
  rw [same]
  exact partialSum_nonneg nonneg count

/-- Opposite ratios have opposite sums, since their runs are of the same length. -/
theorem exactRun_state_eq_neg (series : Series ℚ) (ratio : ℚ) :
    (exactRun series ratio).state.sum = -(exactRun series (-ratio)).state.sum := by
  rw [exactRun_neg, opposite, neg_neg]

/-- Below zero the order is that of the opposite ratios. -/
theorem exactRun_state_le (series : Series ℚ) (le : ratio ≤ larger) :
    (exactRun series ratio).state.sum ≤ (exactRun series larger).state.sum := by
  rcases le_total 0 ratio with nonneg | nonpos
  · exact exactRun_state_le_of_nonneg series nonneg le
  · have least := exactRun_state_nonneg series (neg_nonneg.mpr nonpos)
    rw [exactRun_state_eq_neg series ratio]
    rcases le_total 0 larger with nonnegLarger | nonposLarger
    · exact (neg_nonpos.mpr least).trans (exactRun_state_nonneg series nonnegLarger)
    · rw [exactRun_state_eq_neg series larger]
      exact neg_le_neg (exactRun_state_le_of_nonneg series (neg_nonneg.mpr nonposLarger)
        (neg_le_neg le))

/-- The ratio grows with the number. -/
theorem exactRatio_le (positive : 0 < x) (le : x ≤ y) : exactRatio x ≤ exactRatio y := by
  have next : 0 < x + 1 := by linarith
  have nextLarger : 0 < y + 1 := by linarith
  rw [exactRatio, exactRatio, div_le_div_iff₀ next nextLarger]
  linarith

/-- A larger number has no smaller logarithm in the same series. -/
theorem approximate_le (series : Series ℚ) (positive : 0 < x) (le : x ≤ y) :
    ∃ lower upper, approximate series x = .ok lower ∧ approximate series y = .ok upper ∧
      lower.value ≤ upper.value :=
  ⟨_, _, approximate_eq_exactRun series positive,
    approximate_eq_exactRun series (positive.trans_le le),
    mul_le_mul_of_nonneg_left (exactRun_state_le series (exactRatio_le positive le)) zero_le_two⟩

end Logarithm

/-- With any tolerance and any limit, a larger fraction has no smaller exponential, and a larger
positive one no smaller logarithm. -/
theorem exponential_logarithm_mono (series : Series ℚ) {x y : ℚ} (le : x ≤ y) :
    (Exponential.approximate series x).value ≤ (Exponential.approximate series y).value ∧
      (0 < x → ∃ lower upper, Logarithm.approximate series x = .ok lower ∧
        Logarithm.approximate series y = .ok upper ∧ lower.value ≤ upper.value) :=
  ⟨Exponential.approximate_mono series le,
    fun positive => Logarithm.approximate_le series positive le⟩

/-- The sum for a third is complete after two terms, and that for three is cut off. -/
theorem exponential_logarithm_mono_third :
    (1 / 3 : ℚ) ≤ 3 ∧ (0 : ℚ) < 1 / 3 ∧
      Exponential.approximate ⟨1 / 10, 2⟩ (1 / 3 : ℚ) = ⟨25 / 18, []⟩ ∧
      25 / 18 ≤ (Exponential.approximate ⟨1 / 10, 2⟩ (3 : ℚ)).value ∧
      ∃ lower upper, Logarithm.approximate ⟨1 / 10, 2⟩ (1 / 3 : ℚ) = .ok lower ∧
        Logarithm.approximate ⟨1 / 10, 2⟩ (3 : ℚ) = .ok upper ∧ lower.value ≤ upper.value := by
  have le : (1 / 3 : ℚ) ≤ 3 := by norm_num
  have positive : (0 : ℚ) < 1 / 3 := by norm_num
  have complete : Exponential.approximate ⟨1 / 10, 2⟩ (1 / 3 : ℚ) = ⟨25 / 18, []⟩ := by
    rw [Exponential.approximate_of_nonneg _ positive.le]
    norm_num [Exponential.sum, Run.untilClose, Exponential.addTerm, Run.notices]
  obtain ⟨exponentials, logarithms⟩ := exponential_logarithm_mono ⟨1 / 10, 2⟩ le
  rw [complete] at exponentials
  exact ⟨le, positive, complete, exponentials, logarithms positive⟩

end Reckoner
