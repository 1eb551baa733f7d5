/-
This file says how near the exponential of a fraction comes to the sum of its series where no
operation is rounded.
-/

import Reckoner.Approximation.Exponential
import Reckoner.Proofs.ExponentialSeries
import Reckoner.Proofs.Iteration
import Reckoner.Scalar.Rational

namespace Reckoner.Exponential

variable {x : ℚ}

/-- The sum with its last term, which is the one of this index. -/
def summed (x : ℚ) (last : Nat) : PartialSum ℚ := ⟨partialSum x (last + 1), seriesTerm x last⟩

theorem addTerm_summed (x : ℚ) (last : Nat) :
    addTerm x (last + 1) (summed x last) = summed x (last + 1) := by
  unfold summed
  rw [partialSum_succ x (last + 1), seriesTerm_succ]
  rfl

theorem summed_zero (x : ℚ) : summed x 0 = ⟨1, 1⟩ := by
  simp [summed, partialSum, seriesTerm]

/-- The run through the terms of the series. -/
def exactRun (series : Series ℚ) (x : ℚ) : Run (PartialSum ℚ) :=
  .untilClose (fun _ next => Scalar.magnitude next.term ≤ series.tolerance) (addTerm x)
    series.limit 1 (summed x 0)

theorem sum_eq (series : Series ℚ) (x : ℚ) :
    sum series x = ⟨(exactRun series x).state.sum,
      (exactRun series x).notices .exponential x series.limit⟩ := by
  rw [exactRun, summed_zero]
  rfl

/-- The run ends with the first term behind the leading one that is within the tolerance. -/
theorem exists_isEnd (series : Series ℚ) (x : ℚ) :
    ∃ last, Run.IsEnd (fun index => 0 < index ∧ |seriesTerm x index| ≤ series.tolerance)
        series.limit last ∧
      (exactRun series x).state = summed x last ∧
      ((exactRun series x).converged → |seriesTerm x last| ≤ series.tolerance) := by
  have next (index : Nat) : addTerm x (1 + index) (summed x index) = summed x (index + 1) := by
    rw [Nat.add_comm]
    exact addTerm_summed x index
  have test (index : Nat) :
      Run.IsClose (fun _ next => Scalar.magnitude next.term ≤ series.tolerance) (summed x) index ↔
        0 < index ∧ |seriesTerm x index| ≤ series.tolerance := by
    cases index with
    | zero => exact iff_of_false Run.not_isClose_zero fun both => absurd both.1 (Nat.lt_irrefl 0)
    | succ index =>
        rw [Run.isClose_succ_iff, decide_eq_true_iff, Scalar.magnitude_eq_abs]
        exact (and_iff_right index.succ_pos).symm
  obtain ⟨last, isEnd, state, converged⟩ := Run.exists_isEnd_untilClose _ next series.limit
  refine ⟨last, ?_, state, fun done => ((test last).mp (converged.mp done)).2⟩
  rwa [funext fun index => propext (test index)] at isEnd

/-- A run that has converged ends with a term within the tolerance. -/
theorem exists_summed_of_converged {series : Series ℚ} (converged : (exactRun series x).converged) :
    ∃ last ≤ series.limit, (exactRun series x).state = summed x last ∧
      |seriesTerm x last| ≤ series.tolerance := by
  obtain ⟨last, isEnd, state, within⟩ := exists_isEnd series x
  exact ⟨last, isEnd.within, state, within converged⟩

theorem approximate_of_nonneg (series : Series ℚ) (nonneg : 0 ≤ x) :
    approximate series x = sum series x := by
  have number : ¬(!Scalar.isNumber x) = true := by simp [Scalar.isNumber]
  exact (if_neg number).trans (if_neg nonneg.not_gt)

/-- The exponential of a fraction that is not negative is a partial sum of its series. Where the
limit was not reached, all longer ones exceed it by no more than the tolerance times the fraction,
and so does the exponential function. -/
theorem approximate_near_partialSums (nonneg : 0 ≤ x) {tolerance value : ℚ} (small : tolerance < 1)
    {limit : Nat} (converged : approximate ⟨tolerance, limit⟩ x = ⟨value, []⟩) :
    ∃ last ≤ limit, value = partialSum x (last + 1) ∧
      (∀ count, last < count →
        value ≤ partialSum x count ∧ partialSum x count ≤ value + tolerance * x) ∧
      value ≤ Real.exp x ∧ Real.exp x ≤ value + tolerance * x := by
  rw [approximate_of_nonneg _ nonneg, sum_eq, Approximation.mk.injEq, Run.notices_eq_nil_iff]
    at converged
  obtain ⟨rfl, done⟩ := converged
  obtain ⟨last, few, same, within⟩ := exists_summed_of_converged done
  rw [abs_of_nonneg (seriesTerm_nonneg nonneg last)] at within
  rw [same]
  have most := lt_of_seriesTerm_lt_one (within.trans_lt small)
  have bounds (count : Nat) (longer : last < count) :
      partialSum x (last + 1) ≤ partialSum x count ∧
        partialSum x count ≤ partialSum x (last + 1) + tolerance * x := by
    refine ⟨partialSum_mono nonneg longer, (partialSum_le_add_mul nonneg most.le longer).trans ?_⟩
    gcongr
  have nonnegReal : (0 : ℝ) ≤ x := by exact_mod_cast nonneg
  refine ⟨last, few, rfl, bounds, ?_, exp_le_of_partialSum_le last fun count longer => ?_⟩
  · rw [summed, partialSum_cast]
    exact partialSum_le_exp nonnegReal _
  · rw [← partialSum_cast]
    exact_mod_cast (bounds count longer).2

theorem approximate_near_partialSums_three :
    (0 : ℚ) ≤ 3 ∧ (1 / 2 : ℚ) < 1 ∧ approximate ⟨1 / 2, 10⟩ (3 : ℚ) = ⟨5557 / 280, []⟩ ∧
      (∃ last ≤ 10, 5557 / 280 = partialSum (3 : ℚ) (last + 1) ∧ ∀ count, last < count →
        5557 / 280 ≤ partialSum (3 : ℚ) count ∧
          partialSum (3 : ℚ) count ≤ 5557 / 280 + 1 / 2 * 3) ∧
      5557 / 280 ≤ Real.exp 3 ∧ Real.exp 3 ≤ 5557 / 280 + 1 / 2 * 3 := by
  have nonneg : (0 : ℚ) ≤ 3 := by norm_num
  have small : (1 / 2 : ℚ) < 1 := by norm_num
  have converged : approximate ⟨1 / 2, 10⟩ (3 : ℚ) = ⟨5557 / 280, []⟩ := by
    rw [approximate_of_nonneg _ nonneg]
    norm_num [sum, Run.untilClose, addTerm, Run.notices]
  obtain ⟨last, few, value, bounds, below, above⟩ :=
    approximate_near_partialSums nonneg small converged
  push_cast at below above
  exact ⟨nonneg, small, converged, ⟨last, few, value, bounds⟩, below, above⟩

end Reckoner.Exponential
