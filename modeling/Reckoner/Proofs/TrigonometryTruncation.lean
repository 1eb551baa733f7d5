/-
This file says how near the sine and the cosine of a fraction come to the sums of their series
where no operation is rounded. The terms alternate in sign. They may grow at first, and fall from
the first one on that is within a tolerance below one.
-/

import Mathlib
import Reckoner.Proofs.Iteration
import Reckoner.Proofs.Periodicity

namespace Reckoner.Trigonometry

open scoped Nat

/-- The sum of the first terms. -/
def partialSum {K : Type} [Field K] (terms : Nat → K) (count : Nat) : K :=
  ∑ index ∈ Finset.range count, terms index

/-- One more term is added at the end. -/
theorem partialSum_succ {K : Type} [Field K] (terms : Nat → K) (count : Nat) :
    partialSum terms (count + 1) = partialSum terms count + terms count :=
  Finset.sum_range_succ _ count

section Run

variable {terms factor : Nat → ℚ} {first : Nat}

/-- The sum of the first terms, with the next one. -/
def summed (terms : Nat → ℚ) (count : Nat) : PartialSum ℚ := ⟨partialSum terms count, terms count⟩

theorem summed_zero (terms : Nat → ℚ) : summed terms 0 = ⟨0, terms 0⟩ := by
  simp [summed, partialSum]

/-- The factors of the steps lead from each term to the next one. -/
def Leads (factor : Nat → ℚ) (first : Nat) (terms : Nat → ℚ) : Prop :=
  ∀ index, terms (index + 1) = terms index * factor (first + index)

/-- The run ends before the first term that is within the tolerance. -/
theorem exists_isEnd (leads : Leads factor first terms) (series : Series ℚ) :
    ∃ count, Run.IsEnd (fun index => |terms index| ≤ series.tolerance) series.limit count ∧
      sum series factor first (terms 0) =
        ⟨summed terms count, decide (count < series.limit)⟩ := by
  have next (index : Nat) :
      addTerm factor (first + index) (summed terms index) = summed terms (index + 1) := by
    unfold summed
    rw [partialSum_succ, leads]
    rfl
  obtain ⟨count, isEnd, same⟩ := Run.exists_isEnd_untilSettled
    (fun reached => Scalar.magnitude reached.term ≤ series.tolerance) next series.limit
  rw [summed_zero] at same
  refine ⟨count, ?_, same⟩
  simpa only [decide_eq_true_iff, Scalar.magnitude_eq_abs, summed] using isEnd

/-- The factor turns the sign and makes nothing larger. -/
def Shrinks (factor : ℚ) : Prop := -1 ≤ factor ∧ factor ≤ 0

/-- What a sum leaves out lies between zero and the next term, if the terms fall from there on. -/
theorem exists_part (leads : Leads factor first terms) {count : Nat}
    (falls : ∀ index, count ≤ index → Shrinks (factor (first + index))) {more : Nat}
    (le : count ≤ more) :
    ∃ part, 0 ≤ part ∧ part ≤ 1 ∧
      partialSum terms more = partialSum terms count + part * terms count := by
  -- Down from the longer sum: what stands behind the next term is a part of that term.
  induction le using Nat.decreasingInduction with
  | self => exact ⟨0, le_rfl, zero_le_one, by ring⟩
  | of_succ count less ih =>
      obtain ⟨part, nonneg, most, same⟩ := ih fun index le => falls index (by omega)
      obtain ⟨least, nonpos⟩ := falls count le_rfl
      refine ⟨1 + part * factor (first + count), ?_, ?_, ?_⟩
      · nlinarith
      · nlinarith
      · rw [same, partialSum_succ, leads]
        ring

/-- Where the terms shrink from one on, all that follow do not add up to more than that one. -/
theorem abs_partialSum_sub_le (leads : Leads factor first terms) {count : Nat}
    (falls : ∀ index, count ≤ index → Shrinks (factor (first + index))) {more : Nat}
    (le : count ≤ more) : |partialSum terms more - partialSum terms count| ≤ |terms count| := by
  obtain ⟨part, nonneg, most, same⟩ := exists_part leads falls le
  rw [same, add_sub_cancel_left, abs_mul, abs_of_nonneg nonneg]
  exact mul_le_of_le_one_left (abs_nonneg _) most

/-- The value is a sum of fewer terms than the limit, and no longer sum is farther from it than the
tolerance. -/
def Truncates (terms : Nat → ℚ) (series : Series ℚ) (value : ℚ) : Prop :=
  ∃ count < series.limit, value = partialSum terms count ∧
    ∀ more, count ≤ more → |partialSum terms more - value| ≤ series.tolerance

/-- A run that converged leaves out terms that are bounded by the first of them. -/
theorem truncates_of_converged (leads : Leads factor first terms) {series : Series ℚ}
    (falls : ∀ count, |terms count| ≤ series.tolerance →
      ∀ index, count ≤ index → Shrinks (factor (first + index)))
    (converged : (sum series factor first (terms 0)).converged) :
    Truncates terms series (sum series factor first (terms 0)).state.sum := by
  obtain ⟨count, isEnd, same⟩ := exists_isEnd leads series
  rw [same] at converged ⊢
  have early := of_decide_eq_true converged
  have within := isEnd.passed early
  exact ⟨count, early, rfl, fun more le =>
    (abs_partialSum_sub_le leads (falls count within) le).trans within⟩

/-- A term within the tolerance ends a run that comes so far. -/
theorem converged_of_within (leads : Leads factor first terms) {series : Series ℚ} {index : Nat}
    (within : |terms index| ≤ series.tolerance) (early : index < series.limit) :
    (sum series factor first (terms 0)).converged := by
  obtain ⟨count, isEnd, same⟩ := exists_isEnd leads series
  rw [same]
  refine decide_eq_true (isEnd.within.lt_of_ne ?_)
  rintro rfl
  exact isEnd.earlier index early within

end Run

/-- A term of the Taylor series of the sine, which begins with the first power, or of the cosine,
which begins with the power zero. -/
def taylorTerm {K : Type} [Field K] (x : K) (power index : Nat) : K :=
  (-1) ^ index * x ^ (2 * index + power) / (2 * index + power)!

section Series

variable {x : ℚ} {power : Nat} {factor : Nat → ℚ} {first : Nat}

/-- The factors put the next even power and the next divisors to a term. -/
def IsTaylor (x : ℚ) (power : Nat) (factor : Nat → ℚ) (first : Nat) : Prop :=
  ∀ index, factor (first + index) =
    -(x * x) / ((2 * index + power + 1 : Nat) * (2 * index + power + 2 : Nat))

/-- The factors of a sine lead through the odd Taylor terms. -/
theorem isTaylor_sineFactor (x : ℚ) : IsTaylor x 1 (sineFactor x) 1 := by
  intro index
  have unfolded : sineFactor x (1 + index) =
      -x * x / (2 * (1 + index : Nat) * (2 * (1 + index : Nat) + 1)) := rfl
  rw [unfolded, neg_mul]
  push_cast
  ring_nf

/-- The factors of a cosine lead through the even Taylor terms. -/
theorem isTaylor_cosineFactor (x : ℚ) : IsTaylor x 0 (cosineFactor x) 0 := by
  intro index
  have unfolded : cosineFactor x (0 + index) =
      -x * x / ((2 * (0 + index : Nat) + 1) * (2 * (0 + index : Nat) + 2)) := rfl
  rw [unfolded, neg_mul, Nat.zero_add]
  push_cast
  rw [add_zero]

/-- Each Taylor term is the one before it times its factor. -/
theorem IsTaylor.leads (isTaylor : IsTaylor x power factor first) :
    Leads factor first (taylorTerm x power) := by
  intro index
  have next : 2 * (index + 1) + power = 2 * index + power + 1 + 1 := by ring
  rw [isTaylor, taylorTerm, taylorTerm, next, Nat.factorial_succ, Nat.factorial_succ]
  push_cast
  field_simp
  ring

/-- A factor shrinks its term once the factorial outgrows the square of the angle. -/
theorem IsTaylor.shrinks (isTaylor : IsTaylor x power factor first) {index : Nat}
    (le : x * x ≤ (2 * index + power + 1 : Nat) * (2 * index + power + 2 : Nat)) :
    Shrinks (factor (first + index)) := by
  rw [isTaylor]
  constructor
  · rw [neg_div, neg_le_neg_iff]
    exact div_le_one_of_le₀ le (by positivity)
  · exact div_nonpos_of_nonpos_of_nonneg (neg_nonpos.mpr (mul_self_nonneg x)) (by positivity)

theorem abs_taylorTerm (x : ℚ) (power index : Nat) :
    |taylorTerm x power index| = |x| ^ (2 * index + power) / (2 * index + power)! := by
  rw [taylorTerm, abs_div, abs_mul, abs_neg_one_pow, one_mul, abs_pow, Nat.abs_cast]

/-- The square of a reduced angle is at most ten. -/
theorem mul_self_le_ten (near : |x| ≤ Angle.halfTurn) : x * x ≤ 10 := by
  have most : |x| ≤ 22 / 7 := near.trans Angle.halfTurn_lt.le
  calc
    x * x = |x| * |x| := (abs_mul_abs_self x).symm
    _ ≤ 22 / 7 * (22 / 7) := by gcongr
    _ ≤ 10 := by norm_num

/-- Only the first term may be smaller than the second, and then it is not below one. -/
theorem mul_self_le_of_small (near : |x| ≤ Angle.halfTurn) (leading : power ≤ 1) {count : Nat}
    (small : |taylorTerm x power count| < 1) {index : Nat} (le : count ≤ index) :
    x * x ≤ (2 * index + power + 1 : Nat) * (2 * index + power + 2 : Nat) := by
  have square := mul_self_le_ten near
  rcases Nat.eq_zero_or_pos index with rfl | positive
  · obtain rfl := Nat.le_zero.mp le
    rw [abs_taylorTerm] at small
    interval_cases power
    · norm_num at small
    · norm_num at small
      have one : x * x ≤ 1 := by
        rw [← abs_mul_abs_self]
        exact mul_le_one₀ small.le (abs_nonneg x) small.le
      norm_num
      linarith
  · have divisors : 3 * 4 ≤ (2 * index + power + 1) * (2 * index + power + 2) :=
      Nat.mul_le_mul (by omega) (by omega)
    have large : (3 * 4 : ℚ) ≤ (2 * index + power + 1 : Nat) * (2 * index + power + 2 : Nat) := by
      exact_mod_cast divisors
    linarith

/-- A Taylor sum of a reduced angle that converged is near all longer ones. -/
theorem IsTaylor.truncates (isTaylor : IsTaylor x power factor first)
    (near : |x| ≤ Angle.halfTurn) (leading : power ≤ 1) {series : Series ℚ}
    (small : series.tolerance < 1)
    (converged : (sum series factor first (taylorTerm x power 0)).converged) :
    Truncates (taylorTerm x power) series
      (sum series factor first (taylorTerm x power 0)).state.sum :=
  truncates_of_converged isTaylor.leads (fun _ within _ le =>
    isTaylor.shrinks (mul_self_le_of_small near leading (within.trans_lt small) le)) converged

theorem le_standard_tolerance : 1 / 2 ^ 50 ≤ (standard : Series ℚ).tolerance := by
  decide +kernel

/-- On the way to the half turns the fifteenth term is within the tolerance. -/
theorem abs_taylorTerm_le (near : |x| ≤ Angle.halfTurn) (leading : power ≤ 1) :
    |taylorTerm x power 14| ≤ (standard : Series ℚ).tolerance := by
  have most : |x| ≤ 22 / 7 := near.trans Angle.halfTurn_lt.le
  rw [abs_taylorTerm]
  calc
    _ ≤ (22 / 7) ^ (2 * 14 + power) / ((2 * 14 + power)! : ℚ) := by gcongr
    _ ≤ 1 / 2 ^ 50 := by interval_cases power <;> norm_num [Nat.factorial]
    _ ≤ _ := le_standard_tolerance

/-- Fifteen terms are enough for any reduced angle. -/
theorem IsTaylor.converged (isTaylor : IsTaylor x power factor first)
    (near : |x| ≤ Angle.halfTurn) (leading : power ≤ 1) {limit : Nat} (enough : 15 ≤ limit) :
    (sum ⟨(standard : Series ℚ).tolerance, limit⟩ factor first
      (taylorTerm x power 0)).converged :=
  converged_of_within isTaylor.leads (abs_taylorTerm_le near leading) enough

end Series

/-- The sums of fractions are those of the real numbers. -/
theorem partialSum_cast (x : ℚ) (power count : Nat) :
    ((partialSum (taylorTerm x power) count : ℚ) : ℝ) =
      partialSum (taylorTerm (x : ℝ) power) count := by
  simp only [partialSum, taylorTerm]
  push_cast
  rfl

/-- What the longer sums come near to, their limit does. -/
theorem Truncates.abs_sub_le {x value : ℚ} {power : Nat} {series : Series ℚ} {limit : ℝ}
    (truncates : Truncates (taylorTerm x power) series value)
    (sums : HasSum (taylorTerm (x : ℝ) power) limit) : |limit - value| ≤ series.tolerance := by
  obtain ⟨count, _, _, bounds⟩ := truncates
  have differences := (sums.tendsto_sum_nat.sub_const (value : ℝ)).abs
  refine le_of_tendsto differences ?_
  filter_upwards [Filter.eventually_ge_atTop count] with more le
  rw [← partialSum, ← partialSum_cast]
  exact_mod_cast bounds more le

/-- The sum for the sine of an angle that needs no reduction. -/
def sineRun (series : Series ℚ) (x : ℚ) : Run (PartialSum ℚ) := sum series (sineFactor x) 1 x

/-- The run through the terms of a cosine. -/
def cosineRun (series : Series ℚ) (x : ℚ) : Run (PartialSum ℚ) := sum series (cosineFactor x) 0 1

section Angles

variable {x : ℚ}

/-- The sine of a reduced angle is where its run ends. -/
theorem sine?_of_abs_le (series : Series ℚ) (near : |x| ≤ Angle.halfTurn) :
    sine? series x = some (sineRun series x).state.sum := by
  have reduced : sine? series x =
      (Angle.reduce? x).map fun angle => (sineRun series angle).state.sum := rfl
  rw [reduced, Angle.reduce?_of_abs_le near, Option.map_some]

/-- The cosine of a reduced angle is where its run ends. -/
theorem cosine?_of_abs_le (series : Series ℚ) (near : |x| ≤ Angle.halfTurn) :
    cosine? series x = some (cosineRun series x).state.sum := by
  have reduced : cosine? series x =
      (Angle.reduce? x).map fun angle => (cosineRun series angle).state.sum := rfl
  rw [reduced, Angle.reduce?_of_abs_le near, Option.map_some]

/-- The run for a sine starts with the angle, which is its first Taylor term. -/
theorem sineRun_eq (series : Series ℚ) (x : ℚ) :
    sineRun series x = sum series (sineFactor x) 1 (taylorTerm x 1 0) := by
  have leading : taylorTerm x 1 0 = x := by simp [taylorTerm]
  rw [leading, sineRun]

/-- The run for a cosine starts with one, which is its first Taylor term. -/
theorem cosineRun_eq (series : Series ℚ) (x : ℚ) :
    cosineRun series x = sum series (cosineFactor x) 0 (taylorTerm x 0 0) := by
  have leading : taylorTerm x 0 0 = 1 := by simp [taylorTerm]
  rw [leading, cosineRun]

theorem truncates_sineRun (near : |x| ≤ Angle.halfTurn) {series : Series ℚ}
    (small : series.tolerance < 1) (converged : (sineRun series x).converged) :
    Truncates (taylorTerm x 1) series (sineRun series x).state.sum := by
  rw [sineRun_eq] at converged ⊢
  exact (isTaylor_sineFactor x).truncates near le_rfl small converged

theorem truncates_cosineRun (near : |x| ≤ Angle.halfTurn) {series : Series ℚ}
    (small : series.tolerance < 1) (converged : (cosineRun series x).converged) :
    Truncates (taylorTerm x 0) series (cosineRun series x).state.sum := by
  rw [cosineRun_eq] at converged ⊢
  exact (isTaylor_cosineFactor x).truncates near zero_le_one small converged

/-- Neither run is cut off at fifteen terms or more. -/
theorem converged_runs (near : |x| ≤ Angle.halfTurn) {limit : Nat} (enough : 15 ≤ limit) :
    (sineRun ⟨(standard : Series ℚ).tolerance, limit⟩ x).converged ∧
      (cosineRun ⟨(standard : Series ℚ).tolerance, limit⟩ x).converged := by
  rw [sineRun_eq, cosineRun_eq]
  exact ⟨(isTaylor_sineFactor x).converged near le_rfl enough,
    (isTaylor_cosineFactor x).converged near zero_le_one enough⟩

/-- Up to a half turn to either side, the sine and the cosine are sums of their Taylor series, and
where a sum was not cut off, no longer one is farther from it than the tolerance, and neither is
the function itself. With the standard series no sum is cut off, as fifteen tests are enough. -/
theorem sine_cosine_near_partialSums (near : |x| ≤ Angle.halfTurn) (series : Series ℚ)
    (small : series.tolerance < 1) :
    (sine? series x = some (sineRun series x).state.sum ∧
      ((sineRun series x).converged →
        Truncates (taylorTerm x 1) series (sineRun series x).state.sum ∧
          |Real.sin x - (sineRun series x).state.sum| ≤ series.tolerance)) ∧
    (cosine? series x = some (cosineRun series x).state.sum ∧
      ((cosineRun series x).converged →
        Truncates (taylorTerm x 0) series (cosineRun series x).state.sum ∧
          |Real.cos x - (cosineRun series x).state.sum| ≤ series.tolerance)) ∧
    ((sineRun standard x).converged ∧ (cosineRun standard x).converged) ∧
      ∀ limit, 15 ≤ limit →
        (sineRun ⟨(standard : Series ℚ).tolerance, limit⟩ x).converged ∧
          (cosineRun ⟨(standard : Series ℚ).tolerance, limit⟩ x).converged := by
  refine ⟨⟨sine?_of_abs_le series near, fun converged => ?_⟩,
    ⟨cosine?_of_abs_le series near, fun converged => ?_⟩,
    converged_runs near (by norm_num), fun limit enough => converged_runs near enough⟩
  · have truncates := truncates_sineRun near small converged
    exact ⟨truncates, truncates.abs_sub_le (Real.hasSum_sin x)⟩
  · have truncates := truncates_cosineRun near small converged
    exact ⟨truncates, truncates.abs_sub_le (Real.hasSum_cos x)⟩

/-- Both sums for three radians are near all longer ones, at a tolerance of one half. -/
theorem sine_cosine_near_partialSums_three :
    |(3 : ℚ)| ≤ Angle.halfTurn ∧ (1 / 2 : ℚ) < 1 ∧
      sineRun ⟨1 / 2, 10⟩ 3 = ⟨⟨21 / 40, -243 / 560⟩, true⟩ ∧
      Truncates (taylorTerm 3 1) ⟨1 / 2, 10⟩ (21 / 40) ∧
      cosineRun ⟨1 / 2, 10⟩ 3 = ⟨⟨-91 / 80, 729 / 4480⟩, true⟩ ∧
      Truncates (taylorTerm 3 0) ⟨1 / 2, 10⟩ (-91 / 80) ∧
      15 ≤ 20 ∧ (sineRun ⟨(standard : Series ℚ).tolerance, 20⟩ 3).converged := by
  have near : |(3 : ℚ)| ≤ Angle.halfTurn := by
    rw [abs_of_pos three_pos]
    exact Angle.three_lt_halfTurn.le
  have small : (1 / 2 : ℚ) < 1 := by norm_num
  have sine : sineRun ⟨1 / 2, 10⟩ 3 = ⟨⟨21 / 40, -243 / 560⟩, true⟩ := by
    norm_num [sineRun, sum, Run.untilSettled, addTerm, sineFactor]
  have cosine : cosineRun ⟨1 / 2, 10⟩ 3 = ⟨⟨-91 / 80, 729 / 4480⟩, true⟩ := by
    norm_num [cosineRun, sum, Run.untilSettled, addTerm, cosineFactor]
  obtain ⟨⟨_, sines⟩, ⟨_, cosines⟩, _, standards⟩ :=
    sine_cosine_near_partialSums near ⟨1 / 2, 10⟩ small
  rw [sine] at sines
  rw [cosine] at cosines
  have enough : 15 ≤ 20 := by norm_num
  exact ⟨near, small, sine, (sines rfl).1, cosine, (cosines rfl).1, enough,
    (standards 20 enough).1⟩

end Angles

end Reckoner.Trigonometry
