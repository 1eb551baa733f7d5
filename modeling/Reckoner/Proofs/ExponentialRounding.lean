/-
This file says how near the rounded exponential of a double comes to the exponential function.
-/

import Reckoner.Approximation.Exponential
import Reckoner.Proofs.ExponentialSeries
import Reckoner.Proofs.Iteration
import Reckoner.Proofs.RelativeError

namespace Reckoner

open Binary64

namespace Exponential

/-- The state of a run whose last term is this one. -/
structure Reached (exact : ℚ) (index : Nat) (reached : PartialSum Float) : Prop where
  sum : Approximates reached.sum (3 * index) (partialSum exact (index + 1))
  term : Approximates reached.term (2 * index) (seriesTerm exact index)

/-- A number that is not negative and neither large nor, without being zero, small. -/
structure IsShort (exact : ℚ) : Prop where
  nonneg : 0 ≤ exact
  most : exact ≤ 32
  least : exact ≠ 0 → 1 / 2 ^ 60 ≤ exact

variable {exact : ℚ} {index : Nat}

/-- No partial sum exceeds the exponential of the largest number. -/
theorem IsShort.partialSum_le (short : IsShort exact) (count : Nat) :
    partialSum exact count ≤ 2 ^ 64 := by
  have nonneg : (0 : ℝ) ≤ exact := by exact_mod_cast short.nonneg
  have most : (exact : ℝ) ≤ 32 := by exact_mod_cast short.most
  have base : Real.exp 1 ≤ 4 := by linarith [Real.exp_one_lt_d9]
  have bound : ((partialSum exact count : ℚ) : ℝ) ≤ 2 ^ 64 := by
    rw [partialSum_cast]
    calc
      _ ≤ Real.exp exact := partialSum_le_exp nonneg count
      _ ≤ Real.exp ((32 : Nat) * 1) := Real.exp_le_exp.mpr (by norm_num; exact most)
      _ = Real.exp 1 ^ 32 := Real.exp_nat_mul 1 32
      _ ≤ 4 ^ 32 := by gcongr
      _ = 2 ^ 64 := by norm_num
  exact_mod_cast bound

theorem IsShort.le_quotient (short : IsShort exact) (early : index < 1000) (some : exact ≠ 0) :
    1 / 2 ^ 70 ≤ exact / (index + 1 : Nat) := by
  have divisor : ((index + 1 : Nat) : ℚ) ≤ 2 ^ 10 := by
    have whole : index + 1 ≤ 2 ^ 10 := by omega
    exact_mod_cast whole
  rw [le_div_iff₀ (by positivity)]
  linarith [short.least some]

theorem IsShort.quotient_isModerate (short : IsShort exact) (early : index < 1000) :
    IsModerate (exact / (index + 1 : Nat)) := by
  have nonneg := short.nonneg
  have one : (1 : ℚ) ≤ (index + 1 : Nat) := by exact_mod_cast Nat.le_add_left 1 index
  refine isModerate_of_le 70 (by norm_num) (fun some => ?_) ?_ <;>
    rw [abs_of_nonneg (by positivity)]
  · exact short.le_quotient early (by rintro rfl; simp at some)
  · exact (div_le_self nonneg one).trans (short.most.trans (by norm_num))

theorem IsShort.seriesTerm_isModerate (short : IsShort exact) (early : index < 1000)
    (large : 1 / 2 ^ 51 ≤ seriesTerm exact index) :
    IsModerate (seriesTerm exact index * (exact / (index + 1 : Nat))) := by
  have most := (seriesTerm_le_partialSum short.nonneg (index + 1)).trans (short.partialSum_le _)
  have nonneg := seriesTerm_nonneg short.nonneg (index + 1)
  rw [seriesTerm_succ] at most nonneg
  refine isModerate_of_le 121 (by norm_num) (fun some => ?_) ?_ <;> rw [abs_of_nonneg nonneg]
  · have quotient := short.le_quotient early (by rintro rfl; simp at some)
    calc
      (1 / 2 ^ 121 : ℚ) = 1 / 2 ^ 51 * (1 / 2 ^ 70) := by norm_num
      _ ≤ _ := by gcongr
  · exact most.trans (by norm_num)

variable {x : Float}

/-- A step of the run makes the next term and adds it. -/
theorem Reached.addTerm {reached : PartialSum Float} (holds : Reached exact index reached)
    (fraction : fraction? x = some exact) (short : IsShort exact) (early : index < 1000)
    (large : 1 / 2 ^ 51 ≤ seriesTerm exact index) :
    Reached exact (index + 1) (addTerm x (index + 1) reached) := by
  have whole : Approximates ((index + 1 : Nat) : Float) 0 ((index + 1 : Nat) : ℚ) :=
    approximates_of_fraction (fraction_natCast (by omega))
  have quotient := (approximates_of_fraction fraction).div whole (by positivity)
    (short.quotient_isModerate early) (by omega)
  have term := holds.term.mul quotient (short.seriesTerm_isModerate early large) (by omega)
  rw [← seriesTerm_succ] at term
  have next := partialSum_succ exact (index + 1)
  have bounded : |partialSum exact (index + 1) + seriesTerm exact (index + 1)| ≤ 2 ^ 100 := by
    rw [← next, abs_of_nonneg (partialSum_nonneg short.nonneg _)]
    exact (short.partialSum_le _).trans (by norm_num)
  have same := mul_nonneg (partialSum_nonneg short.nonneg (index + 1))
    (seriesTerm_nonneg short.nonneg (index + 1))
  have sum := (holds.sum.mono (by omega)).add (term.mono (Nat.le_add_right _ index)) same bounded
    (by omega)
  rw [← next] at sum
  exact ⟨sum.mono (by omega), term.mono (by omega)⟩

/-- The run through the terms of the series. -/
def run (series : Series Float) (x : Float) : Run (PartialSum Float) :=
  .untilClose (fun _ next => Scalar.magnitude next.term ≤ series.tolerance)
    (Exponential.addTerm x) series.limit 1 ⟨1, 1⟩

/-- Between two steps the number of the next one is known, and the last term is not small. -/
def Waiting (exact : ℚ) (index : Nat) (reached : PartialSum Float) : Prop :=
  ∃ last, index = last + 1 ∧ Reached exact last reached ∧ 1 / 2 ^ 51 ≤ seriesTerm exact last

/-- The run ends at a partial sum, which has all terms that the limit allows unless its last one is
small. -/
theorem exists_reached (fraction : fraction? x = some exact) (short : IsShort exact) :
    ∃ count ≤ 1000, Reached exact count (run standard x).state ∧
      (count < 1000 → seriesTerm exact count ≤ 1 / 2 ^ 48) := by
  have one : Approximates (1 : Float) 0 1 := approximates_of_fraction fraction_one
  have start : Waiting exact 1 ⟨1, 1⟩ :=
    ⟨0, rfl, ⟨by simpa [partialSum, seriesTerm] using one, by simpa [seriesTerm] using one⟩,
      by norm_num [seriesTerm]⟩
  have kept (index : Nat) (reached : PartialSum Float) (early : index < 1001)
      (waiting : Waiting exact index reached)
      (apart : decide (Scalar.magnitude (Exponential.addTerm x index reached).term ≤
        standard.tolerance) = false) :
      Waiting exact (index + 1) (Exponential.addTerm x index reached) := by
    obtain ⟨last, rfl, holds, large⟩ := waiting
    have next := holds.addTerm fraction short (by omega) large
    have least := le_abs_of_tolerance_lt next.term (by omega) (of_decide_eq_false apart)
    rw [abs_of_nonneg (seriesTerm_nonneg short.nonneg _)] at least
    exact ⟨last + 1, rfl, next, least⟩
  obtain ⟨index, before, early, ⟨last, rfl, holds, large⟩, same, close⟩ :=
    Run.exists_untilClose (fun _ next => Scalar.magnitude next.term ≤ standard.tolerance) kept
      (rfl : 1 + (999 + 1) = 1001) start
  have next := holds.addTerm fraction short (by omega) large
  refine ⟨last + 1, by omega, ?_, fun fewer => ?_⟩
  · exact congrArg Run.state same ▸ next
  · have small := abs_le_of_le_tolerance next.term (by omega)
      (of_decide_eq_true (close (by omega)))
    rwa [abs_of_nonneg (seriesTerm_nonneg short.nonneg _)] at small

/-- Without rounding the sum is near the exponential, and no less than its first term. -/
theorem exists_sum (fraction : fraction? x = some exact) (short : IsShort exact) :
    ∃ part : ℚ, Approximates (sum standard x).value 3000 part ∧ 1 ≤ part ∧ part ≤ 2 ^ 64 ∧
      (1 - 1 / 2 ^ 48) * Real.exp exact ≤ part ∧ part ≤ Real.exp exact := by
  obtain ⟨count, few, reached, settled⟩ := exists_reached fraction short
  have nonneg : (0 : ℝ) ≤ exact := by exact_mod_cast short.nonneg
  have most : (exact : ℝ) ≤ 32 := by exact_mod_cast short.most
  have near := partialSum_near_exp nonneg most few fun fewer => by
    have small := (Rat.cast_le (K := ℝ)).mpr (settled fewer)
    rw [seriesTerm_cast] at small
    push_cast at small
    exact small
  rw [← partialSum_cast] at near
  exact ⟨partialSum exact (count + 1), reached.sum.mono (by omega),
    one_le_partialSum short.nonneg count, short.partialSum_le _, near⟩

/-- What the roundings and the terms left out add up to. -/
theorem abs_sub_le_of_parts {result part : ℚ} {whole : ℝ} (positive : 0 < whole)
    (rounded : Near 3001 result part) (left : |part - whole| ≤ whole / 2 ^ 47) :
    |result - whole| ≤ whole / 2 ^ 40 := by
  have error := (Rat.cast_le (K := ℝ)).mpr (rounded.abs_sub_le (by norm_num))
  push_cast at error
  have size := abs_sub_abs_le_abs_sub (part : ℝ) whole
  rw [abs_of_pos positive] at size
  have triangle := abs_sub_le (result : ℝ) part whole
  linarith

theorem approximate_eq (series : Series Float) (fraction : fraction? x = some exact) :
    approximate series x =
      if exact < 0 then (sum series (-x)).map fun value => 1 / value else sum series x := by
  have number : ¬(!Scalar.isNumber x) = true := by
    rw [isNumber_of_fraction fraction]
    exact Bool.false_ne_true
  exact (if_neg number).trans (if_congr (lt_iff fraction fraction_zero) rfl rfl)

/-- A reciprocal is off by hardly more than the number was. -/
theorem abs_inv_sub_exp_le {part whole : ℝ} (above : (1 - 1 / 2 ^ 48) * Real.exp (-whole) ≤ part)
    (below : part ≤ Real.exp (-whole)) : |part⁻¹ - Real.exp whole| ≤ Real.exp whole / 2 ^ 47 := by
  have positive := Real.exp_pos whole
  have product : Real.exp (-whole) * Real.exp whole = 1 := by
    rw [← Real.exp_add, neg_add_cancel, Real.exp_zero]
  have partPos : 0 < part := lt_of_lt_of_le (by positivity) above
  have least : Real.exp whole ≤ part⁻¹ := by
    rw [le_inv_comm₀ positive partPos, ← Real.exp_neg]
    exact below
  have most : part⁻¹ ≤ (1 + 1 / 2 ^ 47) * Real.exp whole := by
    rw [inv_le_iff_one_le_mul₀ partPos]
    calc
      (1 : ℝ) ≤ (1 - 1 / 2 ^ 48) * (1 + 1 / 2 ^ 47) * (Real.exp (-whole) * Real.exp whole) := by
        rw [product]
        norm_num
      _ = (1 - 1 / 2 ^ 48) * Real.exp (-whole) * ((1 + 1 / 2 ^ 47) * Real.exp whole) := by ring
      _ ≤ _ := by
        rw [mul_comm _ part]
        gcongr
  rw [abs_of_nonneg (sub_nonneg.mpr least)]
  linarith

/-- The exponential of a double that is neither large nor too near to zero is off by no more than a
part in `2 ^ 40`. -/
theorem exists_approximate (fraction : fraction? x = some exact) (most : |exact| ≤ 32)
    (least : exact ≠ 0 → 1 / 2 ^ 60 ≤ |exact|) :
    ∃ result : ℚ, fraction? (approximate standard x).value = some result ∧
      |result - Real.exp exact| ≤ Real.exp exact / 2 ^ 40 := by
  have positive := Real.exp_pos exact
  rcases le_or_gt 0 exact with nonneg | negative
  · rw [abs_of_nonneg nonneg] at most least
    obtain ⟨part, ⟨result, read, near⟩, _, _, above, below⟩ :=
      exists_sum fraction ⟨nonneg, most, least⟩
    rw [approximate_eq standard fraction, if_neg nonneg.not_gt]
    refine ⟨result, read, abs_sub_le_of_parts positive (near.mono (by norm_num)) ?_⟩
    rw [abs_of_nonpos (by linarith)]
    linarith
  · rw [abs_of_neg negative] at most least
    obtain ⟨part, sum, first, last, above, below⟩ := exists_sum (fraction_neg fraction)
      ⟨by linarith, most, fun some => least (neg_ne_zero.mp some)⟩
    have partPos : 0 < part := by linarith
    have moderate : IsModerate (1 / part) := by
      refine isModerate_of_le 64 (by norm_num) (fun _ => ?_) ?_ <;>
        rw [abs_of_pos (one_div_pos.mpr partPos)]
      · exact one_div_le_one_div_of_le partPos last
      · exact (div_le_one_of_le₀ first partPos.le).trans (by norm_num)
    obtain ⟨result, read, near⟩ :=
      (approximates_of_fraction fraction_one).div sum partPos.ne' moderate (by norm_num)
    rw [approximate_eq standard fraction, if_pos negative]
    refine ⟨result, read, abs_sub_le_of_parts positive near ?_⟩
    push_cast at above below
    rw [one_div, Rat.cast_inv]
    exact abs_inv_sub_exp_le above below

end Exponential

end Reckoner
