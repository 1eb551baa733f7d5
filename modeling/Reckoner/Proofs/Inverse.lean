/-
This file says where the exponential function undoes the logarithm. A thousand terms of its series
are enough for the numbers up to 434 and their reciprocals, and too few from 436 on.
-/

import Reckoner.Proofs.ExponentialRounding
import Reckoner.Proofs.LogarithmRounding

namespace Reckoner

open Binary64

/-- The double has a logarithm, the exponential of which is this number. -/
def Returns (x : Float) (result : ℚ) : Prop :=
  ∃ logarithm, Logarithm.approximate Logarithm.standard x = .ok logarithm ∧
    fraction? (Exponential.approximate Exponential.standard logarithm.value).value = some result

variable {x : Float} {value result : ℚ} {offset : ℝ}

theorem Returns.eq {other : ℚ} (returns : Returns x result) (returnsOther : Returns x other) :
    result = other := by
  obtain ⟨logarithm, defined, fraction⟩ := returns
  obtain ⟨otherLogarithm, otherDefined, otherFraction⟩ := returnsOther
  obtain rfl := Except.ok.inj (defined.symm.trans otherDefined)
  exact Option.some.inj (fraction.symm.trans otherFraction)

/-- The number comes back with a factor, the logarithm of which is what the series of the logarithm
leaves out. -/
theorem exists_returns (fraction : fraction? x = some value) (positive : 0 < value) :
    ∃ (result : ℚ) (offset : ℝ) (count : Nat), Returns x result ∧
      |result - value * Real.exp offset| ≤ value * Real.exp offset / 2 ^ 40 ∧
      |offset + Logarithm.remainder (Logarithm.exactRatio value) count| ≤ 3 / 10 ^ 11 ∧
      count ≤ 1000 ∧
      (count < 1000 → |(Logarithm.exactRatio value : ℝ)| ^ (2 * count + 1) ≤ 1 / 2 ^ 48) := by
  obtain ⟨logarithm, read, count, defined, readFraction, most, least, near, few, settled⟩ :=
    Logarithm.exists_fraction_approximate fraction positive
  obtain ⟨result, resultFraction, error⟩ := Exponential.exists_approximate readFraction most least
  have valuePos : (0 : ℝ) < value := by exact_mod_cast positive
  have factor : value * Real.exp (read - Real.log value) = Real.exp read := by
    rw [Real.exp_sub, Real.exp_log valuePos, mul_div_cancel₀ _ valuePos.ne']
  have ratio : ((Logarithm.exactRatio value : ℚ) : ℝ) = (value - 1) / (value + 1) := by
    simp [Logarithm.exactRatio]
  -- The remainder is what the partial sum leaves out of the logarithm, which leaves the roundings.
  have gap : read - Real.log value + Logarithm.remainder (Logarithm.exactRatio value) count =
      ((read - 2 * Logarithm.partialSum (Logarithm.exactRatio value) count : ℚ) : ℝ) := by
    push_cast
    rw [Logarithm.partialSum_cast, ratio, Logarithm.remainder_ratio valuePos]
    ring
  refine ⟨result, read - Real.log value, count, ⟨logarithm, defined, resultFraction⟩, ?_, ?_, few,
    fun fewer => ?_⟩
  · rw [factor]
    exact error
  · have nearReal := (Rat.cast_le (K := ℝ)).mpr near
    rw [gap]
    push_cast at nearReal ⊢
    exact nearReal
  · have settledReal := (Rat.cast_le (K := ℝ)).mpr (settled fewer)
    push_cast at settledReal
    exact settledReal

theorem abs_exp_sub_one_le (small : |offset| ≤ 985 / 10 ^ 8) :
    |Real.exp offset - 1| ≤ 99 / 10 ^ 7 := by
  have error := Real.abs_exp_sub_one_sub_id_le (small.trans (by norm_num))
  have square : offset ^ 2 ≤ (985 / 10 ^ 8) ^ 2 := sq_le_sq' (abs_le.mp small).1 (abs_le.mp small).2
  have triangle := abs_sub_abs_le_abs_sub (Real.exp offset - 1) offset
  linarith

theorem le_abs_exp_sub_one (large : 1017 / 10 ^ 8 ≤ |offset|) :
    101 / 10 ^ 7 ≤ |Real.exp offset - 1| := by
  rcases le_abs.mp large with above | below
  · have bound := Real.add_one_le_exp offset
    exact le_abs.mpr (.inl (by linarith))
  · have bound := Real.abs_exp_sub_one_sub_id_le (x := -(1017 / 10 ^ 8)) (by norm_num)
    have falls : Real.exp offset ≤ Real.exp (-(1017 / 10 ^ 8)) :=
      Real.exp_le_exp.mpr (by linarith)
    have most := (abs_le.mp bound).2
    exact le_abs.mpr (.inr (by linarith))

/-- The error is that of the factor, apart from the roundings. -/
theorem abs_abs_sub_sub_le {result value factor : ℝ} (valuePos : 0 < value)
    (rounded : |result - value * factor| ≤ value * factor / 2 ^ 40) :
    |(|result - value| - value * |factor - 1|)| ≤ value * (|factor - 1| + 1) / 2 ^ 40 := by
  have whole : value * |factor - 1| = |value * factor - value| := by
    rw [← abs_of_pos valuePos, ← abs_mul, abs_of_pos valuePos, mul_sub_one]
  calc
    _ ≤ |result - value - (value * factor - value)| := by
      rw [whole]
      exact abs_abs_sub_abs_le _ _
    _ = |result - value * factor| := by rw [sub_sub_sub_cancel_right]
    _ ≤ value * factor / 2 ^ 40 := rounded
    _ ≤ _ := by
      gcongr
      linarith [le_abs_self (factor - 1)]

theorem abs_remainder_le_of_near (least : 1 / 434 ≤ value) (most : value ≤ 434) {count : Nat}
    (few : count ≤ 1000)
    (settled : count < 1000 → |(Logarithm.exactRatio value : ℝ)| ^ (2 * count + 1) ≤ 1 / 2 ^ 48) :
    |Logarithm.remainder (Logarithm.exactRatio value) count| ≤ 984 / 10 ^ 8 := by
  have next : 0 < value + 1 := by linarith
  have ratio : |Logarithm.exactRatio value| ≤ 433 / 435 := by
    rw [Logarithm.exactRatio, abs_le, le_div_iff₀ next, div_le_iff₀ next]
    constructor <;> linarith
  have ratioReal := (Rat.cast_le (K := ℝ)).mpr ratio
  push_cast at ratioReal
  rw [Logarithm.abs_remainder (ratioReal.trans_lt (by norm_num))]
  exact Logarithm.remainder_le (abs_nonneg _) ratioReal few settled

theorem le_abs_remainder_of_far (positive : 0 < value) (far : value ≤ 1 / 436 ∨ 436 ≤ value)
    {count : Nat} (few : count ≤ 1000) :
    1018 / 10 ^ 8 ≤ |Logarithm.remainder (Logarithm.exactRatio value) count| := by
  have next : 0 < value + 1 := by linarith
  have ratio : 435 / 437 ≤ |Logarithm.exactRatio value| := by
    rw [Logarithm.exactRatio, le_abs]
    rcases far with small | large
    · exact .inr (by rw [← neg_div, le_div_iff₀ next]; linarith)
    · exact .inl (by rw [le_div_iff₀ next]; linarith)
  have ratioReal := (Rat.cast_le (K := ℝ)).mpr ratio
  have small := (Rat.cast_lt (K := ℝ)).mpr (Logarithm.abs_exactRatio_lt_one positive)
  push_cast at ratioReal small
  rw [Logarithm.abs_remainder small]
  exact Logarithm.le_remainder ratioReal small few

/-- A factor whose logarithm is so small keeps the number within the tolerance. -/
theorem abs_sub_le_of_offset (positive : 0 < value) (small : |offset| ≤ 985 / 10 ^ 8)
    (rounded : |result - value * Real.exp offset| ≤ value * Real.exp offset / 2 ^ 40) :
    |result - value| ≤ 1 / 10 ^ 5 * value := by
  rw [← Rat.cast_le (K := ℝ)]
  push_cast
  have valuePos : (0 : ℝ) < value := by exact_mod_cast positive
  have factor := abs_exp_sub_one_le small
  have error := (abs_le.mp (abs_abs_sub_sub_le valuePos rounded)).2
  generalize |Real.exp offset - 1| = part at *
  nlinarith

/-- A factor whose logarithm is so large takes the number out of the tolerance. -/
theorem lt_abs_sub_of_offset (positive : 0 < value) (large : 1017 / 10 ^ 8 ≤ |offset|)
    (rounded : |result - value * Real.exp offset| ≤ value * Real.exp offset / 2 ^ 40) :
    1 / 10 ^ 5 * value < |result - value| := by
  rw [← Rat.cast_lt (K := ℝ)]
  push_cast
  have valuePos : (0 : ℝ) < value := by exact_mod_cast positive
  have factor := le_abs_exp_sub_one large
  have error := (abs_le.mp (abs_abs_sub_sub_le valuePos rounded)).1
  generalize |Real.exp offset - 1| = part at *
  nlinarith

/-- Every positive number has a logarithm, and comes back from it near itself or not. -/
theorem exists_returns_near_or_far (fraction : fraction? x = some value) (positive : 0 < value) :
    ∃ result, Returns x result ∧
      (1 / 434 ≤ value → value ≤ 434 → |result - value| ≤ 1 / 10 ^ 5 * value) ∧
      (value ≤ 1 / 436 ∨ 436 ≤ value → 1 / 10 ^ 5 * value < |result - value|) := by
  obtain ⟨result, offset, count, returns, rounded, gap, few, settled⟩ :=
    exists_returns fraction positive
  have apart := abs_abs_sub_abs_le offset (-Logarithm.remainder (Logarithm.exactRatio value) count)
  rw [sub_neg_eq_add, abs_neg] at apart
  obtain ⟨least, most⟩ := abs_le.mp (apart.trans gap)
  refine ⟨result, returns, fun above below => ?_, fun far => ?_⟩
  · have remainder := abs_remainder_le_of_near above below few settled
    exact abs_sub_le_of_offset positive (by linarith) rounded
  · have remainder := le_abs_remainder_of_far positive far few
    exact lt_abs_sub_of_offset positive (by linarith) rounded

/-- Every finite double above zero has a logarithm. The exponential undoes it within a part in a
hundred thousand for the numbers up to 434 and their reciprocals, and for none from 436 on. -/
theorem exponential_logarithm (finite : x.isFinite) (positive : 0 < x) :
    ∃ value result, fraction? x = some value ∧ Returns x result ∧
      (1 / 434 ≤ value → value ≤ 434 → |result - value| ≤ 1 / 10 ^ 5 * value) ∧
      (value ≤ 1 / 436 ∨ 436 ≤ value → 1 / 10 ^ 5 * value < |result - value|) := by
  have zero : fraction? (0 : Float) = some 0 := rfl
  obtain ⟨value, fraction⟩ := exists_fraction finite
  obtain ⟨result, returns, both⟩ :=
    exists_returns_near_or_far fraction ((lt_iff zero fraction).mp positive)
  exact ⟨value, result, fraction, returns, both⟩

theorem exponential_logarithm_bounds :
    (434 : Float).isFinite ∧ (0 : Float) < 434 ∧ (436 : Float).isFinite ∧ (0 : Float) < 436 ∧
      (∃ result, Returns 434 result ∧ |result - 434| ≤ 1 / 10 ^ 5 * 434) ∧
      ∃ result, Returns 436 result ∧ 1 / 10 ^ 5 * 436 < |result - 436| := by
  have within : fraction? 434 = some 434 := by decide +kernel
  have beyond : fraction? 436 = some 436 := by decide +kernel
  have withinFinite : (434 : Float).isFinite := by decide +kernel
  have beyondFinite : (436 : Float).isFinite := by decide +kernel
  have withinPos : (0 : Float) < 434 := by decide +kernel
  have beyondPos : (0 : Float) < 436 := by decide +kernel
  refine ⟨withinFinite, withinPos, beyondFinite, beyondPos, ?_, ?_⟩
  · obtain ⟨value, result, fraction, returns, near, _⟩ :=
      exponential_logarithm withinFinite withinPos
    obtain rfl := Option.some.inj (fraction.symm.trans within)
    exact ⟨result, returns, near (by norm_num) le_rfl⟩
  · obtain ⟨value, result, fraction, returns, _, far⟩ :=
      exponential_logarithm beyondFinite beyondPos
    obtain rfl := Option.some.inj (fraction.symm.trans beyond)
    exact ⟨result, returns, far (.inr le_rfl)⟩

/-- The exponential does not undo every logarithm, and not that of a thousand. -/
theorem not_forall_exponential_logarithm :
    ¬∀ x : Float, x.isFinite → 0 < x →
      ∃ value result, fraction? x = some value ∧ Returns x result ∧
        |result - value| ≤ 1 / 10 ^ 5 * value := by
  intro undone
  have thousand : fraction? 1000 = some 1000 := by decide +kernel
  obtain ⟨value, result, fraction, returns, near⟩ :=
    undone 1000 (by decide +kernel) (by decide +kernel)
  obtain rfl := Option.some.inj (fraction.symm.trans thousand)
  obtain ⟨other, returnsOther, _, far⟩ := exists_returns_near_or_far thousand (by norm_num)
  obtain rfl := returns.eq returnsOther
  exact absurd near (not_le.mpr (far (.inr (by norm_num))))

end Reckoner
