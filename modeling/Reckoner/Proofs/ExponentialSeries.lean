/-
This file bounds what the partial sums of the exponential series leave out by their last term.
-/

import Mathlib

namespace Reckoner.Exponential

open scoped Nat

/-- A term of the Taylor series. -/
def seriesTerm {K : Type} [Field K] (x : K) (index : Nat) : K := x ^ index / index !

/-- The sum of the first terms. -/
def partialSum {K : Type} [Field K] (x : K) (count : Nat) : K :=
  ∑ index ∈ Finset.range count, seriesTerm x index

theorem partialSum_succ {K : Type} [Field K] (x : K) (count : Nat) :
    partialSum x (count + 1) = partialSum x count + seriesTerm x count :=
  Finset.sum_range_succ _ count

theorem seriesTerm_succ {K : Type} [Field K] [CharZero K] (x : K) (index : Nat) :
    seriesTerm x (index + 1) = seriesTerm x index * (x / (index + 1 : Nat)) := by
  rw [seriesTerm, seriesTerm, Nat.factorial_succ, pow_succ, Nat.cast_mul, div_mul_div_comm,
    mul_comm (index ! : K)]

section Order

variable {K : Type} [Field K] [LinearOrder K] [IsStrictOrderedRing K] {x : K}

theorem seriesTerm_nonneg (nonneg : 0 ≤ x) (index : Nat) : 0 ≤ seriesTerm x index := by
  unfold seriesTerm
  positivity

theorem partialSum_nonneg (nonneg : 0 ≤ x) (count : Nat) : 0 ≤ partialSum x count :=
  Finset.sum_nonneg fun index _ => seriesTerm_nonneg nonneg index

theorem one_le_partialSum (nonneg : 0 ≤ x) (count : Nat) : 1 ≤ partialSum x (count + 1) := by
  induction count with
  | zero => simp [partialSum, seriesTerm]
  | succ count ih =>
      rw [partialSum_succ]
      exact ih.trans (le_add_of_nonneg_right (seriesTerm_nonneg nonneg _))

theorem partialSum_mono (nonneg : 0 ≤ x) : Monotone (partialSum x) :=
  monotone_nat_of_le_succ fun count => by
    rw [partialSum_succ]
    exact le_add_of_nonneg_right (seriesTerm_nonneg nonneg count)

theorem seriesTerm_le_partialSum (nonneg : 0 ≤ x) (count : Nat) :
    seriesTerm x count ≤ partialSum x (count + 1) := by
  rw [partialSum_succ]
  exact le_add_of_nonneg_left (partialSum_nonneg nonneg count)

/-- The terms grow up to the number itself, and none up to there is below one. -/
theorem lt_of_seriesTerm_lt_one {last : Nat} (small : seriesTerm x last < 1) : x < last := by
  have factorial : (0 : K) < last ! := by exact_mod_cast Nat.factorial_pos last
  have powers : (last ! : K) ≤ last ^ last := by exact_mod_cast Nat.factorial_le_pow last
  rw [seriesTerm, div_lt_one factorial] at small
  exact lt_of_pow_lt_pow_left₀ last (Nat.cast_nonneg last) (small.trans_le powers)

/-- From a term behind the number on, each term falls by enough for all those after it. -/
theorem seriesTerm_add_mul_le (nonneg : 0 ≤ x) {last index : Nat} (most : x ≤ last)
    (behind : last < index) :
    seriesTerm x index + (last + 2) / 2 * seriesTerm x (index + 1) ≤
      (last + 2) / 2 * seriesTerm x index := by
  have term := seriesTerm_nonneg nonneg index
  have divisor : (last + 2 : K) ≤ (index + 1 : Nat) := by exact_mod_cast Nat.succ_le_succ behind
  have quotient : x / (index + 1 : Nat) ≤ last / (last + 2) := by gcongr
  calc
    _ = seriesTerm x index * (1 + (last + 2) / 2 * (x / (index + 1 : Nat))) := by
      rw [seriesTerm_succ]
      ring
    _ ≤ seriesTerm x index * (1 + (last + 2) / 2 * (last / (last + 2))) := by gcongr
    _ = _ := by
      field_simp
      ring

/-- What a partial sum leaves out is no more than its last term, where that is small, times the
number. -/
theorem partialSum_le_add_mul (nonneg : 0 ≤ x) {last count : Nat} (most : x ≤ last)
    (longer : last < count) :
    partialSum x count ≤ partialSum x (last + 1) + seriesTerm x last * x := by
  -- The sum with this multiple of the next term does not grow.
  have falls : partialSum x count + (last + 2) / 2 * seriesTerm x count ≤
      partialSum x (last + 1) + (last + 2) / 2 * seriesTerm x (last + 1) := by
    induction count, longer using Nat.le_induction with
    | base => rfl
    | succ count longer ih =>
        have step := seriesTerm_add_mul_le nonneg most longer
        rw [partialSum_succ]
        linarith
  have rest : (last + 2 : K) / 2 * seriesTerm x (last + 1) ≤ seriesTerm x last * x := by
    have term := seriesTerm_nonneg nonneg last
    have half : (last + 2 : K) / 2 / (last + 1 : Nat) ≤ 1 := by
      rw [div_div, div_le_one (by positivity)]
      push_cast
      linarith [Nat.cast_nonneg (α := K) last]
    calc
      _ = (last + 2) / 2 / (last + 1 : Nat) * (seriesTerm x last * x) := by
        rw [seriesTerm_succ]
        ring
      _ ≤ _ := mul_le_of_le_one_left (by positivity) half
  have left : 0 ≤ (last + 2 : K) / 2 * seriesTerm x count :=
    mul_nonneg (by positivity) (seriesTerm_nonneg nonneg count)
  linarith

end Order

theorem seriesTerm_cast (x : ℚ) (index : Nat) :
    ((seriesTerm x index : ℚ) : ℝ) = seriesTerm (x : ℝ) index := by
  simp [seriesTerm]

theorem partialSum_cast (x : ℚ) (count : Nat) :
    ((partialSum x count : ℚ) : ℝ) = partialSum (x : ℝ) count := by
  simp only [partialSum, Rat.cast_sum, seriesTerm_cast]

theorem hasSum_seriesTerm (x : ℝ) : HasSum (seriesTerm x) (Real.exp x) := by
  rw [Real.exp_eq_exp_ℝ]
  exact NormedSpace.expSeries_div_hasSum_exp x

variable {x : ℝ}

theorem partialSum_le_exp (nonneg : 0 ≤ x) (count : Nat) : partialSum x count ≤ Real.exp x :=
  Real.sum_le_exp_of_nonneg nonneg count

theorem exp_le_of_partialSum_le {bound : ℝ} (last : Nat)
    (bounds : ∀ count, last < count → partialSum x count ≤ bound) : Real.exp x ≤ bound := by
  refine le_of_tendsto (hasSum_seriesTerm x).tendsto_sum_nat ?_
  filter_upwards [Filter.eventually_gt_atTop last] with count longer
  exact bounds count longer

/-- The factorial of a sum is no less than the product of the factorials. -/
theorem seriesTerm_add_le (nonneg : 0 ≤ x) (index count : Nat) :
    seriesTerm x (index + count) ≤ seriesTerm x count * seriesTerm x index := by
  have factorials : (count ! * index ! : ℝ) ≤ (index + count)! := by
    have divides := Nat.factorial_mul_factorial_dvd_factorial_add index count
    rw [mul_comm]
    exact_mod_cast Nat.le_of_dvd (Nat.factorial_pos _) divides
  rw [seriesTerm, seriesTerm, seriesTerm, div_mul_div_comm, ← pow_add, Nat.add_comm count]
  gcongr

/-- What is left out is no more than the next term of the whole. -/
theorem exp_sub_partialSum_le (nonneg : 0 ≤ x) (count : Nat) :
    Real.exp x - partialSum x count ≤ seriesTerm x count * Real.exp x := by
  have tail := (hasSum_nat_add_iff' count).mpr (hasSum_seriesTerm x)
  have product := (hasSum_seriesTerm x).mul_left (seriesTerm x count)
  exact hasSum_le (fun index => seriesTerm_add_le nonneg index count) tail product

/-- The factors of a factorial from one on are no less than this one. -/
theorem seriesTerm_add_le_pow (nonneg : 0 ≤ x) (index count : Nat) :
    seriesTerm x (index + count) ≤ x ^ index * (x / (index + 1)) ^ count := by
  have factorials : (index + 1 : ℝ) ^ count ≤ (index + count)! := by
    have whole := (Nat.le_mul_of_pos_left ((index + 1) ^ count) (Nat.factorial_pos index)).trans
      Nat.factorial_mul_pow_le_factorial
    exact_mod_cast whole
  rw [seriesTerm, pow_add, div_pow, ← mul_div_assoc]
  gcongr

/-- After a thousand terms of a number that is not large the next one is small. -/
theorem seriesTerm_thousand_le (nonneg : 0 ≤ x) (most : x ≤ 32) :
    seriesTerm x 1000 ≤ 1 / 2 ^ 48 := by
  -- From the factor 128 on, each factor of the term is a quarter or less.
  have powers : 32 ^ 127 * 2 ^ 48 ≤ 4 ^ 873 := by decide +kernel
  have quotient : x / ((127 : Nat) + 1) ≤ 1 / 4 := by
    rw [Nat.cast_ofNat]
    linarith
  calc
    _ ≤ x ^ 127 * (x / ((127 : Nat) + 1)) ^ 873 := seriesTerm_add_le_pow nonneg 127 873
    _ ≤ 32 ^ 127 * (1 / 4) ^ 873 := by gcongr
    _ ≤ 1 / 2 ^ 48 := by
      rw [div_pow, one_pow, mul_one_div, div_le_div_iff₀ (by positivity) (by positivity), one_mul]
      exact_mod_cast powers

/-- The partial sum comes near the exponential where its last term is small. -/
theorem partialSum_near_exp (nonneg : 0 ≤ x) (most : x ≤ 32) {count : Nat} (few : count ≤ 1000)
    (settled : count < 1000 → seriesTerm x count ≤ 1 / 2 ^ 48) :
    (1 - 1 / 2 ^ 48) * Real.exp x ≤ partialSum x (count + 1) ∧
      partialSum x (count + 1) ≤ Real.exp x := by
  refine ⟨?_, partialSum_le_exp nonneg _⟩
  have last : seriesTerm x count ≤ 1 / 2 ^ 48 := by
    rcases few.lt_or_eq with fewer | rfl
    · exact settled fewer
    · exact seriesTerm_thousand_le nonneg most
  have left := exp_sub_partialSum_le nonneg count
  have added := seriesTerm_nonneg nonneg count
  have positive := Real.exp_pos x
  have bound : seriesTerm x count * Real.exp x ≤ 1 / 2 ^ 48 * Real.exp x := by gcongr
  rw [partialSum_succ]
  linarith

end Reckoner.Exponential
