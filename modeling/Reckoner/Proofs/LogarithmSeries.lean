/-
This file bounds what the partial sums of the logarithm's series leave out, from above and from
below.
-/

import Mathlib

namespace Reckoner.Logarithm

/-- The sum of the first odd powers, each divided by its exponent. -/
def partialSum {K : Type} [Field K] (ratio : K) (count : Nat) : K :=
  ∑ index ∈ Finset.range count, ratio ^ (2 * index + 1) / (2 * index + 1)

theorem partialSum_succ {K : Type} [Field K] (ratio : K) (count : Nat) :
    partialSum ratio (count + 1) =
      partialSum ratio count + ratio ^ (2 * count + 1) / (2 * count + 1) :=
  Finset.sum_range_succ _ count

theorem partialSum_neg {K : Type} [Field K] (ratio : K) (count : Nat) :
    partialSum (-ratio) count = -partialSum ratio count := by
  rw [partialSum, partialSum, ← Finset.sum_neg_distrib]
  refine Finset.sum_congr rfl fun index _ => ?_
  rw [Odd.neg_pow ⟨index, rfl⟩, neg_div]

theorem partialSum_zero {K : Type} [Field K] (count : Nat) : partialSum (0 : K) count = 0 := by
  simp [partialSum]

section Order

variable {K : Type} [Field K] [LinearOrder K] [IsStrictOrderedRing K] {ratio : K}

theorem term_nonneg (nonneg : 0 ≤ ratio) (index : Nat) :
    0 ≤ ratio ^ (2 * index + 1) / (2 * index + 1) := by
  positivity

theorem partialSum_nonneg (nonneg : 0 ≤ ratio) (count : Nat) : 0 ≤ partialSum ratio count :=
  Finset.sum_nonneg fun index _ => term_nonneg nonneg index

/-- The terms are all of one sign. -/
theorem abs_partialSum (ratio : K) (count : Nat) :
    |partialSum ratio count| = partialSum |ratio| count := by
  rcases le_total 0 ratio with nonneg | nonpos
  · rw [abs_of_nonneg nonneg, abs_of_nonneg (partialSum_nonneg nonneg count)]
  · rw [abs_of_nonpos nonpos, ← abs_neg, ← partialSum_neg,
      abs_of_nonneg (partialSum_nonneg (neg_nonneg.mpr nonpos) count)]

/-- A term does not take away from those before it. -/
theorem partialSum_mul_nonneg (ratio : K) (count : Nat) :
    0 ≤ partialSum ratio count * (ratio ^ (2 * count + 1) / (2 * count + 1)) := by
  rw [partialSum, Finset.sum_mul]
  apply Finset.sum_nonneg
  intro index _
  have even : ratio ^ (2 * index + 1) * ratio ^ (2 * count + 1) =
      (ratio ^ (index + count + 1)) ^ 2 := by ring
  rw [div_mul_div_comm, even]
  positivity

theorem partialSum_mono (nonneg : 0 ≤ ratio) : Monotone (partialSum ratio) :=
  monotone_nat_of_le_succ fun count => by
    rw [partialSum_succ]
    exact le_add_of_nonneg_right (term_nonneg nonneg count)

/-- The first term counts for no less than itself. -/
theorem abs_ratio_le (ratio : K) (count : Nat) : |ratio| ≤ |partialSum ratio (count + 1)| := by
  rw [abs_partialSum]
  have first : partialSum |ratio| 1 = |ratio| := by simp [partialSum]
  calc
    _ = partialSum |ratio| 1 := first.symm
    _ ≤ _ := partialSum_mono (abs_nonneg ratio) (Nat.le_add_left 1 count)

/-- What a partial sum leaves out is no more than the next power and those after it, undivided. -/
theorem partialSum_le_add_div (nonneg : 0 ≤ ratio) (small : ratio < 1) {count more : Nat}
    (le : count ≤ more) :
    partialSum ratio more ≤ partialSum ratio count + ratio ^ (2 * count + 1) / (1 - ratio ^ 2) := by
  have gap : 0 < 1 - ratio ^ 2 := sub_pos.mpr (pow_lt_one₀ nonneg small two_ne_zero)
  -- All powers from the next one on add up to this quotient, so that the sum with it cannot grow.
  have falls : partialSum ratio more + ratio ^ (2 * more + 1) / (1 - ratio ^ 2) ≤
      partialSum ratio count + ratio ^ (2 * count + 1) / (1 - ratio ^ 2) := by
    induction more, le using Nat.le_induction with
    | base => rfl
    | succ more le ih =>
        have undivided : ratio ^ (2 * more + 1) / (2 * more + 1) ≤ ratio ^ (2 * more + 1) :=
          div_le_self (by positivity) (le_add_of_nonneg_left (by positivity))
        have next : ratio ^ (2 * (more + 1) + 1) / (1 - ratio ^ 2) =
            ratio ^ (2 * more + 1) / (1 - ratio ^ 2) - ratio ^ (2 * more + 1) := by
          field_simp
          ring
        rw [partialSum_succ, next]
        linarith
  exact (le_add_of_nonneg_right (by positivity)).trans falls

/-- A longer partial sum lies farther from zero, by no more than the powers left out. -/
theorem abs_partialSum_sub_le (small : |ratio| < 1) {count more : Nat} (le : count ≤ more) :
    |partialSum ratio more - partialSum ratio count| ≤
      |ratio| ^ (2 * count + 1) / (1 - ratio ^ 2) := by
  have grows := partialSum_mono (abs_nonneg ratio) le
  have bound := partialSum_le_add_div (abs_nonneg ratio) small le
  have same : |partialSum ratio more - partialSum ratio count| =
      partialSum |ratio| more - partialSum |ratio| count := by
    rcases le_total 0 ratio with nonneg | nonpos
    · rw [abs_of_nonneg nonneg] at grows ⊢
      exact abs_of_nonneg (sub_nonneg.mpr grows)
    · rw [abs_of_nonpos nonpos, partialSum_neg, partialSum_neg] at grows ⊢
      rw [abs_of_nonpos (by linarith)]
      ring
  rw [sq_abs] at bound
  rw [same]
  linarith

end Order

theorem partialSum_cast (ratio : ℚ) (count : Nat) :
    ((partialSum ratio count : ℚ) : ℝ) = partialSum (ratio : ℝ) count := by
  simp only [partialSum]
  push_cast
  rfl

theorem log_thousand_le : Real.log 1000 ≤ 7 := by
  have base : (2.7 : ℝ) ≤ Real.exp 1 := by linarith [Real.exp_one_gt_d9]
  rw [Real.log_le_iff_le_exp (by norm_num)]
  calc
    (1000 : ℝ) ≤ 2.7 ^ 7 := by norm_num
    _ ≤ Real.exp 1 ^ 7 := by gcongr
    _ = Real.exp 7 := by
      rw [← Real.exp_nat_mul]
      norm_num

/-- The partial sum does not reach the harmonic one. -/
theorem abs_partialSum_le_eight {ratio : ℚ} (small : |ratio| ≤ 1) {count : Nat}
    (few : count ≤ 1000) : |partialSum ratio count| ≤ 8 := by
  have term (index : Nat) :
      |ratio| ^ (2 * index + 1) / (2 * index + 1) ≤ ((index + 1 : Nat) : ℚ)⁻¹ := by
    rw [← one_div]
    gcongr
    · exact pow_le_one₀ (abs_nonneg ratio) small
    · push_cast
      linarith [Nat.cast_nonneg (α := ℚ) index]
  have eight : (harmonic 1000 : ℝ) ≤ 8 := by
    have bound := harmonic_le_one_add_log 1000
    rw [Nat.cast_ofNat] at bound
    linarith [log_thousand_le]
  rw [abs_partialSum]
  calc
    _ ≤ partialSum |ratio| 1000 := partialSum_mono (abs_nonneg ratio) few
    _ ≤ harmonic 1000 := Finset.sum_le_sum fun index _ => term index
    _ ≤ 8 := by exact_mod_cast eight

noncomputable section

open Filter Topology

/-- What a partial sum leaves out of the logarithm. -/
def remainder (ratio : ℝ) (count : Nat) : ℝ :=
  Real.log (1 + ratio) - Real.log (1 - ratio) - 2 * partialSum ratio count

theorem remainder_neg (ratio : ℝ) (count : Nat) :
    remainder (-ratio) count = -remainder ratio count := by
  rw [remainder, remainder, partialSum_neg, sub_neg_eq_add, ← sub_eq_add_neg]
  ring

variable {ratio offset : ℝ} {count : Nat}

theorem hasSum_partialSum (small : |ratio| < 1) :
    HasSum (fun index : Nat => ratio ^ (2 * index + 1) / (2 * index + 1))
      ((Real.log (1 + ratio) - Real.log (1 - ratio)) / 2) := by
  have whole := (Real.hasSum_log_sub_log_of_abs_lt_one small).div_const 2
  have term (index : Nat) : 2 * (1 / (2 * index + 1)) * ratio ^ (2 * index + 1) / 2 =
      ratio ^ (2 * index + 1) / (2 * index + 1) := by ring
  simpa only [term] using whole

theorem hasSum_remainder (small : |ratio| < 1) (count : Nat) :
    HasSum (fun index : Nat =>
      ratio ^ (2 * (index + count) + 1) / (2 * (index + count : Nat) + 1))
        (remainder ratio count / 2) := by
  have tail := (hasSum_nat_add_iff' count).mpr (hasSum_partialSum small)
  have value : (Real.log (1 + ratio) - Real.log (1 - ratio)) / 2 - partialSum ratio count =
      remainder ratio count / 2 := by
    rw [remainder]
    ring
  rwa [← partialSum, value] at tail

/-- What a partial sum leaves out grows with the ratio. -/
theorem remainder_mono (count : Nat) {larger : ℝ} (nonneg : 0 ≤ ratio) (le : ratio ≤ larger)
    (small : larger < 1) : remainder ratio count ≤ remainder larger count := by
  have first := hasSum_remainder (abs_lt.mpr ⟨by linarith, le.trans_lt small⟩) count
  have second := hasSum_remainder (abs_lt.mpr ⟨by linarith, small⟩) count
  have bound := hasSum_le (fun index => by gcongr) first second
  linarith

/-- What a partial sum leaves out falls with the number of terms. -/
theorem remainder_anti (nonneg : 0 ≤ ratio) : Antitone (remainder ratio) := by
  intro count more le
  have grows := partialSum_mono nonneg le
  simp only [remainder]
  linarith

theorem remainder_nonneg (nonneg : 0 ≤ ratio) (small : ratio < 1) (count : Nat) :
    0 ≤ remainder ratio count := by
  have sum := hasSum_remainder (abs_lt.mpr ⟨by linarith, small⟩) count
  have bound := sum.nonneg fun index => by positivity
  linarith

theorem abs_remainder (small : |ratio| < 1) (count : Nat) :
    |remainder ratio count| = remainder |ratio| count := by
  rcases le_total 0 ratio with nonneg | nonpos
  · rw [abs_of_nonneg nonneg] at small ⊢
    exact abs_of_nonneg (remainder_nonneg nonneg small count)
  · rw [abs_of_nonpos nonpos] at small ⊢
    rw [← abs_neg, ← remainder_neg]
    exact abs_of_nonneg (remainder_nonneg (neg_nonneg.mpr nonpos) small count)

/-- An estimate of what a partial sum leaves out, as if the terms behind it fell evenly. -/
def closing (ratio offset : ℝ) (count : Nat) : ℝ :=
  ratio ^ (2 * count + 1) / ((1 - ratio ^ 2) * (2 * count + 1) + offset)

theorem tendsto_closing (nonneg : 0 ≤ ratio) (small : ratio < 1) (offsetNonneg : 0 ≤ offset) :
    Tendsto (closing ratio offset) atTop (𝓝 0) := by
  have gap : 0 < 1 - ratio ^ 2 := by nlinarith
  have power : Tendsto (fun count : Nat => ratio ^ count / (1 - ratio ^ 2)) atTop (𝓝 0) := by
    simpa using (tendsto_pow_atTop_nhds_zero_of_lt_one nonneg small).div_const (1 - ratio ^ 2)
  refine squeeze_zero (fun count => by unfold closing; positivity) (fun count => ?_) power
  apply div_le_div₀ (by positivity) _ gap
  · nlinarith [Nat.cast_nonneg (α := ℝ) count]
  · exact pow_le_pow_of_le_one nonneg small.le (by omega)

/-- The difference of a term from the fall of the estimate. -/
theorem term_sub_closing (small : ratio ^ 2 < 1) (offsetNonneg : 0 ≤ offset) (count : Nat) :
    ratio ^ (2 * count + 1) / (2 * count + 1) -
        (closing ratio offset count - closing ratio offset (count + 1)) =
      ratio ^ (2 * count + 1) * (offset * (offset + 2 * (1 - ratio ^ 2)) -
          (1 - ratio ^ 2) * (2 * count + 1) * (2 * ratio ^ 2 - offset)) /
        ((2 * count + 1) * ((1 - ratio ^ 2) * (2 * count + 1) + offset) *
          ((1 - ratio ^ 2) * (2 * count + 3) + offset)) := by
  have gap : 0 < 1 - ratio ^ 2 := sub_pos.mpr small
  have first : 0 < (1 - ratio ^ 2) * (2 * count + 1) + offset := by positivity
  have second : 0 < (1 - ratio ^ 2) * (2 * count + 3) + offset := by positivity
  have next : (1 - ratio ^ 2) * (2 * (count + 1 : Nat) + 1) + offset =
      (1 - ratio ^ 2) * (2 * count + 3) + offset := by
    push_cast
    ring
  have power : ratio ^ (2 * (count + 1) + 1) = ratio ^ (2 * count + 1) * ratio ^ 2 := by ring
  rw [closing, closing, next, power]
  field_simp
  ring

theorem tendsto_estimate (nonneg : 0 ≤ ratio) (small : ratio < 1) (offsetNonneg : 0 ≤ offset) :
    Tendsto (fun count => partialSum ratio count + closing ratio offset count) atTop
      (𝓝 ((Real.log (1 + ratio) - Real.log (1 - ratio)) / 2)) := by
  have sum := (hasSum_partialSum (abs_lt.mpr ⟨by linarith, small⟩)).tendsto_sum_nat
  have both := sum.add (tendsto_closing nonneg small offsetNonneg)
  rw [add_zero] at both
  exact both

/-- The estimate is not too low where it falls by more than the terms. -/
theorem remainder_le_closing (nonneg : 0 ≤ ratio) (small : ratio < 1) (offsetNonneg : 0 ≤ offset)
    (even : offset ≤ 2 * ratio ^ 2)
    (enough : offset * (offset + 2 * (1 - ratio ^ 2)) ≤
      (1 - ratio ^ 2) * (2 * count + 1) * (2 * ratio ^ 2 - offset)) :
    remainder ratio count ≤ 2 * closing ratio offset count := by
  have square : ratio ^ 2 < 1 := by nlinarith
  have gap : 0 < 1 - ratio ^ 2 := sub_pos.mpr square
  -- The limit of the sum with the estimate is the logarithm. The sum falls towards it from here on.
  have falls : Antitone fun index =>
      partialSum ratio (index + count) + closing ratio offset (index + count) := by
    refine antitone_nat_of_succ_le fun index => ?_
    have more : offset * (offset + 2 * (1 - ratio ^ 2)) -
        (1 - ratio ^ 2) * (2 * (index + count : Nat) + 1) * (2 * ratio ^ 2 - offset) ≤ 0 := by
      refine sub_nonpos.mpr (enough.trans ?_)
      gcongr
      exact Nat.le_add_left count index
    have step : _ ≤ (0 : ℝ) :=
      (term_sub_closing square offsetNonneg (index + count)).trans_le
        (div_nonpos_of_nonpos_of_nonneg (mul_nonpos_of_nonneg_of_nonpos (by positivity) more)
          (by positivity))
    rw [Nat.add_right_comm, partialSum_succ]
    linarith
  have limit := falls.le_of_tendsto
    ((tendsto_add_atTop_iff_nat count).mpr (tendsto_estimate nonneg small offsetNonneg)) 0
  rw [Nat.zero_add] at limit
  rw [remainder]
  linarith

/-- With this offset the estimate is never too high. -/
theorem closing_le_remainder (nonneg : 0 ≤ ratio) (small : ratio < 1) (count : Nat) :
    2 * closing ratio (2 * ratio ^ 2) count ≤ remainder ratio count := by
  have square : ratio ^ 2 < 1 := by nlinarith
  have gap : 0 < 1 - ratio ^ 2 := sub_pos.mpr square
  have offsetNonneg : 0 ≤ 2 * ratio ^ 2 := by positivity
  have grows : Monotone fun index =>
      partialSum ratio index + closing ratio (2 * ratio ^ 2) index := by
    refine monotone_nat_of_le_succ fun index => ?_
    have step : (0 : ℝ) ≤ _ :=
      (term_sub_closing square offsetNonneg index).symm.le.trans' (by
        rw [sub_self, mul_zero, sub_zero]
        positivity)
    rw [partialSum_succ]
    linarith
  have limit := grows.ge_of_tendsto (tendsto_estimate nonneg small offsetNonneg) count
  rw [remainder]
  linarith

theorem power_le : (433 / 435 : ℝ) ^ 2001 ≤ 98919 / 10 ^ 9 := by
  have whole : 433 ^ 2001 * 10 ^ 9 ≤ 98919 * 435 ^ 2001 := by decide +kernel
  rw [div_pow, div_le_div_iff₀ (by positivity) (by positivity)]
  exact_mod_cast whole

theorem le_power : (103192 / 10 ^ 9 : ℝ) ≤ (435 / 437) ^ 2001 := by
  have whole : 103192 * 437 ^ 2001 ≤ 435 ^ 2001 * 10 ^ 9 := by decide +kernel
  rw [div_pow, div_le_div_iff₀ (by positivity) (by positivity)]
  exact_mod_cast whole

/-- A thousand terms are enough up to this ratio, and fewer where the next power is small. -/
theorem remainder_le (nonneg : 0 ≤ ratio) (most : ratio ≤ 433 / 435) (few : count ≤ 1000)
    (settled : count < 1000 → ratio ^ (2 * count + 1) ≤ 1 / 2 ^ 48) :
    remainder ratio count ≤ 984 / 10 ^ 8 := by
  rcases few.lt_or_eq with fewer | rfl
  · have square : ratio ^ 2 ≤ (433 / 435) ^ 2 := by gcongr
    have gap : 1 / 110 ≤ (1 - ratio ^ 2) * (2 * count + 1) + 0 := by
      nlinarith [Nat.cast_nonneg (α := ℝ) count]
    calc
      _ ≤ 2 * closing ratio 0 count := by
        apply remainder_le_closing nonneg (by linarith) le_rfl (by positivity)
        rw [zero_mul, sub_zero]
        have positive : 0 ≤ 1 - ratio ^ 2 := by linarith
        positivity
      _ ≤ 2 * (1 / 2 ^ 48 / (1 / 110)) := by
        unfold closing
        gcongr
        exact settled fewer
      _ ≤ _ := by norm_num
  · -- With no terms to spare the ratio decides, and without an offset the estimate is too high.
    calc
      _ ≤ remainder (433 / 435) 1000 := remainder_mono 1000 nonneg most (by norm_num)
      _ ≤ 2 * closing (433 / 435) (7 / 4) 1000 :=
        remainder_le_closing (by norm_num) (by norm_num) (by norm_num) (by norm_num) (by norm_num)
      _ ≤ 2 * (98919 / 10 ^ 9 / ((1 - (433 / 435) ^ 2) * (2 * 1000 + 1) + 7 / 4)) := by
        have bound := power_le
        rw [closing, Nat.cast_ofNat]
        gcongr
      _ ≤ _ := by norm_num

/-- A thousand terms are too few from this ratio on. -/
theorem le_remainder (least : 435 / 437 ≤ ratio) (small : ratio < 1) (few : count ≤ 1000) :
    1018 / 10 ^ 8 ≤ remainder ratio count := by
  calc
    _ ≤ 2 * (103192 / 10 ^ 9 /
        ((1 - (435 / 437) ^ 2) * (2 * 1000 + 1) + 2 * (435 / 437) ^ 2) : ℝ) := by norm_num
    _ ≤ 2 * closing (435 / 437) (2 * (435 / 437) ^ 2) 1000 := by
      have bound := le_power
      rw [closing, Nat.cast_ofNat]
      gcongr
    _ ≤ remainder (435 / 437) 1000 := closing_le_remainder (by norm_num) (by norm_num) 1000
    _ ≤ remainder ratio 1000 := remainder_mono 1000 (by norm_num) least small
    _ ≤ _ := remainder_anti (by linarith) few

theorem remainder_ratio {value : ℝ} (positive : 0 < value) (count : Nat) :
    remainder ((value - 1) / (value + 1)) count =
      Real.log value - 2 * partialSum ((value - 1) / (value + 1)) count := by
  have next : value + 1 ≠ 0 := by positivity
  have above : 1 + (value - 1) / (value + 1) = 2 * value / (value + 1) := by
    field_simp
    ring
  have below : 1 - (value - 1) / (value + 1) = 2 / (value + 1) := by
    field_simp
    ring
  rw [remainder, above, below, Real.log_div (by positivity) next, Real.log_div two_ne_zero next,
    Real.log_mul two_ne_zero positive.ne']
  ring

end

end Reckoner.Logarithm
