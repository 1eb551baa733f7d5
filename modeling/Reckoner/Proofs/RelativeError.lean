/-
This file counts roundings: a value is near the exact one when so many roundings lead from one to
the other. The count goes through products, quotients and sums of numbers of one sign.
-/

import Reckoner.Proofs.Comparison

namespace Reckoner.Binary64

/-- One rounding leaves no less than this part of a number. -/
def leastFactor : ℚ := 1 - 1 / 2 ^ 53

/-- The value is a multiple of the exact one by a factor that is no farther from one than the
roundings can lead. -/
def Near (count : Nat) (value exact : ℚ) : Prop :=
  ∃ factor, leastFactor ^ count ≤ factor ∧ factor * leastFactor ^ count ≤ 1 ∧
    value = factor * exact

theorem leastFactor_pos : 0 < leastFactor := by
  norm_num [leastFactor]

theorem leastFactor_le_one : leastFactor ≤ 1 := by
  norm_num [leastFactor]

variable {count more : Nat} {value exact other otherExact : ℚ}

/-- A number is as near to itself as can be. -/
theorem near_self (exact : ℚ) : Near 0 exact exact :=
  ⟨1, by simp, by simp, (one_mul exact).symm⟩

/-- What is near in few roundings is near in more. -/
theorem Near.mono (near : Near count value exact) (le : count ≤ more) : Near more value exact := by
  obtain ⟨factor, least, most, rfl⟩ := near
  have smaller := pow_le_pow_of_le_one leastFactor_pos.le leastFactor_le_one le
  have positive := (pow_pos leastFactor_pos count).trans_le least
  exact ⟨factor, smaller.trans least,
    (mul_le_mul_of_nonneg_left smaller positive.le).trans most, rfl⟩

/-- Opposite numbers are as near to each other. -/
theorem Near.neg (near : Near count value exact) : Near count (-value) (-exact) := by
  obtain ⟨factor, least, most, rfl⟩ := near
  exact ⟨factor, least, most, (mul_neg factor exact).symm⟩

/-- The roundings on the way from one number to the next add up. -/
theorem Near.trans (near : Near count value other) (next : Near more other exact) :
    Near (count + more) value exact := by
  obtain ⟨factor, least, most, rfl⟩ := near
  obtain ⟨nextFactor, nextLeast, nextMost, rfl⟩ := next
  have power := pow_pos leastFactor_pos count
  have nextPower := pow_pos leastFactor_pos more
  refine ⟨factor * nextFactor, ?_, ?_, (mul_assoc _ _ _).symm⟩
  · rw [pow_add]
    exact mul_le_mul least nextLeast nextPower.le (power.le.trans least)
  · rw [pow_add, mul_mul_mul_comm]
    exact mul_le_one₀ most (mul_nonneg (nextPower.le.trans nextLeast) nextPower.le) nextMost

/-- A factor on both numbers keeps them near. -/
theorem Near.mul_left (near : Near count value exact) (scale : ℚ) :
    Near count (scale * value) (scale * exact) := by
  obtain ⟨factor, least, most, rfl⟩ := near
  exact ⟨factor, least, most, mul_left_comm scale factor exact⟩

/-- The reciprocals of near numbers are as near. -/
theorem Near.inv (near : Near count value exact) : Near count value⁻¹ exact⁻¹ := by
  obtain ⟨factor, least, most, rfl⟩ := near
  have power := pow_pos leastFactor_pos count
  have positive := power.trans_le least
  refine ⟨factor⁻¹, ?_, ?_, mul_inv factor exact⟩
  · rwa [le_inv_comm₀ power positive, ← one_div, le_div_iff₀ power]
  · rwa [inv_mul_le_one₀ positive]

/-- A product takes the roundings of both factors. -/
theorem Near.mul (near : Near count value exact) (next : Near more other otherExact) :
    Near (count + more) (value * other) (exact * otherExact) := by
  have first := near.mul_left otherExact
  rw [mul_comm otherExact, mul_comm otherExact] at first
  rw [add_comm]
  exact (next.mul_left value).trans first

/-- The roundings of the dividend and of the divisor add up. -/
theorem Near.div (near : Near count value exact) (next : Near more other otherExact) :
    Near (count + more) (value / other) (exact / otherExact) := by
  rw [div_eq_mul_inv, div_eq_mul_inv]
  exact near.mul next.inv

/-- The factor of a sum is the weighted mean of the factors of the two numbers. -/
theorem Near.add_of_nonneg (near : Near count value exact) (next : Near count other otherExact)
    (nonneg : 0 ≤ exact) (otherNonneg : 0 ≤ otherExact) :
    Near count (value + other) (exact + otherExact) := by
  obtain ⟨factor, least, most, rfl⟩ := near
  obtain ⟨otherFactor, otherLeast, otherMost, rfl⟩ := next
  rcases (add_nonneg nonneg otherNonneg).eq_or_lt with none | positive
  · obtain ⟨rfl, rfl⟩ := (add_eq_zero_iff_of_nonneg nonneg otherNonneg).mp none.symm
    simpa using (near_self 0).mono (Nat.zero_le count)
  · refine ⟨(factor * exact + otherFactor * otherExact) / (exact + otherExact), ?_, ?_, ?_⟩
    · rw [le_div_iff₀ positive, mul_add]
      gcongr
    · rw [div_mul_eq_mul_div, div_le_one positive, add_mul, mul_right_comm factor,
        mul_right_comm otherFactor]
      exact add_le_add (mul_le_of_le_one_left nonneg most)
        (mul_le_of_le_one_left otherNonneg otherMost)
    · rw [div_mul_cancel₀ _ positive.ne']

/-- Where two numbers are of one sign nothing is lost in their sum. -/
theorem Near.add (near : Near count value exact) (next : Near count other otherExact)
    (same : 0 ≤ exact * otherExact) : Near count (value + other) (exact + otherExact) := by
  rcases mul_nonneg_iff.mp same with ⟨nonneg, otherNonneg⟩ | ⟨nonpos, otherNonpos⟩
  · exact near.add_of_nonneg next nonneg otherNonneg
  · have opposite := (near.neg.add_of_nonneg next.neg (neg_nonneg.mpr nonpos)
      (neg_nonneg.mpr otherNonpos)).neg
    rwa [← neg_add, ← neg_add, neg_neg, neg_neg] at opposite

/-- Nothing but zero is near zero. -/
theorem Near.ne_zero_iff (near : Near count value exact) : value ≠ 0 ↔ exact ≠ 0 := by
  obtain ⟨factor, least, most, rfl⟩ := near
  have positive := (pow_pos leastFactor_pos count).trans_le least
  rw [mul_ne_zero_iff, and_iff_right positive.ne']

/-- The part that so many roundings take away at most. -/
theorem one_sub_le_leastFactor_pow (count : Nat) : 1 - count / 2 ^ 53 ≤ leastFactor ^ count := by
  have bernoulli := one_add_mul_le_pow (a := (-(1 / 2 ^ 53) : ℚ)) (by norm_num) count
  rw [mul_neg, ← sub_eq_add_neg, ← sub_eq_add_neg, mul_one_div] at bernoulli
  exact bernoulli

/-- A part for each of so few roundings is no more than a half together. -/
theorem part_le_half (few : count ≤ 2 ^ 52) : (count : ℚ) / 2 ^ 53 ≤ 1 / 2 := by
  rw [div_le_div_iff₀ (by positivity) two_pos]
  exact_mod_cast Nat.mul_le_mul_right 2 few

/-- Few roundings together lead no farther than twice as many of them add up to. -/
theorem Near.abs_sub_le (near : Near count value exact) (few : count ≤ 2 ^ 52) :
    |value - exact| ≤ count / 2 ^ 52 * |exact| := by
  obtain ⟨factor, least, most, rfl⟩ := near
  have power := one_sub_le_leastFactor_pow count
  have half := part_le_half few
  have nonneg : (0 : ℚ) ≤ count / 2 ^ 53 := by positivity
  have double : (count : ℚ) / 2 ^ 52 = 2 * (count / 2 ^ 53) := by ring
  rw [double]
  generalize (count : ℚ) / 2 ^ 53 = part at *
  rw [← sub_one_mul, abs_mul]
  gcongr
  have above : factor * (1 - part) ≤ (1 + 2 * part) * (1 - part) := by
    calc
      _ ≤ factor * leastFactor ^ count := by
        gcongr
        exact (pow_pos leastFactor_pos count).le.trans least
      _ ≤ 1 := most
      _ ≤ (1 + 2 * part) * (1 - part) := by nlinarith
  have bound : factor ≤ 1 + 2 * part := le_of_mul_le_mul_right above (by linarith)
  exact abs_le.mpr ⟨by linarith, by linarith⟩

/-- Of near numbers neither is more than twice the other. -/
theorem Near.abs_le_two_mul (near : Near count value exact) (few : count ≤ 2 ^ 52) :
    |value| ≤ 2 * |exact| ∧ |exact| ≤ 2 * |value| := by
  obtain ⟨factor, least, most, rfl⟩ := near
  have half : 1 / 2 ≤ leastFactor ^ count := by
    linarith [one_sub_le_leastFactor_pow count, part_le_half few]
  have positive : 0 < factor := by linarith
  have double : factor ≤ 2 := by nlinarith
  rw [abs_mul, abs_of_pos positive]
  have magnitude := abs_nonneg exact
  constructor <;> nlinarith

/-- An operation that is rounded once is near its exact result. -/
theorem Rounds.near {x : Float} (rounds : Rounds x exact) :
    ∃ value, fraction? x = some value ∧ Near 1 value exact := by
  obtain ⟨value, fraction, error⟩ := rounds
  refine ⟨value, fraction, ?_⟩
  rcases eq_or_ne exact 0 with rfl | some
  · rw [abs_zero, zero_div, sub_zero, abs_nonpos_iff] at error
    rw [error]
    exact (near_self 0).mono (Nat.zero_le 1)
  · have magnitude : 0 < |exact| := abs_pos.mpr some
    have quotient : |value / exact - 1| ≤ 1 / 2 ^ 53 := by
      rw [div_sub_one some, abs_div, div_le_iff₀ magnitude, one_div_mul_eq_div]
      exact error
    obtain ⟨least, most⟩ := abs_le.mp quotient
    refine ⟨value / exact, ?_, ?_, (div_mul_cancel₀ value some).symm⟩
    · rw [pow_one, leastFactor]
      linarith
    · rw [pow_one, leastFactor]
      calc
        _ ≤ (1 + 1 / 2 ^ 53) * (1 - 1 / 2 ^ 53 : ℚ) := by
          apply mul_le_mul_of_nonneg_right (by linarith) (by norm_num)
        _ ≤ 1 := by norm_num

/-- The double is a finite one, near the exact number. -/
def Approximates (x : Float) (count : Nat) (exact : ℚ) : Prop :=
  ∃ value, fraction? x = some value ∧ Near count value exact

/-- Neither the number nor one near it is too large or too small for a double of full length. -/
def IsModerate (exact : ℚ) : Prop :=
  exact ≠ 0 → 2 ^ (-1000 : Int) ≤ |exact| ∧ |exact| ≤ 2 ^ (1000 : Int)

/-- A number is moderate if it and its reciprocal have few places. -/
theorem isModerate_of_le (bits : Nat) (few : bits ≤ 1000)
    (least : exact ≠ 0 → 1 / 2 ^ bits ≤ |exact|) (most : |exact| ≤ 2 ^ bits) :
    IsModerate exact := by
  refine fun some => ⟨le_trans ?_ (least some), most.trans ?_⟩
  · rw [one_div, ← zpow_natCast, ← zpow_neg]
    exact zpow_le_zpow_right₀ one_le_two (by omega)
  · rw [← zpow_natCast]
    exact zpow_le_zpow_right₀ one_le_two (by omega)

theorem two_mul_leastNormal : 2 * leastNormal ≤ 2 ^ (-1000 : Int) := by
  have double : (2 : ℚ) ^ (-1021 : Int) = 2 * leastNormal := zpow_one_add₀ two_ne_zero (-1022)
  rw [← double]
  exact zpow_le_zpow_right₀ one_le_two (by norm_num)

theorem two_mul_lt_overflow : 2 * 2 ^ (1000 : Int) < overflow := by
  have parts : (2 : ℚ) ^ (1000 : Int) = 2 ^ (30 : Int) * 2 ^ (970 : Int) :=
    zpow_add₀ two_ne_zero 30 970
  rw [parts, overflow, ← mul_assoc]
  gcongr
  norm_num

/-- A number near a moderate one has a double with all bits of a mantissa. -/
theorem IsModerate.isNormal (moderate : IsModerate exact) (near : Near count value exact)
    (few : count ≤ 2 ^ 52) : IsNormal value := by
  intro some
  obtain ⟨least, most⟩ := moderate (near.ne_zero_iff.mp some)
  obtain ⟨above, below⟩ := near.abs_le_two_mul few
  have small := two_mul_leastNormal
  have large := two_mul_lt_overflow
  generalize (2 : ℚ) ^ (-1000 : Int) = lower at *
  generalize (2 : ℚ) ^ (1000 : Int) = upper at *
  constructor <;> linarith

variable {x y : Float}

/-- A double approximates its own fraction without any rounding. -/
theorem approximates_of_fraction (fraction : fraction? x = some value) : Approximates x 0 value :=
  ⟨value, fraction, near_self value⟩

/-- An approximation in few roundings is one in more. -/
theorem Approximates.mono (approximates : Approximates x count exact) (le : count ≤ more) :
    Approximates x more exact := by
  obtain ⟨value, fraction, near⟩ := approximates
  exact ⟨value, fraction, near.mono le⟩

/-- A product adds one rounding to those of its factors. -/
theorem Approximates.mul (first : Approximates x count exact)
    (second : Approximates y more otherExact) (moderate : IsModerate (exact * otherExact))
    (few : count + more ≤ 2 ^ 52) :
    Approximates (x * y) (1 + (count + more)) (exact * otherExact) := by
  obtain ⟨value, fraction, near⟩ := first
  obtain ⟨other, otherFraction, otherNear⟩ := second
  have both := near.mul otherNear
  obtain ⟨result, read, rounded⟩ :=
    (rounds_mul fraction otherFraction (moderate.isNormal both few)).near
  exact ⟨result, read, rounded.trans both⟩

/-- A quotient adds one rounding to those of its parts. -/
theorem Approximates.div (first : Approximates x count exact)
    (second : Approximates y more otherExact) (some : otherExact ≠ 0)
    (moderate : IsModerate (exact / otherExact)) (few : count + more ≤ 2 ^ 52) :
    Approximates (x / y) (1 + (count + more)) (exact / otherExact) := by
  obtain ⟨value, fraction, near⟩ := first
  obtain ⟨other, otherFraction, otherNear⟩ := second
  have both := near.div otherNear
  have nonzero := otherNear.ne_zero_iff.mpr some
  obtain ⟨result, read, rounded⟩ :=
    (rounds_div fraction otherFraction nonzero (moderate.isNormal both few)).near
  exact ⟨result, read, rounded.trans both⟩

/-- A sum without cancellation adds one rounding to those of its terms. -/
theorem Approximates.add (first : Approximates x count exact)
    (second : Approximates y count otherExact) (same : 0 ≤ exact * otherExact)
    (bounded : |exact + otherExact| ≤ 2 ^ 100) (few : count ≤ 2 ^ 52) :
    Approximates (x + y) (1 + count) (exact + otherExact) := by
  obtain ⟨value, fraction, near⟩ := first
  obtain ⟨other, otherFraction, otherNear⟩ := second
  have both := near.add otherNear same
  have finite : |value + other| < overflow := by
    have double := (both.abs_le_two_mul few).1
    have large : (2 : ℚ) ^ 100 ≤ 2 ^ (1000 : Int) := by
      rw [← zpow_natCast]
      exact zpow_le_zpow_right₀ one_le_two (by norm_num)
    calc
      _ ≤ 2 * 2 ^ (1000 : Int) := double.trans (by gcongr; exact bounded.trans large)
      _ < _ := two_mul_lt_overflow
  obtain ⟨result, read, rounded⟩ := (rounds_add fraction otherFraction finite).near
  exact ⟨result, read, rounded.trans both⟩

/-- The tolerance of the series lies between two powers of two. -/
theorem exists_tolerance :
    ∃ value, fraction? (1e-15 : Float) = some value ∧ 1 / 2 ^ 50 ≤ value ∧ value ≤ 1 / 2 ^ 49 :=
  ⟨5070602400912918 / 2 ^ 102, by decide +kernel, by norm_num, by norm_num⟩

/-- A double above the tolerance approximates a number that is not much smaller. -/
theorem le_abs_of_tolerance_lt (approximates : Approximates x count exact) (few : count ≤ 2 ^ 52)
    (above : ¬Scalar.magnitude x ≤ 1e-15) : 1 / 2 ^ 51 ≤ |exact| := by
  obtain ⟨value, fraction, near⟩ := approximates
  obtain ⟨tolerance, read, least, _⟩ := exists_tolerance
  rw [le_iff (fraction_magnitude fraction) read, not_le] at above
  linarith [(near.abs_le_two_mul few).1]

/-- A double within the tolerance approximates a number that is not much larger. -/
theorem abs_le_of_le_tolerance (approximates : Approximates x count exact) (few : count ≤ 2 ^ 52)
    (within : Scalar.magnitude x ≤ 1e-15) : |exact| ≤ 1 / 2 ^ 48 := by
  obtain ⟨value, fraction, near⟩ := approximates
  obtain ⟨tolerance, read, _, most⟩ := exists_tolerance
  rw [le_iff (fraction_magnitude fraction) read] at within
  linarith [(near.abs_le_two_mul few).2]

end Reckoner.Binary64
