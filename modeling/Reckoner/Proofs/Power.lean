/-
This file says which powers of negative numbers there are, and that they are those of the opposite
numbers with the sign that the exponent gives them. What is left of the exponent after all twos
tells whether it is whole, and whether it is odd.
-/

import Reckoner.Approximation.Power
import Reckoner.Proofs.Negation
import Reckoner.Proofs.Remainder

namespace Reckoner

/-- No number at all that is not at most zero is refused, be it finite or not. -/
theorem Logarithm.exists_approximate_of_not_le {α : Type} [Scalar α] (series : Series α) {x : α}
    (positive : ¬x ≤ 0) : ∃ logarithm, approximate series x = .ok logarithm := by
  unfold approximate
  rw [if_neg positive]
  split
  · exact ⟨_, rfl⟩
  · exact ⟨_, rfl⟩

namespace Power

open Binary64

variable {base exponent : Float}

/-- The tests that a finite exponent is put to are tests of the exact number that is left of it. -/
theorem exists_rest {value : ℚ} (fraction : fraction? exponent = some value) :
    ∃ (turns : ℤ) (rest : ℚ), value = turns * 2 + rest ∧ -2 < rest ∧ rest < 2 ∧
      ((exponent % 2.0 == 0.0) = true ↔ rest = 0) ∧
      (isOdd exponent = true ↔ rest = 1 ∨ rest = -1) := by
  have two : fraction? 2.0 = some 2 := by decide +kernel
  obtain ⟨turns, rest, small, -⟩ := fraction_remainder fraction two two_ne_zero
  rw [abs_of_pos (two_pos (α := ℚ)), abs_lt] at small
  refine ⟨turns, value - turns * 2, by ring, small.1, small.2, beq_iff rest fraction_zero, ?_⟩
  rw [← abs_eq zero_le_one]
  exact beq_iff (fraction_magnitude rest) fraction_one

/-- Of a whole number there is nothing left, or one with either sign. -/
theorem tests_of_whole {whole : ℤ} (fraction : fraction? exponent = some (whole : ℚ)) :
    ((exponent % 2.0 == 0.0) = true ↔ Even whole) ∧ (isOdd exponent = true ↔ Odd whole) := by
  obtain ⟨turns, rest, value, least, most, even, odd⟩ := exists_rest fraction
  obtain rfl : rest = (whole - turns * 2 : ℤ) := by
    push_cast
    linarith
  rw [even, odd]
  norm_cast at least most ⊢
  rw [Int.even_iff, Int.odd_iff]
  omega

/-- Neither an infinite exponent nor no number at all passes a test. -/
theorem tests_of_not_finite (broken : fraction? exponent = none) :
    isOdd exponent = false ∧ isWhole exponent = false := by
  rw [isWhole, isOdd, remainder_of_not_finite broken]
  decide

/-- An exponent passes the test for whole numbers exactly if it is finite and its fraction is whole.
-/
theorem isWhole_iff :
    isWhole exponent = true ↔ ∃ whole : ℤ, fraction? exponent = some (whole : ℚ) := by
  cases fraction : fraction? exponent with
  | none => simp [tests_of_not_finite fraction]
  | some value =>
      rw [isWhole, Bool.or_eq_true]
      constructor
      · obtain ⟨turns, rest, same, -, -, even, odd⟩ := exists_rest fraction
        rw [even, odd, same]
        rintro (rfl | rfl | rfl)
        · exact ⟨turns * 2, by push_cast; rw [add_zero]⟩
        · exact ⟨turns * 2 + 1, by push_cast; rfl⟩
        · exact ⟨turns * 2 - 1, by push_cast; rw [sub_eq_add_neg]⟩
      · rintro ⟨whole, same⟩
        obtain ⟨even, odd⟩ := tests_of_whole (fraction.trans same)
        rw [even, odd]
        exact Int.even_or_odd whole

/-- The test for an odd exponent has no exception either, however large the exponent is. -/
theorem isOdd_iff :
    isOdd exponent = true ↔ ∃ whole : ℤ, Odd whole ∧ fraction? exponent = some (whole : ℚ) := by
  constructor
  · intro odd
    obtain ⟨whole, fraction⟩ := isWhole_iff.mp (by rw [isWhole, odd, Bool.or_true])
    exact ⟨whole, (tests_of_whole fraction).2.mp odd, fraction⟩
  · rintro ⟨whole, odd, fraction⟩
    exact (tests_of_whole fraction).2.mpr odd

theorem magnitude_eq (base : Float) :
    Scalar.magnitude base = if base < 0.0 then -base else base := rfl

/-- The magnitude of what is not zero is not at most zero, also where it is no number. -/
theorem not_magnitude_le_zero (other : ¬(base == 0.0) = true) :
    ¬Scalar.magnitude base ≤ (0.0 : Float) := by
  rw [le_zero_iff, magnitude_eq]
  rw [beq_zero_iff] at other
  split
  · next negative =>
      rw [side_neg, lt_zero_iff.mp negative]
      simp
  · next notNegative =>
      rw [lt_zero_iff] at notNegative
      exact not_or.mpr ⟨notNegative, other⟩

/-- The magnitude is that of the power of the magnitude, and the sign is kept if the exponent is
odd. -/
theorem approximate_eq (other : ¬(base == 0.0) = true) (some : ¬(exponent == 0.0) = true)
    (allowed : ¬(decide (base < 0.0) && !isWhole exponent) = true)
    {logarithm : Approximation Float}
    (defined : Logarithm.approximate Logarithm.standard (Scalar.magnitude base) = .ok logarithm) :
    approximate base exponent =
      let magnitude := Exponential.approximate Exponential.standard (exponent * logarithm.value)
      .ok ⟨if decide (base < 0.0) && isOdd exponent then -magnitude.value else magnitude.value,
        logarithm.notices ++ magnitude.notices⟩ := by
  unfold approximate
  rw [if_neg other, if_neg some, if_neg allowed, defined]
  rfl

/-- A zero of either sign passes the test for whole numbers. -/
theorem isWhole_of_beq_zero (zero : (exponent == 0.0) = true) : isWhole exponent = true :=
  isWhole_iff.mpr ⟨0, by rw [fraction_of_beq_zero zero, Int.cast_zero]⟩

/-- There is one reason for which a power is refused, and the logarithm gives none. -/
theorem approximate_cases (base exponent : Float) :
    (base < 0.0 ∧ ¬isWhole exponent = true ∧
        approximate base exponent = .error .fractionalPowerOfNegative) ∨
      ¬(base < 0.0 ∧ ¬isWhole exponent = true) ∧
        ∃ result, approximate base exponent = .ok result := by
  by_cases zero : (base == 0.0) = true
  · refine .inr ⟨fun both => ?_, _, if_pos zero⟩
    have below := lt_zero_iff.mp both.1
    rw [beq_zero_iff.mp zero] at below
    contradiction
  by_cases none : (exponent == 0.0) = true
  · exact .inr ⟨fun both => both.2 (isWhole_of_beq_zero none), _,
      (if_neg zero).trans (if_pos none)⟩
  by_cases refused : (decide (base < 0.0) && !isWhole exponent) = true
  · have both : base < 0.0 ∧ ¬isWhole exponent = true := by simpa using refused
    exact .inl ⟨both.1, both.2, (if_neg zero).trans ((if_neg none).trans (if_pos refused))⟩
  · obtain ⟨logarithm, defined⟩ :=
      Logarithm.exists_approximate_of_not_le Logarithm.standard (not_magnitude_le_zero zero)
    exact .inr ⟨fun both => refused (by simpa using both),
      _, approximate_eq zero none refused defined⟩

/-- A number above zero and its opposite differ in the test for the sign only. -/
theorem approximate_neg (positive : 0.0 < base) {whole : ℤ}
    (fraction : fraction? exponent = some (whole : ℚ)) :
    ∃ result, approximate base exponent = .ok result ∧
      approximate (-base) exponent =
        .ok ⟨if Even whole then result.value else -result.value, result.notices⟩ := by
  have above := zero_lt_iff.mp positive
  have below : side? (-base) = some .lt := by
    rw [side_neg, above]
    rfl
  have notNegative : ¬base < 0.0 := by simp [lt_zero_iff, above]
  have negative : -base < 0.0 := lt_zero_iff.mpr below
  have notZero : ¬(base == 0.0) = true := by simp [beq_zero_iff, above]
  have oppositeNotZero : ¬(-base == 0.0) = true := by simp [beq_zero_iff, below]
  by_cases none : (exponent == 0.0) = true
  · have even : Even whole := by
      have value := fraction.symm.trans (fraction_of_beq_zero none)
      obtain rfl : whole = 0 := by exact_mod_cast Option.some.inj value
      exact Even.zero
    refine ⟨_, (if_neg notZero).trans (if_pos none), ?_⟩
    rw [if_pos even]
    exact (if_neg oppositeNotZero).trans (if_pos none)
  · have odd : isOdd exponent = true ↔ ¬Even whole :=
      (tests_of_whole fraction).2.trans Int.not_even_iff_odd.symm
    have passes : isWhole exponent = true := isWhole_iff.mpr ⟨whole, fraction⟩
    have allowed (number : Float) :
        ¬(decide (number < 0.0) && !isWhole exponent) = true := by simp [passes]
    obtain ⟨logarithm, defined⟩ :=
      Logarithm.exists_approximate_of_not_le Logarithm.standard (not_magnitude_le_zero notZero)
    -- Both powers take the logarithm of one double.
    have sameMagnitude : Scalar.magnitude (-base) = Scalar.magnitude base := by
      rw [magnitude_eq, magnitude_eq, if_pos negative, if_neg notNegative, neg_neg_eq]
    refine ⟨_, approximate_eq notZero none (allowed base) defined, ?_⟩
    rw [← sameMagnitude] at defined
    rw [approximate_eq oppositeNotZero none (allowed (-base)) defined]
    by_cases even : Even whole <;> simp [odd, even, notNegative, negative]

/-- A power is refused exactly if the base is below zero and the exponent is not whole, for which
it is named itself. The power of an opposite number is the same or the opposite, bit for bit and
with the same notices, as the exponent is even or odd. -/
theorem approximate_refused_iff_and_neg (base exponent : Float) :
    ((∃ error, approximate base exponent = .error error) ↔
      base < 0.0 ∧ ¬∃ whole : ℤ, fraction? exponent = some (whole : ℚ)) ∧
    (∀ error, approximate base exponent = .error error →
      error = .fractionalPowerOfNegative ∧ error.functionName = "pow") ∧
    ∀ whole : ℤ, 0.0 < base → fraction? exponent = some (whole : ℚ) →
      ∃ result, approximate base exponent = .ok result ∧
        (Even whole → approximate (-base) exponent = .ok result) ∧
        (Odd whole → approximate (-base) exponent = .ok ⟨-result.value, result.notices⟩) := by
  rw [← isWhole_iff]
  refine ⟨?_, fun error refused => ?_, fun whole positive fraction => ?_⟩
  · rcases approximate_cases base exponent with ⟨negative, fractional, refused⟩ |
      ⟨allowed, result, defined⟩
    · exact iff_of_true ⟨_, refused⟩ ⟨negative, fractional⟩
    · exact iff_of_false (fun ⟨_, refused⟩ => nomatch defined.symm.trans refused) allowed
  · rcases approximate_cases base exponent with ⟨_, _, same⟩ | ⟨_, result, defined⟩
    · obtain rfl := Except.error.inj (refused.symm.trans same)
      exact ⟨rfl, rfl⟩
    · exact nomatch defined.symm.trans refused
  · obtain ⟨result, defined, opposite⟩ := approximate_neg positive fraction
    refine ⟨result, defined, fun even => ?_, fun odd => ?_⟩
    · rwa [if_pos even] at opposite
    · rwa [if_neg (Int.not_even_iff_odd.mpr odd)] at opposite

/-- The odd exponent is the largest there is, and the even one is too large for a machine word. -/
theorem approximate_refused_iff_and_neg_three :
    (0.0 : Float) < 3.0 ∧
      (fraction? 9007199254740991.0 = some ((9007199254740991 : ℤ) : ℚ) ∧
        Odd (9007199254740991 : ℤ) ∧
        ∃ result, approximate 3.0 9007199254740991.0 = .ok result ∧
          approximate (-3.0) 9007199254740991.0 = .ok ⟨-result.value, result.notices⟩) ∧
      (fraction? 18446744073709551616.0 = some ((18446744073709551616 : ℤ) : ℚ) ∧
        Even (18446744073709551616 : ℤ) ∧
        ∃ result, approximate 3.0 18446744073709551616.0 = .ok result ∧
          approximate (-3.0) 18446744073709551616.0 = .ok result) ∧
      ∃ error, approximate (-3.0) infinity = .error error ∧ error.functionName = "pow" := by
  have positive : (0.0 : Float) < 3.0 := by decide +kernel
  have oddFraction : fraction? 9007199254740991.0 = some ((9007199254740991 : ℤ) : ℚ) := by
    decide +kernel
  have evenFraction : fraction? 18446744073709551616.0 = some ((18446744073709551616 : ℤ) : ℚ) := by
    decide +kernel
  have odd : Odd (9007199254740991 : ℤ) := by decide
  have even : Even (18446744073709551616 : ℤ) := by decide
  obtain ⟨_, _, odds⟩ := approximate_refused_iff_and_neg 3.0 9007199254740991.0
  obtain ⟨_, _, evens⟩ := approximate_refused_iff_and_neg 3.0 18446744073709551616.0
  obtain ⟨refusedIff, named, _⟩ := approximate_refused_iff_and_neg (-3.0) infinity
  obtain ⟨oddResult, oddDefined, _, oddOpposite⟩ := odds _ positive oddFraction
  obtain ⟨evenResult, evenDefined, evenOpposite, _⟩ := evens _ positive evenFraction
  have unbounded : fraction? infinity = none := rfl
  obtain ⟨error, refused⟩ := refusedIff.mpr ⟨by decide +kernel, by simp [unbounded]⟩
  exact ⟨positive, ⟨oddFraction, odd, oddResult, oddDefined, oddOpposite odd⟩,
    ⟨evenFraction, even, evenResult, evenDefined, evenOpposite even⟩,
    error, refused, (named error refused).2⟩

end Power

end Reckoner
