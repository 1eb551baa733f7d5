/-
This file follows the guesses for the root of a fraction. From the second one on they stay above
the root and fall towards it, and the square of each exceeds the number by the square of the step
to it.
-/

import Mathlib
import Reckoner.Approximation.SquareRoot
import Reckoner.Proofs.Iteration
import Reckoner.Scalar.Rational

namespace Reckoner.SquareRoot

variable {x guess : ℚ}

/-- The next guess is the mean of the guess and the quotient by it. -/
theorem improve_eq (x guess : ℚ) : improve x guess = (guess + x / guess) / 2 := rfl

/-- A positive guess is followed by a positive one. -/
theorem improve_pos (positive : 0 < x) (guessPos : 0 < guess) : 0 < improve x guess := by
  rw [improve_eq]
  positivity

/-- The square of the next guess exceeds the number by the square of the step to it. -/
theorem improve_mul_improve_sub (guessPos : 0 < guess) :
    improve x guess * improve x guess - x =
      (guess - improve x guess) * (guess - improve x guess) := by
  rw [improve_eq]
  field_simp
  ring

/-- The guess is no less than the root of a positive number, which is said of its square. -/
structure IsAbove (x guess : ℚ) : Prop where
  number : 0 < x
  positive : 0 < guess
  square : x ≤ guess * guess

/-- Every guess but the first is no less than the root. -/
theorem isAbove_improve (positive : 0 < x) (guessPos : 0 < guess) :
    IsAbove x (improve x guess) := by
  refine ⟨positive, improve_pos positive guessPos, sub_nonneg.mp ?_⟩
  rw [improve_mul_improve_sub guessPos]
  exact mul_self_nonneg _

theorem IsAbove.next (above : IsAbove x guess) : IsAbove x (improve x guess) :=
  isAbove_improve above.number above.positive

/-- A guess that is no less than the root is not followed by a larger one. -/
theorem IsAbove.improve_le (above : IsAbove x guess) : improve x guess ≤ guess := by
  have quotient : x / guess ≤ guess := (div_le_iff₀ above.positive).mpr above.square
  rw [improve_eq]
  linarith

/-- The run through the guesses. -/
def exactRun (series : Series ℚ) (x : ℚ) : Run ℚ :=
  .untilClose (fun guess next => Scalar.magnitude (guess - next) < series.tolerance)
    (fun _ guess => improve x guess) series.limit 0 x

/-- The root of a positive fraction is where its run ends. -/
theorem approximate_eq (series : Series ℚ) (positive : 0 < x) :
    approximate series x =
      .ok ⟨(exactRun series x).state, (exactRun series x).notices .squareRoot x series.limit⟩ := by
  have nonneg : ¬x < 0 := positive.not_gt
  have started : ¬(decide (x ≤ 0) || !Scalar.isFinite x) = true := by
    rw [decide_eq_false positive.not_ge]
    exact Bool.false_ne_true
  exact (if_neg nonneg).trans (if_neg started)

/-- The run has improved a positive guess, and has converged if that was a short step. -/
theorem exists_exactRun (positive : 0 < x) (tolerance : ℚ) {limit : Nat} (some : 0 < limit) :
    ∃ guess, 0 < guess ∧ exactRun ⟨tolerance, limit⟩ x =
      ⟨improve x guess, decide (|guess - improve x guess| < tolerance)⟩ := by
  obtain ⟨limit, rfl⟩ := Nat.exists_eq_succ_of_ne_zero some.ne'
  have kept (index : Nat) (guess : ℚ) (_ : index < limit + 1) (guessPos : 0 < guess)
      (_ : decide (Scalar.magnitude (guess - improve x guess) < tolerance) = false) :=
    improve_pos positive guessPos
  obtain ⟨_, guess, _, guessPos, same, _⟩ :=
    Run.exists_untilClose (fun guess next => Scalar.magnitude (guess - next) < tolerance) kept
      (Nat.zero_add _) positive
  refine ⟨guess, guessPos, same.trans ?_⟩
  rw [Scalar.magnitude_eq_abs]

/-- With a higher limit the run does not end at a larger guess. -/
theorem exactRun_state_anti (positive : 0 < x) (tolerance : ℚ) {limit more : Nat}
    (some : 0 < limit) (le : limit ≤ more) :
    (exactRun ⟨tolerance, more⟩ x).state ≤ (exactRun ⟨tolerance, limit⟩ x).state := by
  obtain ⟨extra, rfl⟩ := Nat.exists_eq_add_of_le le
  obtain ⟨guess, guessPos, same⟩ := exists_exactRun positive tolerance some
  have above : IsAbove x (exactRun ⟨tolerance, limit⟩ x).state := by
    rw [same]
    exact isAbove_improve positive guessPos
  unfold exactRun at above ⊢
  rw [Run.untilClose_add]
  split
  · rfl
  · exact (Run.holds_untilClose
      (fun _ guess (held : IsAbove x guess ∧ guess ≤ _) =>
        ⟨held.1.next, held.1.improve_le.trans held.2⟩)
      extra (0 + limit) ⟨above, le_rfl⟩).2

/-- The root of a positive fraction is positive and its square no less than the fraction. Where
the limit was not reached the excess is below the square of the tolerance, and a higher limit does
not make the root larger. -/
theorem approximate_from_above (positive : 0 < x) (tolerance : ℚ) {limit : Nat}
    (some : 0 < limit) :
    ∃ root, approximate ⟨tolerance, limit⟩ x = .ok root ∧ 0 < root.value ∧
      x ≤ root.value * root.value ∧
      (root.notices = [] → root.value * root.value - x < tolerance * tolerance) ∧
      ∀ more, limit ≤ more →
        ∃ later, approximate ⟨tolerance, more⟩ x = .ok later ∧ later.value ≤ root.value := by
  obtain ⟨guess, guessPos, same⟩ := exists_exactRun positive tolerance some
  have above := isAbove_improve positive guessPos
  refine ⟨_, approximate_eq _ positive, ?_, ?_, fun converged => ?_, fun more le => ?_⟩
  · rw [same]
    exact above.positive
  · rw [same]
    exact above.square
  · rw [Run.notices_eq_nil_iff, same, decide_eq_true_iff] at converged
    rw [same, improve_mul_improve_sub guessPos, ← abs_mul_abs_self]
    exact mul_self_lt_mul_self (abs_nonneg _) converged
  · exact ⟨_, approximate_eq _ positive, exactRun_state_anti positive tolerance some le⟩

/-- The third guess for the root of two is near enough. -/
theorem approximate_from_above_two :
    (0 : ℚ) < 2 ∧ 0 < 3 ∧ approximate ⟨1 / 100, 3⟩ (2 : ℚ) = .ok ⟨577 / 408, []⟩ ∧
      (2 : ℚ) ≤ 577 / 408 * (577 / 408) ∧
      (577 / 408 * (577 / 408) - 2 : ℚ) < 1 / 100 * (1 / 100) ∧
      ∀ more, 3 ≤ more → ∃ later, approximate ⟨1 / 100, more⟩ (2 : ℚ) = .ok later ∧
        later.value ≤ 577 / 408 := by
  have positive : (0 : ℚ) < 2 := two_pos
  have some : 0 < 3 := three_pos
  have converged : approximate ⟨1 / 100, 3⟩ (2 : ℚ) = .ok ⟨577 / 408, []⟩ := by
    rw [approximate_eq _ positive]
    norm_num [exactRun, Run.untilClose, improve_eq, Run.notices]
  obtain ⟨root, defined, _, square, excess, falls⟩ :=
    approximate_from_above positive (1 / 100) some
  obtain rfl := Except.ok.inj (defined.symm.trans converged)
  exact ⟨positive, some, converged, square, excess rfl, falls⟩

end Reckoner.SquareRoot
