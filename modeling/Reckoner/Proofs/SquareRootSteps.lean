/-
This file counts the guesses that a square root takes. A guess that is far above the root is
halved at each step, and one that is near it has its distance squared.
-/

import Mathlib
import Reckoner.Proofs.Cutoff
import Reckoner.Proofs.SquareRoot

namespace Reckoner.SquareRoot

section Falls

variable {x guess root : ℚ}

/-- What the next guess takes off this one. -/
def fall (x guess : ℚ) : ℚ := guess - improve x guess

/-- A guess that is no less than the root does not rise. -/
theorem IsAbove.fall_nonneg (above : IsAbove x guess) : 0 ≤ fall x guess :=
  sub_nonneg.mpr above.improve_le

/-- No step takes more than half of a guess. -/
theorem fall_le_half (positive : 0 < x) (guessPos : 0 < guess) : fall x guess ≤ guess / 2 := by
  have quotient : 0 < x / guess := div_pos positive guessPos
  rw [fall, improve_eq]
  linarith

/-- The fall is a half of what the square exceeds the number by, divided by the guess. -/
theorem two_mul_guess_mul_fall (guessPos : 0 < guess) :
    2 * guess * fall x guess = guess * guess - x := by
  rw [fall, improve_eq]
  field_simp
  ring

/-- The next fall is half the square of this one, divided by the next guess. -/
theorem two_mul_improve_mul_fall (positive : 0 < x) (guessPos : 0 < guess) :
    2 * improve x guess * fall x (improve x guess) = fall x guess * fall x guess := by
  rw [two_mul_guess_mul_fall (improve_pos positive guessPos), improve_mul_improve_sub guessPos]
  rfl

/-- Each fall is a half of the one before, or less. -/
theorem IsAbove.fall_improve_le (above : IsAbove x guess) :
    fall x (improve x guess) ≤ fall x guess / 2 := by
  have product := two_mul_improve_mul_fall above.number above.positive
  have less : fall x guess ≤ improve x guess := by
    have half := fall_le_half above.number above.positive
    have same : improve x guess = guess - fall x guess := (sub_sub_cancel _ _).symm
    linarith
  refine le_of_mul_le_mul_left ?_ (mul_pos two_pos above.next.positive)
  calc
    _ = fall x guess * fall x guess := product
    _ ≤ improve x guess * fall x guess := by
      gcongr
      exact above.fall_nonneg
    _ = _ := by ring

/-- Each fall is no more than the square of the one before, in units of twice the root. -/
theorem IsAbove.fall_improve_le_square (above : IsAbove x guess) (rootPos : 0 < root)
    (least : root * root ≤ x) :
    fall x (improve x guess) / (2 * root) ≤ (fall x guess / (2 * root)) ^ 2 := by
  have bound : root ≤ improve x guess :=
    (mul_self_le_mul_self_iff rootPos.le above.next.positive.le).mpr
      (least.trans above.next.square)
  have product := two_mul_improve_mul_fall above.number above.positive
  rw [div_pow, div_le_div_iff₀ (by positivity) (by positivity)]
  calc
    _ = 2 * root * fall x (improve x guess) * (2 * root) := by ring
    _ ≤ 2 * improve x guess * fall x (improve x guess) * (2 * root) := by
      gcongr
      exact above.next.fall_nonneg
    _ = _ := by rw [product]; ring

/-- No guess comes below the root again. -/
theorem IsAbove.iterate (above : IsAbove x guess) (count : Nat) :
    IsAbove x ((improve x)^[count] guess) := by
  induction count with
  | zero => exact above
  | succ count ih =>
      rw [Function.iterate_succ_apply']
      exact ih.next

/-- So many steps halve the fall so many times. -/
theorem IsAbove.fall_iterate_le (above : IsAbove x guess) (count : Nat) :
    fall x ((improve x)^[count] guess) ≤ fall x guess / 2 ^ count := by
  induction count with
  | zero => simp
  | succ count ih =>
      rw [Function.iterate_succ_apply', pow_succ, ← div_div]
      have step := (above.iterate count).fall_improve_le
      linarith

/-- From a fall within the root on, the number of places that a guess is right in doubles. -/
theorem IsAbove.fall_iterate_le_square (above : IsAbove x guess) (rootPos : 0 < root)
    (least : root * root ≤ x) (near : fall x guess ≤ root) (count : Nat) :
    fall x ((improve x)^[count] guess) / (2 * root) ≤ (1 / 2) ^ 2 ^ count := by
  induction count with
  | zero =>
      rw [Function.iterate_zero, id_eq, pow_zero, pow_one, div_le_div_iff₀ (by positivity) two_pos]
      linarith
  | succ count ih =>
      have held := above.iterate count
      have nonneg := div_nonneg held.fall_nonneg (mul_pos two_pos rootPos).le
      rw [Function.iterate_succ_apply', pow_succ, pow_mul]
      exact (held.fall_improve_le_square rootPos least).trans (pow_le_pow_left₀ nonneg ih 2)

theorem le_standard_tolerance : 1 / 2 ^ 34 ≤ (standard : Series ℚ).tolerance := by
  decide +kernel

/-- The root of a number below one takes no more steps than the tolerance has places. -/
theorem fall_lt_tolerance_of_lt_one (positive : 0 < x) (less : x < 1) :
    |fall x ((improve x)^[34] x)| < (standard : Series ℚ).tolerance := by
  have above := isAbove_improve positive positive
  have guessLess : improve x x < 1 := by
    rw [improve_eq, div_self positive.ne']
    linarith
  have start : fall x (improve x x) < 1 / 2 :=
    (fall_le_half positive above.positive).trans_lt (by linarith)
  rw [Function.iterate_succ_apply, abs_of_nonneg (above.iterate 33).fall_nonneg]
  calc
    _ ≤ fall x (improve x x) / 2 ^ 33 := above.fall_iterate_le 33
    _ < 1 / 2 / 2 ^ 33 := by gcongr
    _ = 1 / 2 ^ 34 := by norm_num
    _ ≤ _ := le_standard_tolerance

theorem four_pow (places : Nat) : (4 : ℚ) ^ places = 2 ^ places * 2 ^ places := by
  rw [← mul_pow]
  norm_num

/-- A number below all that are too large has less than 512 pairs of binary places. -/
theorem places_lt_of_four_pow_lt {places : Nat} (less : (4 : ℚ) ^ places < 2 ^ 1024) :
    places < 512 := by
  have square : (4 : ℚ) = 2 ^ 2 := by norm_num
  rw [square, ← pow_mul] at less
  have exponents := (pow_lt_pow_iff_right₀ one_lt_two).mp less
  omega

/-- The halvings lead from the number to a fall within a power of two that is below the root. -/
theorem IsAbove.fall_iterate_le_two_pow (above : IsAbove x x) {places : Nat}
    (upper : x < 4 ^ (places + 1)) : fall x ((improve x)^[places + 1] x) ≤ 2 ^ places := by
  calc
    _ ≤ fall x x / 2 ^ (places + 1) := above.fall_iterate_le (places + 1)
    _ ≤ x / 2 / 2 ^ (places + 1) := by
      gcongr
      exact fall_le_half above.positive above.positive
    _ ≤ 4 ^ (places + 1) / 2 / 2 ^ (places + 1) := by gcongr
    _ = 2 ^ places := by
      rw [four_pow, pow_succ]
      field_simp

/-- Ten squarings lead on from there. -/
theorem IsAbove.fall_iterate_ten_lt (above : IsAbove x guess) {places : Nat}
    (lower : 4 ^ places ≤ x) (few : places < 512) (near : fall x guess ≤ 2 ^ places) :
    fall x ((improve x)^[10] guess) < 1 / 2 ^ 34 := by
  have square := above.fall_iterate_le_square (by positivity)
    ((four_pow places).symm.trans_le lower) near 10
  calc
    _ ≤ (1 / 2) ^ 2 ^ 10 * (2 * 2 ^ places) := (div_le_iff₀ (by positivity)).mp square
    _ = 2 ^ (places + 1) / 2 ^ 2 ^ 10 := by rw [one_div_pow, one_div_mul_eq_div, ← pow_succ']
    _ < 1 / 2 ^ 34 := by
      rw [div_lt_div_iff₀ (by positivity) (by positivity), one_mul, ← pow_add]
      exact pow_lt_pow_right₀ one_lt_two (by omega)

/-- The root of a larger number takes a step for every two binary places, and ten more. -/
theorem exists_fall_lt_tolerance_of_one_le (least : 1 ≤ x) (less : x < 2 ^ 1024) :
    ∃ count < 523, |fall x ((improve x)^[count] x)| < (standard : Series ℚ).tolerance := by
  obtain ⟨places, lower, upper⟩ := exists_nat_pow_near least (by norm_num : (1 : ℚ) < 4)
  have positive : 0 < x := by linarith
  have above : IsAbove x x := ⟨positive, positive, le_mul_of_one_le_left positive.le least⟩
  have few := places_lt_of_four_pow_lt (lower.trans_lt less)
  have halved := above.iterate (places + 1)
  have ends := halved.fall_iterate_ten_lt lower few (above.fall_iterate_le_two_pow upper)
  refine ⟨10 + (places + 1), by omega, ?_⟩
  rw [Function.iterate_add_apply, abs_of_nonneg (halved.iterate 10).fall_nonneg]
  exact ends.trans_le le_standard_tolerance

/-- The fall comes below the tolerance within 523 steps, wherever the root lies. -/
theorem exists_fall_lt_tolerance (positive : 0 < x) (less : x < 2 ^ 1024) :
    ∃ count < 523, |fall x ((improve x)^[count] x)| < (standard : Series ℚ).tolerance := by
  rcases lt_or_ge x 1 with small | large
  · exact ⟨34, by norm_num, fall_lt_tolerance_of_lt_one positive small⟩
  · exact exists_fall_lt_tolerance_of_one_le large less

end Falls

variable {x : ℚ}

/-- The guesses are the iterates of a step from the number itself. -/
theorem guess_eq_iterate (x : ℚ) (count : Nat) : guess x count = (improve x)^[count] x := by
  induction count with
  | zero => rfl
  | succ count ih => rw [Function.iterate_succ_apply', ← ih, improve_guess]

/-- The test of the loop is passed by a guess with a number below 523, and the first such guess ends
the loop. -/
theorem exists_isEnd_standard (positive : 0 < x) (less : x < 2 ^ 1024) :
    ∃ count < 523, Run.IsEnd (fun round =>
      Scalar.magnitude (guess x round - guess x (round + 1)) < (standard : Series ℚ).tolerance)
      523 count := by
  obtain ⟨round, early, near⟩ := exists_fall_lt_tolerance positive less
  obtain ⟨count, isEnd⟩ := Run.exists_isEnd (fun round =>
    Scalar.magnitude (guess x round - guess x (round + 1)) < (standard : Series ℚ).tolerance) 523
  refine ⟨count, lt_of_not_ge fun late => ?_, isEnd⟩
  refine isEnd.earlier round (early.trans_le late) ?_
  rw [← improve_guess, guess_eq_iterate, Scalar.magnitude_eq_abs]
  exact near

/-- The loop for the root of a positive number that is below all too large for a double is left by
the tolerance, and within 523 rounds. It returns the guess that is near enough to the one before it,
as no guess was earlier, and a higher limit leaves it at that. -/
theorem approximate_standard_converges (positive : 0 < x) (less : x < 2 ^ 1024) :
    ∃ count < 523,
      |guess x count - guess x (count + 1)| < (standard : Series ℚ).tolerance ∧
      (∀ earlier < count,
        (standard : Series ℚ).tolerance ≤ |guess x earlier - guess x (earlier + 1)|) ∧
      approximate standard x = .ok ⟨guess x (count + 1), []⟩ ∧
      ∀ limit, 523 ≤ limit →
        approximate ⟨(standard : Series ℚ).tolerance, limit⟩ x =
          .ok ⟨guess x (count + 1), []⟩ := by
  obtain ⟨count, early, isEnd⟩ := exists_isEnd_standard positive less
  have any (limit : Nat) (enough : 523 ≤ limit) :
      approximate ⟨(standard : Series ℚ).tolerance, limit⟩ x =
        .ok ⟨guess x (count + 1), []⟩ := by
    rw [approximate_of_isEnd positive.not_gt positive.not_ge rfl (isEnd.of_lt early enough),
      if_pos (early.trans_le enough)]
    rfl
  refine ⟨count, early, ?_, fun earlier before => ?_, any 1000 (by norm_num), any⟩
  · rw [← Scalar.magnitude_eq_abs]
    exact isEnd.passed early
  · rw [← Scalar.magnitude_eq_abs]
    exact not_lt.mp (isEnd.earlier earlier before)

/-- The least and the largest power of two that are doubles. -/
theorem approximate_standard_converges_extremes :
    ((0 : ℚ) < 1 / 2 ^ 1074 ∧ (1 / 2 ^ 1074 : ℚ) < 2 ^ 1024 ∧
      ∃ count < 523, |guess (1 / 2 ^ 1074 : ℚ) count - guess (1 / 2 ^ 1074) (count + 1)| <
          (standard : Series ℚ).tolerance ∧
        approximate standard (1 / 2 ^ 1074 : ℚ) = .ok ⟨guess (1 / 2 ^ 1074) (count + 1), []⟩) ∧
    (0 : ℚ) < 2 ^ 1023 ∧ (2 ^ 1023 : ℚ) < 2 ^ 1024 ∧
      ∃ count < 523, |guess (2 ^ 1023 : ℚ) count - guess (2 ^ 1023) (count + 1)| <
          (standard : Series ℚ).tolerance ∧
        approximate standard (2 ^ 1023 : ℚ) = .ok ⟨guess (2 ^ 1023) (count + 1), []⟩ := by
  have leastPos : (0 : ℚ) < 1 / 2 ^ 1074 := by positivity
  have leastLess : (1 / 2 ^ 1074 : ℚ) < 2 ^ 1024 := by
    rw [div_lt_iff₀ (by positivity), ← pow_add]
    exact one_lt_pow₀ one_lt_two (by norm_num)
  have mostPos : (0 : ℚ) < 2 ^ 1023 := by positivity
  have mostLess : (2 ^ 1023 : ℚ) < 2 ^ 1024 := pow_lt_pow_right₀ one_lt_two (by norm_num)
  obtain ⟨least, leastEarly, leastNear, _, leastFound, _⟩ :=
    approximate_standard_converges leastPos leastLess
  obtain ⟨most, mostEarly, mostNear, _, mostFound, _⟩ :=
    approximate_standard_converges mostPos mostLess
  exact ⟨⟨leastPos, leastLess, least, leastEarly, leastNear, leastFound⟩, mostPos, mostLess, most,
    mostEarly, mostNear, mostFound⟩

end Reckoner.SquareRoot
