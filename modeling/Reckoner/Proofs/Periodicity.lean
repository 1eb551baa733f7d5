/-
This file reduces the angles that are fractions. Nothing is rounded, so that the turns taken off
together are all of them, and angles that differ by whole turns have one cosine. They have one
sine as well, except for the odd half turns, where the reduced angle has either sign.
-/

import Mathlib.Algebra.Order.ToIntervalMod
import Mathlib.Tactic
import Reckoner.Approximation.Trigonometry
import Reckoner.Scalar.Rational

namespace Reckoner

namespace Angle

variable {x : ℚ}

/-- Half a turn is more than three. -/
theorem three_lt_halfTurn : (3 : ℚ) < halfTurn := by
  decide +kernel

/-- Half a turn is less than twenty-two sevenths. -/
theorem halfTurn_lt : (halfTurn : ℚ) < 22 / 7 := by
  decide +kernel

theorem halfTurn_pos : (0 : ℚ) < halfTurn := three_pos.trans three_lt_halfTurn

/-- Whole turns are exact, as doubling takes no rounding. -/
theorem fullTurn_eq : (fullTurn : ℚ) = 2 * halfTurn := rfl

theorem fullTurn_pos : (0 : ℚ) < fullTurn := mul_pos two_pos halfTurn_pos

/-- The bounds of the reduced angles are a turn apart. -/
theorem neg_halfTurn_add_fullTurn : (-halfTurn + fullTurn : ℚ) = halfTurn := by
  rw [fullTurn_eq]
  ring

/-- Nothing is taken off an angle that is not above the upper bound. -/
theorem lower?_of_le (le : x ≤ halfTurn) : lower? x = some x := by
  rw [lower?, if_neg le.not_gt]

/-- Nothing is added to an angle that is not below the lower bound. -/
theorem raise?_of_le (le : -halfTurn ≤ x) : raise? x = some x := by
  rw [raise?, if_neg le.not_gt]

/-- An angle between the bounds is kept. -/
theorem reduce?_of_abs_le (near : |x| ≤ halfTurn) : reduce? x = some x := by
  have notFar : ¬halfTurn < Scalar.magnitude x := by
    rw [Scalar.magnitude_eq_abs]
    exact near.not_gt
  obtain ⟨least, most⟩ := abs_le.mp near
  rw [reduce?, nearby, if_neg notFar, lower?_of_le most, Option.bind_some, raise?_of_le least]

/-- The angle between the half turns that is whole turns away. -/
noncomputable def principal (x : ℚ) : ℚ := toIcoMod fullTurn_pos (-halfTurn) x

/-- The principal angle is what the turns taken off together leave. -/
theorem principal_eq (x : ℚ) :
    principal x = x - fullTurn * Scalar.floor ((x + halfTurn) / fullTurn) := by
  rw [principal, toIcoMod, toIcoDiv_eq_floor, sub_neg_eq_add, zsmul_eq_mul, mul_comm]
  rfl

/-- Angles that are whole turns apart have one principal angle. -/
theorem principal_add_turns (x : ℚ) (turns : ℤ) :
    principal (x + turns * fullTurn) = principal x := by
  rw [principal, ← zsmul_eq_mul]
  exact toIcoMod_add_zsmul fullTurn_pos _ x turns

/-- An angle and its principal angle are whole turns apart. -/
theorem principal_add_div_mul (x : ℚ) :
    principal x + toIcoDiv fullTurn_pos (-halfTurn) x * fullTurn = x := by
  rw [← zsmul_eq_mul]
  exact toIcoMod_add_toIcoDiv_zsmul fullTurn_pos _ x

/-- The lower bound may be a principal angle itself. -/
theorem neg_halfTurn_le_principal (x : ℚ) : -halfTurn ≤ principal x :=
  (toIcoMod_mem_Ico fullTurn_pos _ x).1

/-- The upper bound is no principal angle. -/
theorem principal_lt_halfTurn (x : ℚ) : principal x < halfTurn := by
  have less := (toIcoMod_mem_Ico fullTurn_pos (-halfTurn) x).2
  rwa [neg_halfTurn_add_fullTurn] at less

/-- Principal angles lie between the half turns. -/
theorem abs_principal_le (x : ℚ) : |principal x| ≤ halfTurn :=
  abs_le.mpr ⟨neg_halfTurn_le_principal x, (principal_lt_halfTurn x).le⟩

/-- An angle between the bounds is its own principal angle, unless it is the upper bound. -/
theorem principal_of_abs_le (near : |x| ≤ halfTurn) (apart : x ≠ halfTurn) : principal x = x := by
  obtain ⟨least, most⟩ := abs_le.mp near
  refine (toIcoMod_eq_self fullTurn_pos).mpr ⟨least, ?_⟩
  rw [neg_halfTurn_add_fullTurn]
  exact most.lt_of_ne apart

/-- The principal angle of the upper bound is the lower one. -/
theorem principal_halfTurn : principal halfTurn = -halfTurn := by
  have turned := principal_add_turns (-halfTurn) 1
  rw [Int.cast_one, one_mul, neg_halfTurn_add_fullTurn] at turned
  exact turned.trans (toIcoMod_apply_left fullTurn_pos (-halfTurn))

/-- The turns taken off together leave nothing to take off one at a time. -/
theorem reduce?_of_lt_abs (far : halfTurn < |x|) : reduce? x = some (principal x) := by
  rw [reduce?, nearby, if_pos (by rwa [Scalar.magnitude_eq_abs]), ← principal_eq,
    lower?_of_le (principal_lt_halfTurn x).le, Option.bind_some,
    raise?_of_le (neg_halfTurn_le_principal x)]

/-- All angles but one are reduced to their principal angles. -/
theorem reduce?_of_ne (apart : x ≠ halfTurn) : reduce? x = some (principal x) := by
  rcases le_or_gt |x| halfTurn with near | far
  · rw [reduce?_of_abs_le near, principal_of_abs_le near apart]
  · exact reduce?_of_lt_abs far

/-- The half turn is kept, which makes it the opposite of its principal angle. -/
theorem reduce?_halfTurn : reduce? (halfTurn : ℚ) = some (-principal halfTurn) := by
  rw [principal_halfTurn, neg_neg]
  exact reduce?_of_abs_le (abs_of_pos halfTurn_pos).le

/-- Every angle is reduced, by whole turns, and not at all where that is not needed. -/
theorem exists_reduced (x : ℚ) :
    ∃ angle, reduce? x = some angle ∧ |angle| ≤ halfTurn ∧
      (∃ turns : ℤ, angle + turns * fullTurn = x) ∧ (|x| ≤ halfTurn → angle = x) := by
  rcases le_or_gt |x| halfTurn with near | far
  · exact ⟨x, reduce?_of_abs_le near, near, ⟨0, by simp⟩, fun _ => rfl⟩
  · exact ⟨principal x, reduce?_of_lt_abs far, abs_principal_le x,
      ⟨_, principal_add_div_mul x⟩, fun near => absurd near far.not_ge⟩

end Angle

namespace Trigonometry

open Angle

variable {x : ℚ}

/-- The factors of a cosine depend on the square of the angle alone. -/
theorem cosineFactor_neg (x : ℚ) : cosineFactor (-x) = cosineFactor x := by
  funext index
  simp only [cosineFactor]
  rw [neg_neg, mul_neg, neg_mul]

/-- The cosine is that of the principal angle, also where the reduced angle is its opposite. -/
theorem cosine?_eq (series : Series ℚ) (x : ℚ) :
    cosine? series x = some (sum series (cosineFactor (principal x)) 0 1).state.sum := by
  have reduced : cosine? series x =
      (reduce? x).map fun angle => (sum series (cosineFactor angle) 0 1).state.sum := rfl
  rw [reduced]
  by_cases apart : x = halfTurn
  · rw [apart, reduce?_halfTurn, Option.map_some, cosineFactor_neg]
  · rw [reduce?_of_ne apart, Option.map_some]

/-- The sine is that of the principal angle where the reduced angle is the principal one. -/
theorem sine?_eq (series : Series ℚ) (apart : x ≠ halfTurn) :
    sine? series x =
      some (sum series (sineFactor (principal x)) 1 (principal x)).state.sum := by
  have reduced : sine? series x =
      (reduce? x).map fun angle => (sum series (sineFactor angle) 1 angle).state.sum := rfl
  rw [reduced, reduce?_of_ne apart, Option.map_some]

/-- Whole turns lead to the half turn from odd half turns only. -/
theorem add_turns_ne_halfTurn (other : ∀ half : ℤ, Odd half → x ≠ half * halfTurn) (turns : ℤ) :
    x + turns * fullTurn ≠ halfTurn := by
  intro same
  refine other (1 - 2 * turns) ⟨-turns, by ring⟩ ?_
  rw [fullTurn_eq] at same
  push_cast
  linear_combination same

/-- Every angle is reduced to one between the half turns by whole turns, and one that lies there is
kept. Whole turns do not change the cosine of an angle, and its sine only where the angle is an odd
number of half turns. -/
theorem reduced_and_periodic (x : ℚ) :
    (∃ angle, reduce? x = some angle ∧ -halfTurn ≤ angle ∧ angle ≤ halfTurn ∧
      (∃ turns : ℤ, angle + turns * fullTurn = x) ∧ (|x| ≤ halfTurn → angle = x)) ∧
    ∀ (series : Series ℚ) (turns : ℤ),
      (∃ value, cosine? series x = some value ∧
        cosine? series (x + turns * fullTurn) = some value) ∧
      ((∀ half : ℤ, Odd half → x ≠ half * halfTurn) →
        ∃ value, sine? series x = some value ∧
          sine? series (x + turns * fullTurn) = some value) := by
  obtain ⟨angle, reduced, bounded, moved, kept⟩ := exists_reduced x
  obtain ⟨least, most⟩ := abs_le.mp bounded
  refine ⟨⟨angle, reduced, least, most, moved, kept⟩, fun series turns => ⟨?_, fun other => ?_⟩⟩
  · refine ⟨_, cosine?_eq series x, ?_⟩
    rw [cosine?_eq, principal_add_turns]
  · have apart : x ≠ halfTurn := by
      simpa using add_turns_ne_halfTurn other 0
    refine ⟨_, sine?_eq series apart, ?_⟩
    rw [sine?_eq series (add_turns_ne_halfTurn other turns), principal_add_turns]

/-- Three is no multiple of half a turn, since it lies strictly between none and one of them. -/
theorem three_ne_mul_halfTurn (half : ℤ) : (3 : ℚ) ≠ half * halfTurn := by
  have large := three_lt_halfTurn
  rcases le_or_gt half 0 with nonpos | positive
  · have product : half * halfTurn ≤ (0 : ℚ) :=
      mul_nonpos_of_nonpos_of_nonneg (by exact_mod_cast nonpos) halfTurn_pos.le
    linarith
  · have product : (1 : ℚ) * halfTurn ≤ half * halfTurn :=
      mul_le_mul_of_nonneg_right (by exact_mod_cast positive) halfTurn_pos.le
    linarith

/-- Three is kept, and two turns less have its cosine and its sine. -/
theorem reduced_and_periodic_three :
    |(3 : ℚ)| ≤ halfTurn ∧ reduce? (3 : ℚ) = some 3 ∧
      (∀ half : ℤ, Odd half → (3 : ℚ) ≠ half * halfTurn) ∧
      (∃ value, cosine? standard (3 : ℚ) = some value ∧
        cosine? standard (3 + (-2 : ℤ) * fullTurn : ℚ) = some value) ∧
      ∃ value, sine? standard (3 : ℚ) = some value ∧
        sine? standard (3 + (-2 : ℤ) * fullTurn : ℚ) = some value := by
  have near : |(3 : ℚ)| ≤ halfTurn := by
    rw [abs_of_pos three_pos]
    exact three_lt_halfTurn.le
  have other (half : ℤ) (_ : Odd half) : (3 : ℚ) ≠ half * halfTurn := three_ne_mul_halfTurn half
  obtain ⟨⟨angle, reduced, _, _, _, kept⟩, periodic⟩ := reduced_and_periodic 3
  obtain ⟨cosines, sines⟩ := periodic standard (-2)
  rw [kept near] at reduced
  exact ⟨near, reduced, other, cosines, sines other⟩

end Trigonometry

end Reckoner
