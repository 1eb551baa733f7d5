/-
This file says what the trigonometric functions make of an opposite angle: the same cosine and the
opposite sine. It is shown on the doubles, where a minus sign takes no rounding.
-/

import Reckoner.Proofs.Cutoff

namespace Reckoner

namespace Binary64

/-- The second double is the first one with the opposite sign. A zero may have either. -/
def AreOpposite (x y : Float) : Prop := y = -x ∨ (x == 0.0) = true ∧ (y == 0.0) = true

/-- What opposite doubles are added to stays opposite, also where it is cancelled. -/
theorem AreOpposite.add {x y : Float} (opposite : AreOpposite x y) (term : Float) :
    AreOpposite (x + term) (y + -term) := by
  rcases opposite with rfl | ⟨zero, other⟩
  · exact neg_add_neg_eq x term
  · by_cases none : (term == 0.0) = true
    · exact .inr ⟨beq_zero_add zero none, beq_zero_add other (beq_zero_neg_iff.mpr none)⟩
    · have some : ¬(-term == 0.0) = true := by
        rwa [beq_zero_neg_iff]
      rw [add_of_beq_zero zero none, add_of_beq_zero other some]
      exact .inl rfl

end Binary64

namespace Angle

open Binary64

/-- A double between the half turns is finite. -/
theorem exists_fraction_of_within {x : Float} (within : Scalar.magnitude x ≤ pi) :
    ∃ value turn, fraction? x = some value ∧ fraction? pi = some turn ∧ |value| ≤ turn := by
  obtain ⟨turn, piFraction⟩ := exists_fraction (x := pi) (by decide)
  have finite : x.isFinite := by
    change x.toModel.unpack.isFinite = true
    cases read : x.toModel.unpack with
    | zero sign | finite sign => rfl
    | notANumber =>
        rw [← ofModel_pack read] at within
        exact absurd within (by decide)
    | infinity sign =>
        rw [← ofModel_pack read] at within
        cases sign <;> exact absurd within (by decide)
  obtain ⟨value, fraction⟩ := exists_fraction finite
  exact ⟨value, turn, fraction, piFraction,
    (le_iff (fraction_magnitude fraction) piFraction).mp within⟩

/-- An angle between the half turns is not turned. -/
theorem reduce?_of_fraction {x : Float} {value turn : ℚ} (fraction : fraction? x = some value)
    (piFraction : fraction? pi = some turn) (near : |value| ≤ turn) : reduce? x = some x := by
  obtain ⟨least, most⟩ := abs_le.mp near
  refine reduce?_of_within ?_ ?_ ?_
  · exact mt (lt_iff piFraction (fraction_magnitude fraction)).mp near.not_gt
  · exact mt (lt_iff piFraction fraction).mp most.not_gt
  · exact mt (lt_iff fraction (fraction_neg piFraction)).mp least.not_gt

end Angle

namespace Trigonometry

open Binary64

/-- The factors hold the square of the angle. -/
theorem neg_neg_mul_neg (x : Float) : - -x * -x = -x * x := by
  rw [neg_neg_eq, mul_comm_eq]

/-- The factors of a sine depend on the square of the angle alone. -/
theorem sineFactor_neg_eq (x : Float) : sineFactor (-x) = sineFactor x := by
  funext index
  simp only [sineFactor, neg_neg_mul_neg]

/-- The factors of a cosine depend on the square of the angle alone. -/
theorem cosineFactor_neg_eq (x : Float) : cosineFactor (-x) = cosineFactor x := by
  funext index
  simp only [cosineFactor, neg_neg_mul_neg]

/-- The terms are opposite without exception, and the sums as numbers. -/
structure AreMirrored (reached other : PartialSum Float) : Prop where
  sum : AreOpposite reached.sum other.sum
  term : other.term = -reached.term

/-- A step from mirrored states leads to mirrored ones. -/
theorem AreMirrored.addTerm {reached other : PartialSum Float}
    (mirrored : AreMirrored reached other) (factor : Nat → Float) (index : Nat) :
    AreMirrored (addTerm factor index reached) (Trigonometry.addTerm factor index other) := by
  refine ⟨?_, ?_⟩
  · change AreOpposite (reached.sum + reached.term) (other.sum + other.term)
    rw [mirrored.term]
    exact mirrored.sum.add reached.term
  · change other.term * factor index = -(reached.term * factor index)
    rw [mirrored.term, neg_mul_eq]

/-- The runs from opposite terms go through mirrored states to their ends. -/
theorem areMirrored_sum (series : Series Float) (factor : Nat → Float) (index : Nat)
    (term : Float) :
    AreMirrored (sum series factor index term).state (sum series factor index (-term)).state := by
  have none : ((0 : Float) == 0.0) = true := by decide
  have start : AreMirrored ⟨0, term⟩ ⟨0, -term⟩ := ⟨.inr ⟨none, none⟩, rfl⟩
  unfold sum
  refine (Run.untilSettled_related AreMirrored (fun reached other mirrored => ?_)
    (fun index _ _ mirrored => mirrored.addTerm factor index) series.limit index start).1
  rw [mirrored.term]
  exact decide_eq_decide.mpr (magnitude_neg_le_iff reached.term series.tolerance)

/-- The opposite angle gives the same cosine, bit for bit, and the opposite sine, whatever the
tolerance and the limit are. -/
theorem cosine_neg_and_sine_neg {x : Float} (within : Scalar.magnitude x ≤ Angle.pi)
    (series : Series Float) :
    cosine series (-x) = cosine series x ∧ AreOpposite (sine series x) (sine series (-x)) := by
  obtain ⟨value, turn, fraction, piFraction, near⟩ := Angle.exists_fraction_of_within within
  have opposite := fraction_neg fraction
  have oppositeNear : |-value| ≤ turn := (abs_neg value).trans_le near
  have reduced := Angle.reduce?_of_fraction fraction piFraction near
  have oppositeReduced := Angle.reduce?_of_fraction opposite piFraction oppositeNear
  have finite : x.isFinite := isFinite_of_fraction fraction
  have oppositeFinite : (-x).isFinite := isFinite_of_fraction opposite
  constructor
  · rw [cosine_of_reduce reduced, cosine_of_reduce oppositeReduced, if_pos finite,
      if_pos oppositeFinite, cosineFactor_neg_eq]
  · rw [sine_of_reduce reduced, sine_of_reduce oppositeReduced, if_pos finite,
      if_pos oppositeFinite, sineFactor_neg_eq]
    exact (areMirrored_sum series (sineFactor x) 1 x).sum

/-- Three radians are within half a turn. -/
theorem cosine_neg_and_sine_neg_three :
    Scalar.magnitude (3 : Float) ≤ Angle.pi ∧
      cosine ⟨1e-15, 3⟩ (-3) = cosine ⟨1e-15, 3⟩ 3 ∧
      AreOpposite (sine ⟨1e-15, 3⟩ 3) (sine ⟨1e-15, 3⟩ (-3)) := by
  have within : Scalar.magnitude (3 : Float) ≤ Angle.pi := by decide +kernel
  exact ⟨within, cosine_neg_and_sine_neg within ⟨1e-15, 3⟩⟩

end Trigonometry

end Reckoner
