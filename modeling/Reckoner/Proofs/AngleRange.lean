/-
This file says between which bounds the reduced angles lie, on the doubles. Rounding may leave any
number of turns behind those that are taken off together, or take off infinitely many, so that the
bounds come from the two loops alone: neither of them ends at an angle beyond its own bound, and the
second one does not turn an angle back beyond the bound of the first.
-/

import Reckoner.Proofs.NotANumber
import Reckoner.Proofs.Parity
import Reckoner.Proofs.Rank

namespace Reckoner.Angle

open Binary64

section Loops

variable {α : Type} {far : α → Prop} {turn : α → α} {x angle : α}

/-- The loop turns an angle as long as it is far, and ends at the first one that is not. -/
inductive EndsAt (far : α → Prop) (turn : α → α) : α → α → Prop where
  | near {x : α} : ¬far x → EndsAt far turn x x
  | far {x angle : α} : far x → EndsAt far turn (turn x) angle → EndsAt far turn x angle

/-- What each turn keeps holds at the end, where the angle is not far. -/
theorem EndsAt.holds {invariant : α → Prop} (ends : EndsAt far turn x angle)
    (kept : ∀ x, far x → invariant x → invariant (turn x)) (start : invariant x) :
    invariant angle ∧ ¬far angle := by
  induction ends with
  | near within => exact ⟨start, within⟩
  | far away _ ih => exact ih (kept _ away start)

/-- Giving up where the rank does not fall misses no end of the loop, if the angle stays the same
there: a turn that is lost once is lost again. -/
theorem eq_some_iff_endsAt [DecidablePred far] {loop : α → Option α}
    (rank : α → Nat)
    (unfolded : ∀ x, loop x =
      if far x then if rank (turn x) < rank x then loop (turn x) else none else some x)
    (moved : ∀ x, far x → turn x = x ∨ rank (turn x) < rank x) :
    loop x = some angle ↔ EndsAt far turn x angle := by
  constructor
  · intro found
    induction same : rank x using Nat.strong_induction_on generalizing x with
    | h bound ih =>
        rw [unfolded] at found
        split at found
        · next away =>
            split at found
            · next less => exact .far away (ih _ (same ▸ less) found rfl)
            · contradiction
        · next within =>
            obtain rfl := Option.some.inj found
            exact .near within
  · intro ends
    induction ends with
    | near within => rw [unfolded, if_neg within]
    | @far x angle away _ ih =>
        rcases moved x away with lost | less
        · rwa [lost] at ih
        · rw [unfolded, if_pos away, if_pos less, ih]

variable [Scalar α]

/-- Both loops end, and the second one ends at the angle. -/
def ReducesTo (x angle : α) : Prop :=
  ∃ lowered, EndsAt (halfTurn < ·) (· - fullTurn) (nearby x) lowered ∧
    EndsAt (· < -halfTurn) (· + fullTurn) lowered angle

end Loops

section Doubles

variable {x lowered angle : Float}

theorem exists_halfTurn :
    ∃ half : ℚ, fraction? (halfTurn : Float) = some half ∧
      fraction? (fullTurn : Float) = some (2 * half) ∧ 0 < half :=
  ⟨884279719003555 / 281474976710656, by decide +kernel, by decide +kernel, by norm_num⟩

theorem sub_fullTurn (x : Float) : x - fullTurn = x + -fullTurn := by
  obtain ⟨half, _, fullFraction, _⟩ := exists_halfTurn
  exact sub_eq_add_neg_of_fraction fullFraction

/-- A turn leads to an angle of a lower rank unless it is lost in rounding. -/
theorem sub_eq_or_rank_lt (far : halfTurn < x) :
    x - fullTurn = x ∨ rank (x - fullTurn) < rank x := by
  obtain ⟨half, halfFraction, fullFraction, positive⟩ := exists_halfTurn
  have back := fraction_neg fullFraction
  rw [sub_fullTurn]
  rcases infinity_or_fraction (isNaN_of_le (le_of_lt_number far)) with ⟨sign, infinite⟩ |
    ⟨value, fraction⟩
  · exact .inl (infinite_add infinite back)
  · have beyond : half < value := (lt_iff halfFraction fraction).mp far
    obtain ⟨next, nextFraction, _, below⟩ := (keepsOrder_add fraction back).exists_fraction
      (fraction_neg halfFraction) fraction (by linarith) (by linarith)
    exact eq_or_rank_lt nextFraction fraction below (positive.trans beyond)

theorem add_eq_or_rank_lt (far : x < -halfTurn) :
    x + fullTurn = x ∨ rank (-(x + fullTurn)) < rank (-x) := by
  obtain ⟨half, halfFraction, fullFraction, positive⟩ := exists_halfTurn
  rcases infinity_or_fraction (isNaN_of_le_left (le_of_lt_number far)) with ⟨sign, infinite⟩ |
    ⟨value, fraction⟩
  · exact .inl (infinite_add infinite fullFraction)
  · have beyond : value < -half := (lt_iff fraction (fraction_neg halfFraction)).mp far
    obtain ⟨next, nextFraction, above, _⟩ := (keepsOrder_add fraction fullFraction).exists_fraction
      fraction halfFraction (by linarith) (by linarith)
    refine (eq_or_rank_lt (fraction_neg nextFraction) (fraction_neg fraction) (neg_le_neg above)
      (by linarith)).imp_left fun same => ?_
    rw [← neg_neg_eq (x + fullTurn), same, neg_neg_eq]

theorem lower?_eq_some_iff :
    lower? x = some lowered ↔ EndsAt (halfTurn < ·) (· - fullTurn) x lowered :=
  eq_some_iff_endsAt rank (fun x => lower?.eq_def x) fun _ => sub_eq_or_rank_lt

theorem raise?_eq_some_iff :
    raise? x = some angle ↔ EndsAt (· < -halfTurn) (· + fullTurn) x angle :=
  eq_some_iff_endsAt (fun x => rank (-x)) (fun x => raise?.eq_def x) fun _ => add_eq_or_rank_lt

theorem reduce?_eq_some_iff : reduce? x = some angle ↔ ReducesTo x angle := by
  simp only [reduce?, Option.bind_eq_some_iff, lower?_eq_some_iff, raise?_eq_some_iff]
  rfl

/-- The turns taken off together may be too many or too few, and even infinitely many, but what is
left is a number. -/
theorem isNaN_nearby (finite : x.isFinite) : (nearby x).isNaN = false := by
  obtain ⟨value, fraction⟩ := exists_fraction finite
  obtain ⟨half, halfFraction, fullFraction, positive⟩ := exists_halfTurn
  have full : 0 < 2 * half := by positivity
  unfold nearby
  split
  · have shifted := (keepsOrder_add fraction halfFraction).isNaN
    have turns := isNaN_floor (isNaN_div shifted fullFraction full)
    exact isNaN_sub fraction (isNaN_mul fullFraction full turns)
  · exact isNaN_of_fraction fraction

theorem le_pi_of_endsAt (number : x.isNaN = false)
    (ends : EndsAt (halfTurn < ·) (· - fullTurn) x lowered) :
    lowered.isNaN = false ∧ lowered ≤ pi := by
  obtain ⟨half, halfFraction, fullFraction, _⟩ := exists_halfTurn
  have kept (x : Float) (_ : halfTurn < x) (number : x.isNaN = false) :
      (x - fullTurn).isNaN = false := by
    rw [sub_fullTurn]
    exact isNaN_add number (fraction_neg fullFraction)
  obtain ⟨itsNumber, within⟩ := ends.holds kept number
  exact ⟨itsNumber, le_fraction_of_not_lt itsNumber halfFraction within⟩

/-- A turn from below the lower bound does not lead above the upper one, which is a turn away. -/
theorem add_fullTurn_le_pi (far : x < -halfTurn) : x + fullTurn ≤ pi := by
  obtain ⟨half, halfFraction, fullFraction, _⟩ := exists_halfTurn
  have below := le_of_lt_number far
  rcases infinity_or_fraction (isNaN_of_le_left below) with ⟨sign, infinite⟩ | ⟨value, fraction⟩
  · rw [infinite_add infinite fullFraction]
    exact le_trans_number below (by decide +kernel)
  · have beyond : value ≤ -half := (le_iff fraction (fraction_neg halfFraction)).mp below
    exact (keepsOrder_add fraction fullFraction).most halfFraction (by linarith)

theorem within_of_endsAt (number : lowered.isNaN = false) (most : lowered ≤ pi)
    (ends : EndsAt (· < -halfTurn) (· + fullTurn) lowered angle) :
    angle.isNaN = false ∧ -pi ≤ angle ∧ angle ≤ pi := by
  obtain ⟨half, halfFraction, fullFraction, _⟩ := exists_halfTurn
  have kept (x : Float) (far : x < -halfTurn) (kept : x.isNaN = false ∧ x ≤ pi) :
      (x + fullTurn).isNaN = false ∧ x + fullTurn ≤ pi :=
    ⟨isNaN_add kept.1 fullFraction, add_fullTurn_le_pi far⟩
  obtain ⟨⟨itsNumber, itsMost⟩, within⟩ := ends.holds kept ⟨number, most⟩
  exact ⟨itsNumber, fraction_le_of_not_lt itsNumber (fraction_neg halfFraction) within, itsMost⟩

theorem reduce?_of_magnitude_le (within : Scalar.magnitude x ≤ pi) : reduce? x = some x := by
  obtain ⟨value, turn, fraction, piFraction, near⟩ := exists_fraction_of_within within
  exact reduce?_of_fraction fraction piFraction near

/-- A finite angle is reduced exactly if the two loops end, and to the angle at which they do. That
angle is a number and lies between the half turns, whatever rounding makes of the turns that are
taken off together. An angle that lies there already is kept. -/
theorem reducesTo_bounds (finite : x.isFinite) :
    (∀ angle, reduce? x = some angle ↔ ReducesTo x angle) ∧
    (∀ angle, ReducesTo x angle → angle.isNaN = false ∧ -pi ≤ angle ∧ angle ≤ pi) ∧
    (Scalar.magnitude x ≤ pi → ∀ angle, ReducesTo x angle ↔ angle = x) := by
  refine ⟨fun angle => reduce?_eq_some_iff, fun angle ends => ?_, fun within angle => ?_⟩
  · obtain ⟨lowered, lowering, raising⟩ := ends
    obtain ⟨number, most⟩ := le_pi_of_endsAt (isNaN_nearby finite) lowering
    exact within_of_endsAt number most raising
  · rw [← reduce?_eq_some_iff, reduce?_of_magnitude_le within, Option.some.injEq]
    exact eq_comm

/-- The turns that are taken off ten quadrillion together are too many by one. -/
theorem reducesTo_bounds_quadrillions :
    ((1e16 : Float).isFinite ∧ ReducesTo (1e16 : Float) 2.2831853071795862 ∧
      reduce? (1e16 : Float) = some 2.2831853071795862 ∧
      (2.2831853071795862 : Float).isNaN = false ∧
      -pi ≤ 2.2831853071795862 ∧ 2.2831853071795862 ≤ pi) ∧
    (3 : Float).isFinite ∧ Scalar.magnitude (3 : Float) ≤ pi ∧ ReducesTo (3 : Float) 3 := by
  have finite : (1e16 : Float).isFinite := by decide +kernel
  have taken : nearby (1e16 : Float) = -4.0 := Float.toBits_inj.mp (by decide +kernel)
  have turned : (-4.0 : Float) + fullTurn = 2.2831853071795862 :=
    Float.toBits_inj.mp (by decide +kernel)
  have ends : ReducesTo (1e16 : Float) 2.2831853071795862 := by
    refine ⟨-4.0, ?_, .far (by decide +kernel) ?_⟩
    · rw [taken]
      exact .near (by decide +kernel)
    · rw [turned]
      exact .near (by decide +kernel)
  have near : Scalar.magnitude (3 : Float) ≤ pi := by decide +kernel
  have nearFinite : (3 : Float).isFinite := by decide +kernel
  obtain ⟨reduced, bounded, _⟩ := reducesTo_bounds finite
  obtain ⟨_, _, kept⟩ := reducesTo_bounds nearFinite
  exact ⟨⟨finite, ends, (reduced _).mpr ends, bounded _ ends⟩, nearFinite, near,
    (kept near 3).mpr rfl⟩

end Doubles

end Reckoner.Angle
