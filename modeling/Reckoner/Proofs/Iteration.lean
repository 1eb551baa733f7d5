/-
This file says what a run keeps: what holds at its start and is kept by each step that is taken
holds where it ends. It also says when a run converges, and which state of those it goes through
is the last.
-/

import Reckoner.Approximation

namespace Reckoner.Run

variable {σ : Type} {step : Nat → σ → σ} {invariant : Nat → σ → Prop} {last : Nat}

theorem notices_eq_nil_iff {α : Type} (run : Run σ) (function : ElementaryFunction) (argument : α)
    (limit : Nat) : run.notices function argument limit = [] ↔ run.converged := by
  unfold notices
  split
  · next converged => exact iff_of_true rfl converged
  · next cut => exact iff_of_false (List.cons_ne_nil _ _) cut

/-- The run ends at a settled state unless it has taken all of its steps. -/
theorem exists_untilSettled {settled : σ → Bool}
    (kept : ∀ index state, index < last → invariant index state → settled state = false →
      invariant (index + 1) (step index state)) {limit index : Nat} {state : σ}
    (steps : index + limit = last) (start : invariant index state) :
    ∃ count ≤ last, invariant count (untilSettled settled step limit index state).state ∧
      (count < last → settled (untilSettled settled step limit index state).state) := by
  induction limit generalizing index state with
  | zero => exact ⟨index, by omega, start, by omega⟩
  | succ limit ih =>
      unfold untilSettled
      split
      · next done => exact ⟨index, by omega, start, fun _ => done⟩
      · next undone =>
          exact ih (by omega) (kept index state (by omega) start (eq_false_of_ne_true undone))

/-- Related states that settle together, and whose steps lead to related states, end together. -/
theorem untilSettled_related {τ : Type} (related : σ → τ → Prop) {settled : σ → Bool}
    {otherSettled : τ → Bool} {otherStep : Nat → τ → τ}
    (sameTest : ∀ state other, related state other → otherSettled other = settled state)
    (kept : ∀ index state other, related state other →
      related (step index state) (otherStep index other))
    (limit index : Nat) {state : σ} {other : τ} (start : related state other) :
    related (untilSettled settled step limit index state).state
        (untilSettled otherSettled otherStep limit index other).state ∧
      (untilSettled otherSettled otherStep limit index other).converged =
        (untilSettled settled step limit index state).converged := by
  induction limit generalizing index state other with
  | zero => exact ⟨start, rfl⟩
  | succ limit ih =>
      rw [untilSettled, untilSettled, sameTest state other start]
      split
      · exact ⟨start, rfl⟩
      · exact ih (index + 1) (kept index state other start)

/-- Steps between the images of states lead to the image of the last state. -/
theorem untilSettled_image {τ : Type} (image : σ → τ) {settled : σ → Bool} {settledImage : τ → Bool}
    {stepImage : Nat → τ → τ} (sameTest : ∀ state, settledImage (image state) = settled state)
    (sameStep : ∀ index state, stepImage index (image state) = image (step index state))
    (limit index : Nat) (state : σ) :
    untilSettled settledImage stepImage limit index (image state) =
      ⟨image (untilSettled settled step limit index state).state,
        (untilSettled settled step limit index state).converged⟩ := by
  obtain ⟨last, converged⟩ := untilSettled_related (fun state other => other = image state)
    (fun state other same => same ▸ sameTest state)
    (fun index state other same => same ▸ sameStep index state) limit index (Eq.refl (image state))
  rw [← last, ← converged]

/-- The last step of a run that takes steps decides whether it has converged, and it is between
close states unless the run has taken all of its steps. -/
theorem exists_untilClose (close : σ → σ → Bool)
    (kept : ∀ index state, index < last → invariant index state →
      close state (step index state) = false → invariant (index + 1) (step index state))
    {limit index : Nat} {state : σ} (steps : index + (limit + 1) = last)
    (start : invariant index state) :
    ∃ count before, count < last ∧ invariant count before ∧
      untilClose close step (limit + 1) index state =
        ⟨step count before, close before (step count before)⟩ ∧
      (count + 1 < last → close before (step count before)) := by
  induction limit generalizing index state with
  | zero =>
      refine ⟨index, state, by omega, start, ?_, by omega⟩
      simp only [untilClose]
      split
      · next done => rw [done]
      · next undone => rw [eq_false_of_ne_true undone]
  | succ limit ih =>
      rw [untilClose]
      split
      · next done => exact ⟨index, state, by omega, start, by rw [done], fun _ => done⟩
      · next undone =>
          exact ih (by omega) (kept index state (by omega) start (eq_false_of_ne_true undone))

section Close

variable {close : σ → σ → Bool}

/-- With a higher limit a run goes on from its last state unless it has converged there. -/
theorem untilClose_add (limit extra index : Nat) (state : σ) :
    untilClose close step (limit + extra) index state =
      if (untilClose close step limit index state).converged then
        untilClose close step limit index state
      else
        untilClose close step extra (index + limit)
          (untilClose close step limit index state).state := by
  induction limit generalizing index state with
  | zero => rw [Nat.zero_add]; rfl
  | succ limit ih =>
      rw [Nat.add_right_comm, untilClose, untilClose]
      split
      · rfl
      · rw [ih, Nat.add_right_comm index, Nat.add_assoc index]

theorem holds_untilClose {holds : σ → Prop}
    (kept : ∀ index state, holds state → holds (step index state)) (limit index : Nat) {state : σ}
    (start : holds state) : holds (untilClose close step limit index state).state := by
  induction limit generalizing index state with
  | zero => exact start
  | succ limit ih =>
      rw [untilClose]
      split
      · exact kept index state start
      · exact ih (index + 1) (kept index state start)

end Close

/-- The first count below the limit that passes the test, or the limit where none does. -/
structure IsEnd (test : Nat → Prop) (limit count : Nat) : Prop where
  within : count ≤ limit
  passed : count < limit → test count
  earlier : ∀ index < count, ¬test index

section End

variable {test : Nat → Prop} {limit count : Nat}

theorem isEnd_zero_limit (test : Nat → Prop) : IsEnd test 0 0 :=
  ⟨Nat.le_refl 0, fun less => absurd less (Nat.not_lt_zero 0),
    fun index less => absurd less (Nat.not_lt_zero index)⟩

theorem isEnd_zero (start : test 0) : IsEnd test limit 0 :=
  ⟨Nat.zero_le limit, fun _ => start, fun index less => absurd less (Nat.not_lt_zero index)⟩

theorem IsEnd.succ (isEnd : IsEnd (fun index => test (index + 1)) limit count)
    (start : ¬test 0) : IsEnd test (limit + 1) (count + 1) := by
  refine ⟨Nat.succ_le_succ isEnd.within,
    fun less => isEnd.passed (Nat.lt_of_succ_lt_succ less), fun index less => ?_⟩
  cases index with
  | zero => exact start
  | succ index => exact isEnd.earlier index (Nat.lt_of_succ_lt_succ less)

/-- A test that is easier to pass is not passed later, also where the other limit is higher. -/
theorem IsEnd.le_of_le {harder : Nat → Prop} {more later : Nat} (isEnd : IsEnd test limit count)
    (laterEnd : IsEnd harder more later) (le : limit ≤ more)
    (easier : ∀ index, harder index → test index) : count ≤ later := by
  refine Nat.le_of_not_lt fun less => ?_
  have passed := laterEnd.passed (Nat.lt_of_lt_of_le less (Nat.le_trans isEnd.within le))
  exact isEnd.earlier later less (easier later passed)

theorem IsEnd.le_of_imp {harder : Nat → Prop} {later : Nat} (isEnd : IsEnd test limit count)
    (laterEnd : IsEnd harder limit later) (easier : ∀ index, harder index → test index) :
    count ≤ later :=
  isEnd.le_of_le laterEnd (Nat.le_refl limit) easier

theorem exists_isEnd (test : Nat → Prop) (limit : Nat) : ∃ count, IsEnd test limit count := by
  induction limit generalizing test with
  | zero => exact ⟨0, isEnd_zero_limit test⟩
  | succ limit ih =>
      by_cases start : test 0
      · exact ⟨0, isEnd_zero start⟩
      · obtain ⟨count, isEnd⟩ := ih fun index => test (index + 1)
        exact ⟨count + 1, isEnd.succ start⟩

/-- There is only one end. -/
theorem IsEnd.unique {other : Nat} (isEnd : IsEnd test limit count)
    (otherEnd : IsEnd test limit other) : count = other :=
  Nat.le_antisymm (isEnd.le_of_imp otherEnd fun _ => id) (otherEnd.le_of_imp isEnd fun _ => id)

theorem IsEnd.pred (isEnd : IsEnd test (limit + 1) (count + 1)) :
    IsEnd (fun index => test (index + 1)) limit count :=
  ⟨Nat.le_of_succ_le_succ isEnd.within, fun less => isEnd.passed (Nat.succ_lt_succ less),
    fun index less => isEnd.earlier (index + 1) (Nat.succ_lt_succ less)⟩

/-- A higher limit leaves an end below the lower one where it is. -/
theorem IsEnd.of_lt (isEnd : IsEnd test limit count) (early : count < limit) {more : Nat}
    (le : limit ≤ more) : IsEnd test more count :=
  ⟨Nat.le_trans isEnd.within le, fun _ => isEnd.passed early, isEnd.earlier⟩

end End

section States

variable {states : Nat → σ} {first : Nat}

theorem next_later (next : ∀ index, step (first + index) (states index) = states (index + 1))
    (index : Nat) : step (first + 1 + index) (states (index + 1)) = states (index + 1 + 1) := by
  rw [Nat.add_assoc, Nat.add_comm 1]
  exact next (index + 1)

/-- A run through these states ends at the first that is settled, and has converged if that is
below the limit. -/
theorem exists_isEnd_untilSettled (settled : σ → Bool)
    (next : ∀ index, step (first + index) (states index) = states (index + 1)) (limit : Nat) :
    ∃ count, IsEnd (fun index => settled (states index)) limit count ∧
      untilSettled settled step limit first (states 0) =
        ⟨states count, decide (count < limit)⟩ := by
  induction limit generalizing first states with
  | zero => exact ⟨0, isEnd_zero_limit _, rfl⟩
  | succ limit ih =>
      rw [untilSettled]
      split
      · next done => exact ⟨0, isEnd_zero done, by simp⟩
      · next undone =>
          obtain ⟨count, isEnd, same⟩ := ih (next_later next)
          have start : step first (states 0) = states 1 := next 0
          refine ⟨count + 1, isEnd.succ undone, ?_⟩
          rw [start, same]
          simp

theorem untilSettled_of_isEnd (settled : σ → Bool) (states : Nat → σ)
    (next : ∀ index, step (first + index) (states index) = states (index + 1)) {limit count : Nat}
    (isEnd : IsEnd (fun index => settled (states index)) limit count) :
    untilSettled settled step limit first (states 0) = ⟨states count, decide (count < limit)⟩ := by
  obtain ⟨other, otherEnd, same⟩ := exists_isEnd_untilSettled settled next limit
  rw [same, otherEnd.unique isEnd]

/-- The step that ends the run between close states is taken. -/
theorem untilClose_of_isEnd (close : σ → σ → Bool) (states : Nat → σ)
    (next : ∀ index, step (first + index) (states index) = states (index + 1)) {limit count : Nat}
    (isEnd : IsEnd (fun index => close (states index) (states (index + 1))) limit count) :
    untilClose close step limit first (states 0) =
      if count < limit then ⟨states (count + 1), true⟩ else ⟨states limit, false⟩ := by
  induction limit generalizing first states count with
  | zero => rfl
  | succ limit ih =>
      have start : step first (states 0) = states 1 := next 0
      rw [untilClose, start]
      cases count with
      | zero => rw [if_pos (isEnd.passed limit.succ_pos), if_pos limit.succ_pos]
      | succ count =>
          have apart := isEnd.earlier 0 count.succ_pos
          have later := ih _ (next_later next) isEnd.pred
          rw [if_neg apart, later]
          simp only [Nat.add_lt_add_iff_right]

/-- The state is not the first one, and is close to the one before it. -/
def IsClose (close : σ → σ → Bool) (states : Nat → σ) (index : Nat) : Prop :=
  ∃ before, before + 1 = index ∧ close (states before) (states index)

theorem isClose_succ_iff {close : σ → σ → Bool} {index : Nat} :
    IsClose close states (index + 1) ↔ close (states index) (states (index + 1)) := by
  refine ⟨fun ⟨before, same, near⟩ => ?_, fun near => ⟨index, rfl, near⟩⟩
  obtain rfl := Nat.succ.inj same
  exact near

theorem not_isClose_zero {close : σ → σ → Bool} : ¬IsClose close states 0 :=
  fun ⟨before, same, _⟩ => absurd same (Nat.succ_ne_zero before)

/-- A run through these states ends at the first that is close to the one before it, and has
converged if there is one up to the limit. -/
theorem exists_isEnd_untilClose (close : σ → σ → Bool)
    (next : ∀ index, step (first + index) (states index) = states (index + 1)) (limit : Nat) :
    ∃ count, IsEnd (IsClose close states) limit count ∧
      (untilClose close step limit first (states 0)).state = states count ∧
      ((untilClose close step limit first (states 0)).converged ↔ IsClose close states count) := by
  induction limit generalizing first states with
  | zero =>
      exact ⟨0, isEnd_zero_limit _, rfl, iff_of_false Bool.false_ne_true not_isClose_zero⟩
  | succ limit ih =>
      have start : step first (states 0) = states 1 := next 0
      rw [untilClose, start]
      split
      · next near =>
          have reached : IsClose close states 1 := isClose_succ_iff.mpr near
          have earlier (index : Nat) (less : index < 1) : ¬IsClose close states index := by
            obtain rfl := Nat.lt_one_iff.mp less
            exact not_isClose_zero
          exact ⟨1, ⟨Nat.le_add_left 1 limit, fun _ => reached, earlier⟩, rfl,
            iff_of_true rfl reached⟩
      · next apart =>
          -- The first two states are apart, so that nothing is lost if the run starts later.
          have later : IsClose close (fun index => states (index + 1)) =
              fun index => IsClose close states (index + 1) := by
            funext index
            cases index with
            | zero => exact propext (iff_of_false not_isClose_zero (mt isClose_succ_iff.mp apart))
            | succ index => rw [isClose_succ_iff, isClose_succ_iff]
          obtain ⟨count, isEnd, state, converged⟩ := ih (next_later next)
          rw [later] at isEnd converged
          exact ⟨count + 1, isEnd.succ not_isClose_zero, state, converged⟩

end States

end Reckoner.Run
