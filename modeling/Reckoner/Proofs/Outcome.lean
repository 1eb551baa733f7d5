/-
This file says which outcomes a computation can end with.
-/

import Reckoner.Record

namespace Reckoner

open MonadAttach

variable {m : Type → Type} [Monad m] [LawfulMonad m] [MonadAttach m] [LawfulMonadAttach m]
variable {α β : Type}

/-- Some run of the computation ends with the outcome. -/
def Ends (computation : ExceptT EvaluationError m α) (outcome : Except EvaluationError α) : Prop :=
  CanReturn computation.run outcome

namespace Ends

theorem of_pure {value : α} {outcome : Except EvaluationError α}
    (ends : Ends (m := m) (pure value) outcome) : outcome = .ok value :=
  (LawfulMonadAttach.eq_of_canReturn_pure ends).symm

theorem of_throw {error : EvaluationError} {outcome : Except EvaluationError α}
    (ends : Ends (m := m) (throw error) outcome) : outcome = .error error :=
  (LawfulMonadAttach.eq_of_canReturn_pure ends).symm

/-- A sequence ends with its first failure or as its second part does. -/
theorem of_bind {computation : ExceptT EvaluationError m α}
    {next : α → ExceptT EvaluationError m β} {outcome : Except EvaluationError β}
    (ends : Ends (computation >>= next) outcome) :
    (∃ error, Ends computation (.error error) ∧ outcome = .error error) ∨
      ∃ value, Ends computation (.ok value) ∧ Ends (next value) outcome := by
  obtain ⟨first, firstEnds, nextEnds⟩ := LawfulMonadAttach.canReturn_bind_imp' ends
  cases first with
  | error error =>
      exact .inl ⟨error, firstEnds, (LawfulMonadAttach.eq_of_canReturn_pure nextEnds).symm⟩
  | ok value => exact .inr ⟨value, firstEnds, nextEnds⟩

/-- A sequence fails where its first part does, or where only its second part does. -/
theorem of_bind_error {computation : ExceptT EvaluationError m α}
    {next : α → ExceptT EvaluationError m β} {error : EvaluationError}
    (ends : Ends (computation >>= next) (.error error)) :
    Ends computation (.error error) ∨
      ∃ value, Ends computation (.ok value) ∧ Ends (next value) (.error error) := by
  rcases of_bind ends with ⟨cause, failed, same⟩ | later
  · obtain rfl := Except.error.inj same
    exact .inl failed
  · exact .inr later

theorem of_liftExcept {result outcome : Except EvaluationError α}
    (ends : Ends (m := m) (liftExcept result) outcome) : outcome = result := by
  cases result with
  | error error => exact of_throw ends
  | ok value => exact of_pure ends

variable [MonadRecord m]

/-- Records do not fail. -/
theorem of_forM_record {notices : List (Notice Float)} {outcome : Except EvaluationError PUnit}
    (ends : Ends (notices.forM fun notice =>
      (record (.stopped notice) : ExceptT EvaluationError m PUnit)) outcome) :
    outcome = .ok ⟨⟩ := by
  induction notices with
  | nil => exact of_pure ends
  | cons notice rest ih =>
      rcases of_bind ends with ⟨error, failed, _⟩ | ⟨_, _, others⟩
      · obtain ⟨_, _, succeeded⟩ := LawfulMonadAttach.canReturn_map_imp' failed
        contradiction
      · exact ih others

/-- The value of an approximation is published, and nothing else. -/
theorem of_publish {approximated : Except EvaluationError (Approximation Float)}
    {outcome : Except EvaluationError Float} (ends : Ends (m := m) (publish approximated) outcome) :
    outcome = approximated.map Approximation.value := by
  rcases of_bind ends with ⟨error, lifted, rfl⟩ | ⟨approximation, lifted, recorded⟩
  · rw [← of_liftExcept lifted]
    rfl
  · rw [← of_liftExcept lifted]
    rcases of_bind recorded with ⟨error, failed, _⟩ | ⟨_, _, published⟩
    · cases of_forM_record failed
    · exact of_pure published

/-- A publication fails only as its approximation does. -/
theorem error_of_publish {approximated : Except EvaluationError (Approximation Float)}
    {error : EvaluationError} (ends : Ends (m := m) (publish approximated) (.error error)) :
    approximated = .error error := by
  have outcome := ends.of_publish
  cases approximated with
  | error cause =>
      obtain rfl := Except.error.inj outcome
      rfl
  | ok approximation => contradiction

end Ends

end Reckoner
