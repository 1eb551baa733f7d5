/-
This file says what an evaluation records, and how often an approximation can be cut off in it.
-/

import Reckoner.Proofs.Infix
import Reckoner.Proofs.Parentheses

namespace Reckoner

/-- So many approximations at most have been cut off, and none of them is that of an angle. -/
structure CutOff (limit : Nat) (notices : List (Notice Float)) : Prop where
  length_le : notices.length ≤ limit
  function_mem : ∀ notice ∈ notices, notice.function ∈ [.squareRoot, .exponential, .logarithm]

namespace CutOff

variable {limit more : Nat} {notices others : List (Notice Float)}

theorem nil (limit : Nat) : CutOff limit [] := ⟨Nat.zero_le _, by simp⟩

/-- Notices one after the other come from both of their sources. -/
theorem append (first : CutOff limit notices) (second : CutOff more others) :
    CutOff (limit + more) (notices ++ others) where
  length_le := by
    rw [List.length_append]
    exact Nat.add_le_add first.length_le second.length_le
  function_mem := List.forall_mem_append.mpr ⟨first.function_mem, second.function_mem⟩

/-- A higher bound on the number of notices holds as well. -/
theorem mono (cut : CutOff limit notices) (le : limit ≤ more) : CutOff more notices :=
  ⟨cut.length_le.trans le, cut.function_mem⟩

end CutOff

/-- The approximation has been cut off so many times at most, if there is one. -/
def CutOffAtMost {ε : Type} (limit : Nat) : Except ε (Approximation Float) → Prop
  | .error _ => True
  | .ok approximation => CutOff limit approximation.notices

/-- Another name for a failure does not change the notices. -/
theorem CutOffAtMost.mapError {ε δ : Type} {limit : Nat}
    {approximated : Except ε (Approximation Float)} (cut : CutOffAtMost limit approximated)
    (f : ε → δ) : CutOffAtMost limit (approximated.mapError f) := by
  cases approximated with
  | error _ => exact trivial
  | ok _ => exact cut

variable {α β : Type}

/-- The computation ends in one way, and so many notices at most are all that it records. -/
def RecordsNotices (limit : Nat) (computation : ExceptT EvaluationError Journal α) : Prop :=
  ∃ outcome notices, CutOff limit notices ∧ ∀ earlier : Array Record,
    computation.run.run earlier = (outcome, earlier ++ (notices.map Record.stopped).toArray)

/-- A computation that stays within a bound stays within a higher one. -/
theorem RecordsNotices.mono {limit more : Nat} {computation : ExceptT EvaluationError Journal α}
    (records : RecordsNotices limit computation) (le : limit ≤ more) :
    RecordsNotices more computation := by
  obtain ⟨outcome, notices, cut, run⟩ := records
  exact ⟨outcome, notices, cut.mono le, run⟩

/-- A sequence records the notices of both of its parts. -/
theorem RecordsNotices.bind {limit more : Nat} {computation : ExceptT EvaluationError Journal α}
    {next : α → ExceptT EvaluationError Journal β} (first : RecordsNotices limit computation)
    (second : ∀ value, RecordsNotices more (next value)) :
    RecordsNotices (limit + more) (computation >>= next) := by
  obtain ⟨outcome, notices, cut, run⟩ := first
  have bound (earlier : Array Record) : (computation >>= next).run.run earlier =
      (let (outcome, reached) := computation.run.run earlier
       (ExceptT.bindCont next outcome).run reached) := rfl
  cases outcome with
  | error error =>
      refine ⟨.error error, notices, cut.mono (Nat.le_add_right _ _), fun earlier => ?_⟩
      rw [bound, run]
      rfl
  | ok value =>
      obtain ⟨last, others, cutLater, later⟩ := second value
      refine ⟨last, notices ++ others, cut.append cutLater, fun earlier => ?_⟩
      rw [bound, run, List.map_append, ← List.append_toArray, ← Array.append_assoc]
      exact later _

namespace ReversePolish

end ReversePolish

namespace Record

/-- A record is logged at its level with its message. -/
def line (item : Record) : Level × String := (item.level, item.message)

end Record

end Reckoner
