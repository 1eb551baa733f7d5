/-
This file holds what the approximations share: when one of them ends, and what it tells of its end.
-/

import Reckoner.ElementaryFunction
import Reckoner.Scalar

namespace Reckoner

/-- An approximation ends within its tolerance, or at the limit of its steps. -/
structure Series (α : Type) where
  tolerance : α
  limit : Nat

/-- A notice tells that a function reached its limit of steps outside its tolerance. -/
structure Notice (α : Type) where
  function : ElementaryFunction
  argument : α
  limit : Nat

/-- The notices come in the order in which the limits were reached. -/
structure Approximation (α : Type) where
  value : α
  notices : List (Notice α)

namespace Approximation

variable {α : Type}

/-- Nothing is left open about an exact value. -/
def exact (value : α) : Approximation α := ⟨value, []⟩

def map (f : α → α) (approximation : Approximation α) : Approximation α :=
  ⟨f approximation.value, approximation.notices⟩

end Approximation

/-- A run has reached its last state, and may have been cut off there. -/
structure Run (σ : Type) where
  state : σ
  converged : Bool

namespace Run

variable {σ : Type}

/-- The run takes numbered steps and ends at the first state that is settled. -/
@[specialize] def untilSettled (settled : σ → Bool) (step : Nat → σ → σ) :
    (limit index : Nat) → σ → Run σ
  | 0, _, state => ⟨state, false⟩
  | limit + 1, index, state =>
      if settled state then ⟨state, true⟩
      else untilSettled settled step limit (index + 1) (step index state)

/-- The run takes numbered steps and ends after the first one between close states. -/
@[specialize] def untilClose (close : σ → σ → Bool) (step : Nat → σ → σ) :
    (limit index : Nat) → σ → Run σ
  | 0, _, state => ⟨state, false⟩
  | limit + 1, index, state =>
      let next := step index state
      if close state next then ⟨next, true⟩
      else untilClose close step limit (index + 1) next

def notices {α : Type} (run : Run σ) (function : ElementaryFunction) (argument : α)
    (limit : Nat) : List (Notice α) :=
  if run.converged then [] else [⟨function, argument, limit⟩]

end Run

/-- The term is the one from which the next term is made. -/
structure PartialSum (α : Type) where
  sum : α
  term : α

end Reckoner
