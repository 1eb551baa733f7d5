/-
This file approximates square roots by the means of a guess and the quotient by it.
-/

import Reckoner.Approximation
import Reckoner.Failure

namespace Reckoner.SquareRoot

open Scalar

variable {α : Type} [Scalar α]

/-- Two guesses are close when they differ by less than the tolerance. -/
def standard : Series α := ⟨ofFloat 1e-10, 1000⟩

def improve (x guess : α) : α := (guess + x / guess) / (2 : Nat)

/-- The number itself is the first guess. -/
def approximate (series : Series α) (x : α) : Except DomainError (Approximation α) :=
  if x < 0 then .error .negativeRadicand
  else if x ≤ 0 || !isFinite x then .ok (.exact x)
  else
    let run := Run.untilClose (fun guess next => magnitude (guess - next) < series.tolerance)
      (fun _ guess => improve x guess) series.limit 0 x
    .ok ⟨run.state, run.notices .squareRoot x series.limit⟩

end Reckoner.SquareRoot
