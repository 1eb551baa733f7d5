/-
This file approximates the natural logarithm. With the ratio `r` of `x - 1` to `x + 1`, it is twice
the sum of the odd powers of `r`, each divided by its exponent.
-/

import Reckoner.Approximation
import Reckoner.Failure

namespace Reckoner.Logarithm

open Scalar

variable {α : Type} [Scalar α]

/-- A power within the tolerance is left out with all that come after it. -/
def standard : Series α := ⟨ofFloat 1e-15, 1000⟩

def ratio (x : α) : α := (x - 1) / (x + 1)

/-- The term is the power before it is divided. The divisor fits in a machine word in every round
with a number below `2 ^ 63`. -/
def addTerm (ratioSquared : α) (index : Nat) (reached : PartialSum α) : PartialSum α :=
  ⟨reached.sum + reached.term / ((2 * index + 1 : Nat) : α), reached.term * ratioSquared⟩

def approximate (series : Series α) (x : α) : Except DomainError (Approximation α) :=
  if x ≤ 0 then .error .nonPositiveLogarithm
  else if !isFinite x then .ok (.exact x)
  else
    let run := Run.untilSettled (fun reached => magnitude reached.term ≤ series.tolerance)
      (addTerm (ratio x * ratio x)) series.limit 0 ⟨0, ratio x⟩
    .ok ⟨((2 : Nat) : α) * run.state.sum, run.notices .logarithm x series.limit⟩

end Reckoner.Logarithm
