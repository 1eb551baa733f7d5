/-
This file approximates the exponential function by its Taylor series.
-/

import Reckoner.Approximation

namespace Reckoner.Exponential

open Scalar

variable {α : Type} [Scalar α]

/-- The exponential of one. -/
def base : Float := 2.7182818284590452354

/-- A term within the tolerance is the last one. -/
def standard : Series α := ⟨ofFloat 1e-15, 1000⟩

def addTerm (x : α) (index : Nat) (reached : PartialSum α) : PartialSum α :=
  let term := reached.term * (x / (index : α))
  ⟨reached.sum + term, term⟩

def sum (series : Series α) (x : α) : Approximation α :=
  let run := Run.untilClose (fun _ next => magnitude next.term ≤ series.tolerance)
    (addTerm x) series.limit 1 ⟨1, 1⟩
  ⟨run.state.sum, run.notices .exponential x series.limit⟩

/-- No term of the sum is negative, since a negative number takes the reciprocal of its opposite. -/
def approximate (series : Series α) (x : α) : Approximation α :=
  if !isNumber x then .exact x
  else if x < 0 then (sum series (-x)).map fun value => 1 / value
  else sum series x

end Reckoner.Exponential
