/-
This file approximates the trigonometric functions by Taylor series.
-/

import Reckoner.Approximation
import Reckoner.Approximation.Angle
import Reckoner.Failure
import Reckoner.Scalar.Binary64

namespace Reckoner.Trigonometry

open Scalar

variable {α : Type} [Scalar α]

/-- A term within the tolerance is left out with all that come after it. -/
def standard : Series α := ⟨ofFloat 1e-15, 100⟩

/-- Each term is made from the one before it by the factor of the step's number. -/
def addTerm (factor : Nat → α) (index : Nat) (reached : PartialSum α) : PartialSum α :=
  ⟨reached.sum + reached.term, reached.term * factor index⟩

def sum (series : Series α) (factor : Nat → α) (index : Nat) (term : α) : Run (PartialSum α) :=
  Run.untilSettled (fun reached => magnitude reached.term ≤ series.tolerance) (addTerm factor)
    series.limit index ⟨0, term⟩

def sineFactor (x : α) (index : Nat) : α :=
  let negated := -x * x
  let double : α := (2 : Nat) * (index : α)
  negated / (double * (double + 1))

def cosineFactor (x : α) (index : Nat) : α :=
  let negated := -x * x
  let double : α := (2 : Nat) * (index : α)
  negated / ((double + 1) * (double + (2 : Nat)))

/-- Infinite angles have no sine, and neither have those that cannot be reduced. -/
@[specialize] def sine? (series : Series α) (x : α) : Option α :=
  if isFinite x then
    (Angle.reduce? x).map fun angle => (sum series (sineFactor angle) 1 angle).state.sum
  else none

@[specialize] def cosine? (series : Series α) (x : α) : Option α :=
  if isFinite x then
    (Angle.reduce? x).map fun angle => (sum series (cosineFactor angle) 0 1).state.sum
  else none

def sine (series : Series Float) (x : Float) : Float := (sine? series x).getD Binary64.nan

def cosine (series : Series Float) (x : Float) : Float := (cosine? series x).getD Binary64.nan

/-- Below this magnitude a cosine counts as zero. -/
def poleWidth : Float := 1e-10

def tangent (x : Float) : Except DomainError Float :=
  let cosine := cosine standard x
  if magnitude cosine < poleWidth then .error .tangentPole else .ok (sine standard x / cosine)

end Reckoner.Trigonometry
