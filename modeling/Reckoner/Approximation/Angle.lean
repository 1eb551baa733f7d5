/-
This file brings angles into the half turns on either side of zero.
-/

import Reckoner.Scalar

namespace Reckoner.Angle

open Scalar

variable {α : Type} [Scalar α]

/-- The circumference of a circle divided by its diameter, as near as a double comes to it. -/
def pi : Float := 3.1415926535897932385

def halfTurn : α := ofFloat pi

def fullTurn : α := (2 : Nat) * halfTurn

def ofDegrees (degrees : Float) : Float := degrees * pi / 180.0

/-- There is no result for an angle so large that a turn less is the same angle. -/
@[specialize] def lower? (x : α) : Option α :=
  if halfTurn < x then
    let next := x - fullTurn
    if rank next < rank x then lower? next else none
  else some x
termination_by rank x

/-- The opposite angle is the one whose rank falls here. -/
@[specialize] def raise? (x : α) : Option α :=
  if x < -halfTurn then
    let next := x + fullTurn
    if rank (-next) < rank (-x) then raise? next else none
  else some x
termination_by rank (-x)

/-- Most turns are taken off together. -/
@[specialize] def nearby (x : α) : α :=
  if halfTurn < magnitude x then x - fullTurn * floor ((x + halfTurn) / fullTurn) else x

/-- The turns that rounding leaves are taken off one at a time. -/
@[specialize] def reduce? (x : α) : Option α := (lower? (nearby x)).bind raise?

end Reckoner.Angle
