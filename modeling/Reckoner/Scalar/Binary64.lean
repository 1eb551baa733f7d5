/-
This file makes the doubles a scalar type. A finite double is a whole mantissa times a power of
two, and what is whole about it and what it leaves is read off the two.
-/

import Reckoner.Scalar

namespace Reckoner.Binary64

open Float.Model (UnpackedFloat Format)
open Float.Model.UnpackedFloat (normalize)

/-- The whole part of `mantissa` times two to the `exponent`, and whether a fraction is left. -/
def wholePart (mantissa : Nat) (exponent : Int) : Nat × Bool :=
  if 0 ≤ exponent then (mantissa <<< exponent.toNat, false)
  else
    let places := (-exponent).toNat
    (mantissa >>> places, mantissa % (1 <<< places) != 0)

/-- The greatest whole number that is not above `x`. -/
def floor (x : Float) : Float :=
  match x.toModel.unpack with
  | .finite sign mantissa exponent _ =>
      match sign, wholePart mantissa exponent with
      | _, (_, false) => x
      | .positive, (whole, true) => Float.ofNat whole
      | .negative, (whole, true) => -Float.ofNat (whole + 1)
  | _ => x

def nan : Float := 0.0 / 0.0

def infinity : Float := 1.0 / 0.0

/-- What is left of `x` when all whole multiples of `y` that are in it are taken off. It has the
sign of `x`, and takes no rounding. -/
def remainder (x y : Float) : Float :=
  match x.toModel.unpack, y.toModel.unpack with
  | .finite sign mantissa exponent _, .finite _ divisor divisorExponent _ =>
      let lowest := min exponent divisorExponent
      let rest := (mantissa <<< (exponent - lowest).toNat) %
        (divisor <<< (divisorExponent - lowest).toNat)
      Float.ofModel (.pack (normalize Format.binary64 (sign.apply rest) lowest sign))
  | .zero _, .finite _ _ _ _ | .zero _, .infinity _ | .finite _ _ _ _, .infinity _ => x
  | _, _ => nan

instance instModDouble : Mod Float := ⟨remainder⟩

/-- The bits of the doubles from zero up are in the order of the doubles. -/
@[inline] def rank (x : Float) : Nat :=
  if x.toBits < 0x8000000000000000 then x.toBits.toNat else 0

instance : Scalar Float where
  zero := 0.0
  one := 1.0
  natCast := Float.ofNat
  decideLess := Float.decLt
  decideAtMost := Float.decLe
  isFinite := Float.isFinite
  floor := floor
  rank := rank
  ofFloat x := x

end Reckoner.Binary64
