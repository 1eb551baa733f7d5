/-
This file lists what the approximations ask of their numbers. A method is written once and runs on
doubles, where every operation rounds, and on fractions, where none does.
-/

namespace Reckoner

/-- A scalar type has the four operations, an order and a value for each double. -/
class Scalar (α : Type) extends Zero α, One α, NatCast α, Neg α, Add α, Sub α, Mul α, Div α,
    LT α, LE α where
  decideLess : DecidableLT α
  decideAtMost : DecidableLE α
  isFinite : α → Bool
  floor : α → α
  /-- The rank of a number above one exceeds that of any number less by one or more. -/
  rank : α → Nat
  ofFloat : Float → α

namespace Scalar

variable {α : Type} [Scalar α]

@[reducible] instance (priority := low) instDecidableLess : DecidableLT α := decideLess

@[reducible] instance (priority := low) instDecidableAtMost : DecidableLE α := decideAtMost

/-- Zero keeps its sign. -/
def magnitude (x : α) : α := if x < 0 then -x else x

/-- Nothing but a number is at most itself. -/
def isNumber (x : α) : Bool := x ≤ x

end Scalar

end Reckoner
