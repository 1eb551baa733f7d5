/-
This file says who answers the calls of an expression.
-/

import Reckoner.Arithmetic
import Reckoner.Record

namespace Reckoner

/-- A context gives the value of each call. -/
structure Context (m : Type → Type) where
  call : ElementaryFunction → Float → ExceptT EvaluationError m Float

/-- Trigonometric functions take their arguments in this unit. -/
inductive AngleUnit where
  | radians
  | degrees
deriving DecidableEq

instance : Inhabited AngleUnit := ⟨.radians⟩

/-- Only angles are converted. -/
def AngleUnit.argument (unit : AngleUnit) (function : ElementaryFunction) (x : Float) : Float :=
  if function.isTrigonometric && unit = .degrees then Angle.ofDegrees x else x

/-- The approximations answer the calls of this context. -/
def builtins {m : Type → Type} [Monad m] [MonadRecord m] (unit : AngleUnit) : Context m where
  call function x := publish (function.apply (unit.argument function x))

end Reckoner
