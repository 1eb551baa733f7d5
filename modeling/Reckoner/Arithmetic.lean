/-
This file gives literals, operators and functions their values.
-/

import Reckoner.Approximation.Power
import Reckoner.Approximation.SquareRoot
import Reckoner.Approximation.Trigonometry
import Reckoner.Decimal.Numeral
import Reckoner.Operator

namespace Reckoner

/-- The literal of a token need not be the text of a number. -/
def numberValue (literal : String) : Except EvaluationError Float :=
  match Decimal.readFloat? literal with
  | some value => .ok value
  | none => .error (.malformedNumber literal)

/-- Nothing is divided by a zero of either sign. -/
def Operator.apply (operator : Operator) (left right : Float) :
    Except EvaluationError (Approximation Float) :=
  match operator with
  | .plus => .ok (.exact (left + right))
  | .minus => .ok (.exact (left - right))
  | .times => .ok (.exact (left * right))
  | .divide => if right == 0.0 then .error .divisionByZero else .ok (.exact (left / right))
  | .power => (Power.approximate left right).mapError .domain

/-- Angles are in radians. -/
def ElementaryFunction.apply (function : ElementaryFunction) (argument : Float) :
    Except EvaluationError (Approximation Float) :=
  match function with
  | .squareRoot => (SquareRoot.approximate SquareRoot.standard argument).mapError .domain
  | .sine => .ok (.exact (Trigonometry.sine Trigonometry.standard argument))
  | .cosine => .ok (.exact (Trigonometry.cosine Trigonometry.standard argument))
  | .tangent => ((Trigonometry.tangent argument).map .exact).mapError .domain
  | .logarithm => (Logarithm.approximate Logarithm.standard argument).mapError .domain
  | .exponential => .ok (Exponential.approximate Exponential.standard argument)

end Reckoner
