/-
This file lists the causes for which an expression has no value, and the message of each.
-/

import Reckoner.ElementaryFunction

namespace Reckoner

/-- An argument lies outside the range that a function is defined for. Whoever answers a call may
give a reason of their own. -/
structure DomainError where
  functionName : String
  reason : String
deriving DecidableEq

namespace DomainError

def negativeRadicand : DomainError :=
  ⟨ElementaryFunction.squareRoot.name, "square root of a negative number"⟩

def nonPositiveLogarithm : DomainError :=
  ⟨ElementaryFunction.logarithm.name, "logarithm of a non-positive number"⟩

def fractionalPowerOfNegative : DomainError :=
  ⟨"pow", "negative base with a non-integer exponent"⟩

def tangentPole : DomainError :=
  ⟨ElementaryFunction.tangent.name, "tangent is undefined where the cosine is zero"⟩

def message (error : DomainError) : String := error.functionName ++ ": " ++ error.reason

end DomainError

/-- The tokens do not describe exactly one value. -/
inductive Malformed where
  | empty
  | missingOperand (token : String)
  | leftoverValues (count : Nat)
  | unknownFunction (name : String)
  | unexpectedToken (token : String)
deriving DecidableEq

def Malformed.message : Malformed → String
  | .empty => "nothing to evaluate"
  | .missingOperand token => "\"" ++ token ++ "\" is missing an operand"
  | .leftoverValues count => toString count ++ " values were left over"
  | .unknownFunction name => "unknown function \"" ++ name ++ "\""
  | .unexpectedToken token => "unexpected \"" ++ token ++ "\""

/-- The first failure ends an evaluation. -/
inductive EvaluationError where
  | domain (error : DomainError)
  | divisionByZero
  | invalidExpression (defect : Malformed)
  | malformedNumber (literal : String)
deriving DecidableEq

def EvaluationError.message : EvaluationError → String
  | .domain error => error.message
  | .divisionByZero => "Division by zero"
  | .invalidExpression defect => "Invalid expression: " ++ defect.message
  | .malformedNumber literal => "Malformed number \"" ++ literal ++ "\""

end Reckoner
