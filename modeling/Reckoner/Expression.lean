/-
This file holds expressions as trees, with their tokens in reverse Polish order and their values.
-/

import Reckoner.Context

namespace Reckoner

/-- An expression is a literal, or an operator or function with its operands. -/
inductive Expression where
  | number (literal : String)
  | binary (operator : Operator) (left right : Expression)
  | call (function : ElementaryFunction) (argument : Expression)
deriving DecidableEq

namespace Expression

/-- The operands come before what takes them. -/
def reversePolish : Expression → List Token
  | .number literal => [.number literal]
  | .binary operator left right =>
      left.reversePolish ++ right.reversePolish ++ [.operator operator]
  | .call function argument => argument.reversePolish ++ [.call function]

/-- Two values are combined as the operator says. Nothing is divided by a zero of either sign, and a
power is that of the approximation, whose notices go on record. -/
def combine {m : Type → Type} [Monad m] [MonadRecord m] (left right : Float) :
    Operator → ExceptT EvaluationError m Float
  | .plus => return left + right
  | .minus => return left - right
  | .times => return left * right
  | .divide => if right == 0.0 then throw .divisionByZero else return left / right
  | .power => publish ((Power.approximate left right).mapError .domain)

/-- The left operand has its value before the right one does. -/
def value {m : Type → Type} [Monad m] [MonadRecord m] (context : Context m) :
    Expression → ExceptT EvaluationError m Float
  | .number literal => liftExcept (numberValue literal)
  | .binary operator left right => do
      let leftValue ← left.value context
      let rightValue ← right.value context
      combine leftValue rightValue operator
  | .call function argument => do
      let argumentValue ← argument.value context
      context.call function argumentValue

end Expression

end Reckoner
