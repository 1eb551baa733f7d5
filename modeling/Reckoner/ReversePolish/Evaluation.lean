/-
This file evaluates tokens whose operators stand behind their operands.
-/

import Reckoner.Context

namespace Reckoner.ReversePolish

variable {m : Type → Type} [Monad m] [MonadRecord m]

/-- Each token takes its operands off the values, the last one first, and puts its value there. -/
def step (context : Context m) (values : List Float) :
    Token → ExceptT EvaluationError m (List Float)
  | .number literal => return (← liftExcept (numberValue literal)) :: values
  | .identifier name =>
      match ElementaryFunction.ofName? name, values with
      | none, _ => throw (.invalidExpression (.unknownFunction name))
      | some _, [] => throw (.invalidExpression (.missingOperand name))
      | some function, argument :: rest => return (← context.call function argument) :: rest
  | .operator operator =>
      match values with
      | right :: left :: rest => return (← publish (operator.apply left right)) :: rest
      | _ => throw (.invalidExpression (.missingOperand operator.text))
  | token => throw (.invalidExpression (.unexpectedToken token.text))

/-- Exactly one value is left over at the end. -/
def finish : List Float → Except EvaluationError Float
  | [value] => .ok value
  | [] => .error (.invalidExpression .empty)
  | values => .error (.invalidExpression (.leftoverValues values.length))

def evaluate (context : Context m) (tokens : List Token) : ExceptT EvaluationError m Float := do
  liftExcept (finish (← tokens.foldlM (step context) []))

end Reckoner.ReversePolish
