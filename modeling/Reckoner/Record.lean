/-
This file lists what an evaluation records on its way.
-/

import Reckoner.Approximation
import Reckoner.Decimal.Shortest
import Reckoner.Failure
import Reckoner.Token

namespace Reckoner

/-- An evaluation records its stages, what it passed over, and its outcome. -/
inductive Record where
  | tokenized (source : String) (tokens : List Token)
  | droppedParenthesis
  | reordered (tokens : List Token)
  | stopped (notice : Notice Float)
  | outcome (source : String) (result : Except EvaluationError Float)

/-- The trace follows the stages, and the debug level shows outcomes and oddities. -/
inductive Level where
  | debug
  | trace

def Level.name : Level → String
  | .debug => "debug"
  | .trace => "trace"

/-- A square root is reached by iterations, and all else by terms of a sum. -/
def Notice.unit (notice : Notice Float) : String :=
  if notice.function = .squareRoot then "iterations" else "terms"

def Notice.message (notice : Notice Float) : String :=
  notice.function.name ++ "(" ++ shortestText notice.argument ++ ") stopped after " ++
    toString notice.limit ++ " " ++ notice.unit ++ " without converging"

namespace Record

def level : Record → Level
  | .tokenized _ _ | .reordered _ => .trace
  | .droppedParenthesis | .stopped _ | .outcome _ _ => .debug

def message : Record → String
  | .tokenized source tokens =>
      "Tokenized \"" ++ source ++ "\" as [" ++ Token.joined tokens ++ "]"
  | .droppedParenthesis => "Dropping an unmatched \"(\""
  | .reordered tokens => "Postfix form: [" ++ Token.joined tokens ++ "]"
  | .stopped notice => notice.message
  | .outcome source (.ok value) => "\"" ++ source ++ "\" = " ++ shortestText value
  | .outcome source (.error error) =>
      "Unable to evaluate \"" ++ source ++ "\": " ++ error.message

end Record

/-- A monad of this class does something with each record, if only to drop it. -/
class MonadRecord (m : Type → Type) where
  record : Record → m Unit

export MonadRecord (record)

/-- A monad over a recording one records there. -/
instance (priority := low) {m n : Type → Type} [MonadLift m n] [MonadRecord m] :
    MonadRecord n where
  record item := liftM (n := n) (record item : m Unit)

/-- The records are dropped where there is no place for them. -/
instance : MonadRecord Id where
  record _ := ()

/-- A journal keeps the records in their order. -/
abbrev Journal := StateM (Array Record)

instance : MonadRecord Journal where
  record item := modify fun records => records.push item

/-- The notices of an approximation go on record before its value is used. -/
def publish {m : Type → Type} [Monad m] [MonadRecord m]
    (outcome : Except EvaluationError (Approximation Float)) :
    ExceptT EvaluationError m Float := do
  let approximation ← liftExcept outcome
  approximation.notices.forM fun notice => record (.stopped notice)
  return approximation.value

end Reckoner
