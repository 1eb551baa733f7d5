/-
This file evaluates expressions from their text.
-/

import Reckoner.ReversePolish
import Reckoner.ReversePolish.Evaluation
import Reckoner.Token.Scan

namespace Reckoner

variable {m : Type → Type} [Monad m] [MonadRecord m]

def recordedTokens (source : String) : m (List Token) := do
  let tokens := tokenize source
  record (.tokenized source tokens)
  return tokens

def recordedReversePolish (tokens : List Token) : m (List Token) := do
  (List.replicate (ReversePolish.unclosed tokens) Record.droppedParenthesis).forM record
  let reordered := ReversePolish.ofTokens tokens
  record (.reordered reordered)
  return reordered

/-- The context answers the calls, and each stage goes on record. -/
def evaluateWith (context : Context m) (source : String) : m (Except EvaluationError Float) := do
  let tokens ← recordedTokens source
  let reordered ← recordedReversePolish tokens
  let result ← (ReversePolish.evaluate context reordered).run
  record (.outcome source result)
  return result

/-- Angles are in radians. -/
def evaluate (source : String) : Except EvaluationError Float :=
  evaluateWith (m := Id) (builtins default) source

end Reckoner
