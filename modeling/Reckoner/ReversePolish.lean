/-
This file puts each operator and function name behind its operands.
-/

import Reckoner.Token

namespace Reckoner

/-- A pending item waits for the end of its operands. -/
inductive Pending where
  | operator (operator : Operator)
  | function (function : ElementaryFunction)
  | parenthesis
deriving DecidableEq

namespace Pending

/-- A parenthesis leaves nothing behind. -/
def token? : Pending → Option Token
  | .operator sign => some (.operator sign)
  | .function called => some (.call called)
  | .parenthesis => none

/-- Items are released down to an open parenthesis, with the function that it belongs to. -/
def closeGroup : List Pending → List Token × List Pending
  | [] => ([], [])
  | .parenthesis :: .function called :: rest => ([.call called], rest)
  | .parenthesis :: rest => ([], rest)
  | .operator sign :: rest =>
      let (released, remaining) := closeGroup rest
      (.operator sign :: released, remaining)
  | .function called :: rest =>
      let (released, remaining) := closeGroup rest
      (.call called :: released, remaining)

/-- Of two neighbouring operators that bind equally the left one goes first. -/
def yieldTo (incoming : Operator) : List Pending → List Token × List Pending
  | .operator sign :: rest =>
      if sign.precedence < incoming.precedence then ([], .operator sign :: rest)
      else
        let (released, remaining) := yieldTo incoming rest
        (.operator sign :: released, remaining)
  | pending => ([], pending)

/-- A token releases some of the pending items and may become pending itself. -/
def step (pending : List Pending) : Token → List Token × List Pending
  | .leftParenthesis => ([], .parenthesis :: pending)
  | .rightParenthesis => closeGroup pending
  | .operator sign =>
      let (released, remaining) := yieldTo sign pending
      (released, .operator sign :: remaining)
  | .identifier name =>
      match ElementaryFunction.ofName? name with
      | some called => ([], .function called :: pending)
      | none => ([.identifier name], pending)
  | operand => ([operand], pending)

/-- The released tokens come out in their order, and what is pending at the end stays so. -/
def feed (pending : List Pending) : List Token → List Token × List Pending
  | [] => ([], pending)
  | token :: rest =>
      let (released, remaining) := step pending token
      let (output, last) := feed remaining rest
      (released ++ output, last)

end Pending

namespace ReversePolish

/-- No token is refused. A parenthesis without a partner reaches to the end that it
faces. -/
def ofTokens (tokens : List Token) : List Token :=
  let (output, pending) := Pending.feed [] tokens
  output ++ pending.filterMap Pending.token?

/-- The number of parentheses that are still open at the end. -/
def unclosed (tokens : List Token) : Nat := (Pending.feed [] tokens).2.count .parenthesis

end ReversePolish

end Reckoner
