/-
This file says which tokens write an expression, and which texts write tokens.
-/

import Reckoner.Expression
import Reckoner.Text.WhiteSpace

namespace Reckoner

/-- The tokens write the expression as an operand of the given precedence. All operators take what
stands on their left first, and parentheses are allowed around any expression. -/
inductive Expression.Renders : Nat → Expression → List Token → Prop where
  | number (level : Nat) (literal : String) : Renders level (.number literal) [.number literal]
  | binary {level : Nat} {operator : Operator} {left right : Expression}
      {leftTokens rightTokens : List Token} (binds : level ≤ operator.precedence) :
      Renders operator.precedence left leftTokens →
      Renders (operator.precedence + 1) right rightTokens →
      Renders level (.binary operator left right)
        (leftTokens ++ [.operator operator] ++ rightTokens)
  | call (level : Nat) (function : ElementaryFunction) {argument : Expression}
      {tokens : List Token} :
      Renders 0 argument tokens →
      Renders level (.call function argument)
        ([.call function, .leftParenthesis] ++ tokens ++ [.rightParenthesis])
  | parenthesised (level : Nat) {expression : Expression} {tokens : List Token} :
      Renders 0 expression tokens →
      Renders level expression ([.leftParenthesis] ++ tokens ++ [.rightParenthesis])

/-- White space may stand before each token and at the end. -/
inductive Token.Spells : List Token → List Char → Prop where
  | nil {blank : List Char} : (∀ character ∈ blank, isWhiteSpace character) → Spells [] blank
  | cons {blank text : List Char} {token : Token} {tokens : List Token} :
      (∀ character ∈ blank, isWhiteSpace character) → Spells tokens text →
      Spells (token :: tokens) (blank ++ token.text.toList ++ text)

end Reckoner
