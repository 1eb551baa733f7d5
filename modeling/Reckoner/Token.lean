/-
This file defines the lexical items of an expression and the text that each of them stands for.
-/

import Reckoner.ElementaryFunction
import Reckoner.Operator

namespace Reckoner

/-- A token keeps the text it was read from. -/
inductive Token where
  | number (literal : String)
  | identifier (name : String)
  | operator (operator : Operator)
  | leftParenthesis
  | rightParenthesis
  /-- The character means nothing in an expression. -/
  | unknown (character : Char)
deriving DecidableEq

namespace Token

def call (function : ElementaryFunction) : Token := .identifier function.name

def text : Token → String
  | .number literal => literal
  | .identifier name => name
  | .operator sign => sign.text
  | .leftParenthesis => "("
  | .rightParenthesis => ")"
  | .unknown character => String.singleton character

/-- A single space stands between two neighbouring tokens. -/
def joined (tokens : List Token) : String := " ".intercalate (tokens.map text)

end Token

end Reckoner
