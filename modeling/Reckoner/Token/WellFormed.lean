/-
This file says which tokens a text can hold and where two texts run together.
-/

import Reckoner.Text.WhiteSpace
import Reckoner.Token

namespace Reckoner

/-- A literal is a run of digits with at most one point, and not empty. -/
def IsLiteral (text : List Char) : Prop :=
  text ≠ [] ∧ (∀ character ∈ text, character.isDigit ∨ character = '.') ∧ text.count '.' ≤ 1

/-- A word is a run of letters, and not empty. -/
def IsWord (text : List Char) : Prop := text ≠ [] ∧ ∀ character ∈ text, character.isAlpha

/-- The character is part of no other token and separates none. -/
def IsStranger (character : Char) : Prop :=
  ¬isWhiteSpace character ∧ ¬character.isDigit ∧ ¬character.isAlpha ∧
    character ∉ ['.', '(', ')'] ∧ Operator.ofSymbol? character = none

namespace Token

/-- A well-formed token is one that some text is read as. -/
def WellFormed : Token → Prop
  | .number literal => IsLiteral literal.toList
  | .identifier name => IsWord name.toList
  | .operator _ | .leftParenthesis | .rightParenthesis => True
  | .unknown character => IsStranger character

end Token

end Reckoner
