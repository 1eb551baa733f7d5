/-
This file counts the parentheses that have no partner.
-/

import Reckoner.Token

namespace Reckoner

/-- Each closing parenthesis pairs with the nearest open one before it. -/
structure Unpaired where
  closing : Nat
  opening : Nat
deriving DecidableEq

namespace Unpaired

def add (unpaired : Unpaired) : Token → Unpaired
  | .leftParenthesis => ⟨unpaired.closing, unpaired.opening + 1⟩
  | .rightParenthesis =>
      if unpaired.opening = 0 then ⟨unpaired.closing + 1, 0⟩
      else ⟨unpaired.closing, unpaired.opening - 1⟩
  | _ => unpaired

def ofTokens (tokens : List Token) : Unpaired := tokens.foldl add ⟨0, 0⟩

end Unpaired

/-- Each parenthesis of a balanced list has its partner. -/
def Balanced (tokens : List Token) : Prop := Unpaired.ofTokens tokens = ⟨0, 0⟩

end Reckoner
