/-
This file reads the tokens of a text.
-/

import Reckoner.Text.Digits
import Reckoner.Text.WhiteSpace
import Reckoner.Token

namespace Reckoner.Token

/-- A character outside numbers and names is a token of its own. -/
def ofCharacter : Char → Token
  | '(' => .leftParenthesis
  | ')' => .rightParenthesis
  | character =>
      match Operator.ofSymbol? character with
      | some sign => .operator sign
      | none => .unknown character

/-- The token takes as many characters as it can, and the others remain. -/
def next? (text : List Char) : Option (Token × List Char) :=
  match text.dropWhile isWhiteSpace with
  | [] => none
  | first :: rest =>
      if first.isDigit || first == '.' then
        let (digits, remaining) := Digits.span (first :: rest)
        some (.number (String.ofList digits.text), remaining)
      else if first.isAlpha then
        some (.identifier (String.ofList (first :: rest.takeWhile Char.isAlpha)),
          rest.dropWhile Char.isAlpha)
      else
        some (ofCharacter first, rest)

theorem length_lt_of_next {text remaining : List Char} {token : Token}
    (read : next? text = some (token, remaining)) : remaining.length < text.length := by
  have skipped := (List.dropWhile_sublist (l := text) isWhiteSpace).length_le
  unfold next? at read
  split at read
  · contradiction
  · next first rest start =>
      have word := (List.dropWhile_sublist (l := rest) Char.isAlpha).length_le
      rw [start, List.length_cons] at skipped
      split at read
      · next starts =>
          have number := Digits.length_span_lt rest starts
          obtain ⟨-, rfl⟩ : _ ∧ _ := by simpa using read
          exact Nat.lt_of_lt_of_le number skipped
      · split at read <;> obtain ⟨-, rfl⟩ : _ ∧ _ := by simpa using read
        · omega
        · omega

def scan (text : List Char) : List Token :=
  match read : next? text with
  | none => []
  | some (token, remaining) =>
      have := length_lt_of_next read
      token :: scan remaining
termination_by text.length

end Token

/-- No text is refused, since a character without a meaning is a token too. -/
def tokenize (source : String) : List Token := Token.scan source.toList

end Reckoner
