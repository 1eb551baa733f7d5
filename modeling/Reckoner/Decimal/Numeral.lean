/-
This file reads number literals.
-/

import Reckoner.Decimal
import Reckoner.Text.Digits

namespace Reckoner.Decimal

def ofDigits (digits : List Char) : Nat :=
  digits.foldl (fun value digit => 10 * value + (digit.toNat - '0'.toNat)) 0

def readDigits? (text : List Char) : Option Nat :=
  if text ≠ [] ∧ text.all Char.isDigit then some (ofDigits text) else none

/-- Without a mark there is no exponent, and a mark needs digits behind it. -/
def readExponent? : List Char → Option Int
  | [] => some 0
  | mark :: rest =>
      if mark = 'e' ∨ mark = 'E' then
        match rest with
        | '-' :: digits => (readDigits? digits).map fun value => -(value : Int)
        | '+' :: digits => (readDigits? digits).map Int.ofNat
        | digits => (readDigits? digits).map Int.ofNat
      else none

/-- There has to be a digit before the point or after it. -/
def readDecimal? (text : List Char) : Option Decimal :=
  let (digits, rest) := Digits.span text
  if digits.whole = [] ∧ digits.fraction = [] then none
  else
    (readExponent? rest).map fun exponent =>
      ⟨ofDigits (digits.whole ++ digits.fraction), exponent - digits.fraction.length⟩

/-- The names of infinity and of the value that is no number may have letters of either case. -/
def readUnsigned? (text : List Char) : Option Float :=
  let name := text.map Char.toLower
  if name = "inf".toList ∨ name = "infinity".toList then some Binary64.infinity
  else if name = "nan".toList then some Binary64.nan
  else (readDecimal? text).map toFloat

def readFloat? (literal : String) : Option Float :=
  match literal.toList with
  | '-' :: rest => (readUnsigned? rest).map fun value => -value
  | '+' :: rest => readUnsigned? rest
  | rest => readUnsigned? rest

end Reckoner.Decimal
