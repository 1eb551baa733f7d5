/-
This file lists the binary operators and how tightly each of them binds.
-/

namespace Reckoner

/-- An operator stands between its two operands. -/
inductive Operator where
  | plus
  | minus
  | times
  | divide
  | power
deriving DecidableEq

namespace Operator

def symbol : Operator → Char
  | .plus => '+'
  | .minus => '-'
  | .times => '*'
  | .divide => '/'
  | .power => '^'

def text (operator : Operator) : String := String.singleton operator.symbol

def ofSymbol? : Char → Option Operator
  | '+' => some .plus
  | '-' => some .minus
  | '*' => some .times
  | '/' => some .divide
  | '^' => some .power
  | _ => none

/-- The operator of the higher precedence takes its operands first. -/
def precedence : Operator → Nat
  | .plus | .minus => 1
  | .times | .divide => 2
  | .power => 3

def arity (_ : Operator) : Nat := 2

/-- Every operator is read from its own symbol. -/
@[simp] theorem ofSymbol_symbol (operator : Operator) :
    ofSymbol? operator.symbol = some operator := by
  cases operator <;> rfl

/-- Nothing but its own symbol is read as an operator. -/
theorem symbol_of_ofSymbol {symbol : Char} {operator : Operator}
    (found : ofSymbol? symbol = some operator) : operator.symbol = symbol := by
  unfold ofSymbol? at found
  split at found <;> cases found <;> rfl

end Operator

end Reckoner
