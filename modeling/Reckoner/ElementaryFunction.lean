/-
This file lists the functions that an expression may call by name.
-/

namespace Reckoner

/-- A function of one argument. -/
inductive ElementaryFunction where
  | squareRoot
  | sine
  | cosine
  | tangent
  | logarithm
  | exponential
deriving DecidableEq

namespace ElementaryFunction

def all : List ElementaryFunction :=
  [.squareRoot, .sine, .cosine, .tangent, .logarithm, .exponential]

/-- The logarithm is the natural one. -/
def name : ElementaryFunction → String
  | .squareRoot => "sqrt"
  | .sine => "sin"
  | .cosine => "cos"
  | .tangent => "tan"
  | .logarithm => "log"
  | .exponential => "exp"

/-- Capital and small letters differ in a name. -/
def ofName? (name : String) : Option ElementaryFunction :=
  all.find? fun function => function.name == name

def arity (_ : ElementaryFunction) : Nat := 1

/-- The argument of a trigonometric function is an angle. -/
def isTrigonometric : ElementaryFunction → Bool
  | .sine | .cosine | .tangent => true
  | .squareRoot | .logarithm | .exponential => false

@[simp] theorem ofName_name (function : ElementaryFunction) :
    ofName? function.name = some function := by
  cases function <;> decide

theorem name_of_ofName {text : String} {function : ElementaryFunction}
    (found : ofName? text = some function) : function.name = text := by
  simpa using List.find?_some found

end ElementaryFunction

end Reckoner
