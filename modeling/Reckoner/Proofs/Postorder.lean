/-
This file builds expressions from tokens in reverse Polish order, which can be read in one way.
-/

import Reckoner.Expression

namespace Reckoner.Expression

/-- Each token takes its operands off the expressions, the last one first, and puts a tree there. -/
def build? (stack : List Expression) : Token → Option (List Expression)
  | .number literal => some (.number literal :: stack)
  | .identifier name =>
      match ElementaryFunction.ofName? name, stack with
      | some function, argument :: rest => some (.call function argument :: rest)
      | _, _ => none
  | .operator operator =>
      match stack with
      | right :: left :: rest => some (.binary operator left right :: rest)
      | _ => none
  | _ => none

@[simp] theorem build_call (function : ElementaryFunction) (argument : Expression)
    (rest : List Expression) :
    build? (argument :: rest) (.call function) = some (.call function argument :: rest) := by
  simp [build?, Token.call]

/-- The tokens of all expressions, from the bottom of the stack to its top. -/
def written (stack : List Expression) : List Token := stack.reverse.flatMap reversePolish

@[simp] theorem written_cons (top : Expression) (stack : List Expression) :
    written (top :: stack) = written stack ++ top.reversePolish := by
  simp [written]

/-- The tokens of an expression put it on top of the stack. -/
theorem foldlM_build_reversePolish (expression : Expression) (stack : List Expression) :
    expression.reversePolish.foldlM build? stack = some (expression :: stack) := by
  induction expression generalizing stack with
  | number literal => rfl
  | binary operator left right leftIH rightIH =>
      simp [reversePolish, List.foldlM_append, leftIH, rightIH, build?]
  | call function argument ih =>
      simp [reversePolish, List.foldlM_append, ih]

/-- A token that is taken in is the last token of the new stack. -/
theorem written_of_build {stack reached : List Expression} {token : Token}
    (built : build? stack token = some reached) : written reached = written stack ++ [token] := by
  unfold build? at built
  split at built
  · obtain rfl := Option.some.inj built
    simp [reversePolish]
  · split at built
    · next name _ _ function argument rest found =>
        obtain rfl := Option.some.inj built
        simp [reversePolish, Token.call, ElementaryFunction.name_of_ofName found]
    · contradiction
  · split at built
    · obtain rfl := Option.some.inj built
      simp [reversePolish]
    · contradiction
  · contradiction

/-- The stack that is reached has the tokens that were taken in. -/
theorem written_of_foldlM_build {stack reached : List Expression} {tokens : List Token}
    (built : tokens.foldlM build? stack = some reached) :
    written reached = written stack ++ tokens := by
  induction tokens generalizing stack with
  | nil => simp_all
  | cons token rest ih =>
      rw [List.foldlM_cons] at built
      obtain ⟨middle, first, others⟩ := Option.bind_eq_some_iff.mp built
      rw [ih others, written_of_build first, List.append_assoc, List.singleton_append]

/-- The tokens build one expression exactly when they are its tokens. -/
theorem foldlM_build_iff {expression : Expression} {tokens : List Token} :
    tokens.foldlM build? [] = some [expression] ↔ expression.reversePolish = tokens := by
  constructor
  · intro built
    simpa [written] using written_of_foldlM_build built
  · intro same
    rw [← same]
    exact foldlM_build_reversePolish expression []

/-- No two expressions have the same tokens. -/
theorem reversePolish_injective : Function.Injective reversePolish := by
  intro first second same
  have built := foldlM_build_reversePolish first []
  rw [same, foldlM_build_reversePolish] at built
  simpa using built.symm

end Reckoner.Expression
