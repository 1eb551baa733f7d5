/-
This file says what the evaluation of one token can end with.
-/

import Reckoner.Proofs.Outcome
import Reckoner.ReversePolish.Evaluation

namespace Reckoner.ReversePolish

variable {m : Type → Type} [Monad m] [LawfulMonad m] [MonadAttach m] [LawfulMonadAttach m]
variable [MonadRecord m]

/-- A token finds the values of its operands on top and replaces them by its own, or it fails. -/
inductive StepEnds (context : Context m) :
    List Float → Token → Except EvaluationError (List Float) → Prop where
  | number {values : List Float} {literal : String} {value : Float} :
      numberValue literal = .ok value →
      StepEnds context values (.number literal) (.ok (value :: values))
  | malformed {values : List Float} {literal : String} {error : EvaluationError} :
      numberValue literal = .error error →
      StepEnds context values (.number literal) (.error error)
  | called {function : ElementaryFunction} {argument value : Float} {values : List Float} :
      Ends (context.call function argument) (.ok value) →
      StepEnds context (argument :: values) (.call function) (.ok (value :: values))
  | refused {function : ElementaryFunction} {argument : Float} {values : List Float}
      {error : EvaluationError} :
      Ends (context.call function argument) (.error error) →
      StepEnds context (argument :: values) (.call function) (.error error)
  | missingArgument (function : ElementaryFunction) :
      StepEnds context [] (.call function)
        (.error (.invalidExpression (.missingOperand function.name)))
  | unknownFunction {values : List Float} {name : String} :
      ElementaryFunction.ofName? name = none →
      StepEnds context values (.identifier name)
        (.error (.invalidExpression (.unknownFunction name)))
  | applied {operator : Operator} {left right value : Float} {values : List Float} :
      (operator.apply left right).map Approximation.value = .ok value →
      StepEnds context (right :: left :: values) (.operator operator) (.ok (value :: values))
  | inapplicable {operator : Operator} {left right : Float} {values : List Float}
      {error : EvaluationError} :
      operator.apply left right = .error error →
      StepEnds context (right :: left :: values) (.operator operator) (.error error)
  | missingOperand {operator : Operator} {values : List Float} :
      values.length < operator.arity →
      StepEnds context values (.operator operator)
        (.error (.invalidExpression (.missingOperand operator.text)))
  | parenthesis {values : List Float} {token : Token} :
      token ∈ [.leftParenthesis, .rightParenthesis] →
      StepEnds context values token (.error (.invalidExpression (.unexpectedToken token.text)))
  | unknownCharacter {values : List Float} (character : Char) :
      StepEnds context values (.unknown character)
        (.error (.invalidExpression (.unexpectedToken (Token.unknown character).text)))

theorem StepEnds.of_ends {context : Context m} {values : List Float} {token : Token}
    {outcome : Except EvaluationError (List Float)}
    (ends : Ends (step context values token) outcome) : StepEnds context values token outcome := by
  cases token with
  | number literal =>
      rcases ends.of_bind with ⟨error, failed, rfl⟩ | ⟨value, read, pushed⟩
      · exact .malformed failed.of_liftExcept.symm
      · cases pushed.of_pure
        exact .number read.of_liftExcept.symm
  | identifier name =>
      simp only [step] at ends
      split at ends
      · next unknown =>
          cases ends.of_throw
          exact .unknownFunction unknown
      · next function found =>
          cases ends.of_throw
          obtain rfl := ElementaryFunction.name_of_ofName found
          exact .missingArgument function
      · next function argument rest found =>
          obtain rfl := ElementaryFunction.name_of_ofName found
          rcases ends.of_bind with ⟨error, failed, rfl⟩ | ⟨value, answered, pushed⟩
          · exact .refused failed
          · cases pushed.of_pure
            exact .called answered
  | operator sign =>
      match values with
      | right :: left :: rest =>
          rcases ends.of_bind with ⟨error, failed, rfl⟩ | ⟨value, published, pushed⟩
          · exact .inapplicable failed.error_of_publish
          · cases pushed.of_pure
            exact .applied published.of_publish.symm
      | [] =>
          cases ends.of_throw
          exact .missingOperand Nat.zero_lt_two
      | [_] =>
          cases ends.of_throw
          exact .missingOperand Nat.one_lt_two
  | leftParenthesis =>
      cases ends.of_throw
      exact .parenthesis (by simp)
  | rightParenthesis =>
      cases ends.of_throw
      exact .parenthesis (by simp)
  | unknown character =>
      cases ends.of_throw
      exact .unknownCharacter character

variable {context : Context m} {tokens : List Token} {values : List Float}

/-- A run ends with the failure of its first token, or as the others end from what that leaves. -/
theorem of_foldlM_step_cons {token : Token} {outcome : Except EvaluationError (List Float)}
    (ends : Ends ((token :: tokens).foldlM (step context) values) outcome) :
    (∃ error, StepEnds context values token (.error error) ∧ outcome = .error error) ∨
      ∃ middle, StepEnds context values token (.ok middle) ∧
        Ends (tokens.foldlM (step context) middle) outcome := by
  rw [List.foldlM_cons] at ends
  rcases ends.of_bind with ⟨error, failed, same⟩ | ⟨middle, first, others⟩
  · exact .inl ⟨error, .of_ends failed, same⟩
  · exact .inr ⟨middle, .of_ends first, others⟩

/-- A run succeeds only where its first token does. -/
theorem of_foldlM_step_cons_ok {token : Token} {reached : List Float}
    (ends : Ends ((token :: tokens).foldlM (step context) values) (.ok reached)) :
    ∃ middle, StepEnds context values token (.ok middle) ∧
      Ends (tokens.foldlM (step context) middle) (.ok reached) := by
  rcases of_foldlM_step_cons ends with ⟨error, _, failed⟩ | succeeded
  · contradiction
  · exact succeeded

/-- A run that fails does so at one of its tokens. -/
theorem exists_of_foldlM_step_error {error : EvaluationError}
    (ends : Ends (tokens.foldlM (step context) values) (.error error)) :
    ∃ token ∈ tokens, ∃ reached, StepEnds context reached token (.error error) := by
  induction tokens generalizing values with
  | nil => cases ends.of_pure
  | cons token rest ih =>
      rcases of_foldlM_step_cons ends with ⟨error, first, same⟩ | ⟨middle, _, others⟩
      · cases same
        exact ⟨token, List.mem_cons_self, values, first⟩
      · obtain ⟨later, member, failed⟩ := ih others
        exact ⟨later, List.mem_cons_of_mem _ member, failed⟩

/-- No token fails in a run that succeeds. -/
theorem forall_of_foldlM_step_ok {reached : List Float}
    (ends : Ends (tokens.foldlM (step context) values) (.ok reached)) :
    ∀ token ∈ tokens, ∃ before after, StepEnds context before token (.ok after) := by
  induction tokens generalizing values with
  | nil => simp
  | cons token rest ih =>
      obtain ⟨middle, first, others⟩ := of_foldlM_step_cons_ok ends
      exact List.forall_mem_cons.mpr ⟨⟨values, middle, first⟩, ih others⟩

/-- An evaluation fails with its run, or finishes with the values that the run leaves. -/
theorem of_evaluate {outcome : Except EvaluationError Float}
    (ends : Ends (evaluate context tokens) outcome) :
    (∃ error, Ends (tokens.foldlM (step context) []) (.error error) ∧ outcome = .error error) ∨
      ∃ reached, Ends (tokens.foldlM (step context) []) (.ok reached) ∧
        outcome = finish reached := by
  rcases ends.of_bind with failed | ⟨reached, run, finished⟩
  · exact .inl failed
  · exact .inr ⟨reached, run, finished.of_liftExcept⟩

end Reckoner.ReversePolish
