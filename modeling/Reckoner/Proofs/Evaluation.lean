/-
This file shows that the tokens with a value are those of one expression, whose value it is.
-/

import Reckoner.Proofs.Postorder
import Reckoner.Proofs.Step

namespace Reckoner

open Expression

namespace ReversePolish

/-- A step that succeeds on values succeeds on any expressions in their places. -/
theorem build_of_step {m : Type → Type} [MonadAttach m] {context : Context m}
    {values reached : List Float} {token : Token}
    (ends : StepEnds context values token (.ok reached)) {stack : List Expression}
    (places : stack.length = values.length) :
    ∃ built, build? stack token = some built ∧ built.length = reached.length := by
  cases ends with
  | number _ => exact ⟨_, rfl, by simp [places]⟩
  | @called function argument value rest _ =>
      obtain ⟨below, others, rfl⟩ := List.exists_cons_of_length_eq_add_one places
      exact ⟨.call function below :: others, build_call function below others,
        by simpa using places⟩
  | @applied operator left right value rest _ =>
      obtain ⟨above, under, rfl⟩ := List.exists_cons_of_length_eq_add_one places
      rw [List.length_cons, List.length_cons, Nat.succ_inj] at places
      obtain ⟨below, others, rfl⟩ := List.exists_cons_of_length_eq_add_one places
      exact ⟨_, rfl, by simpa using places⟩

section

variable {m : Type → Type} [Monad m] [MonadRecord m] (context : Context m)

/-- A call is a step on the value of its argument. -/
@[simp] theorem step_call (function : ElementaryFunction) (argument : Float)
    (values : List Float) :
    step context (argument :: values) (.call function) = do
      return (← context.call function argument) :: values := by
  simp only [step, Token.call, ElementaryFunction.ofName_name]

@[simp] theorem step_call_nil (function : ElementaryFunction) :
    step context [] (.call function) =
      throw (.invalidExpression (.missingOperand function.name)) := by
  simp only [step, Token.call, ElementaryFunction.ofName_name]

end

end ReversePolish

variable {m : Type → Type} [Monad m] [LawfulMonad m] [MonadRecord m]

/-- An exact value leaves no notice. -/
@[simp] theorem publish_exact (result : Except EvaluationError Float) :
    publish (m := m) (result.map .exact) = liftExcept result := by
  cases result with
  | error error =>
      apply ExceptT.ext
      simp [publish, liftExcept, Except.map]
  | ok value => simp [publish, liftExcept, Except.map, Approximation.exact]

/-- An operator does with its operands on the stack what it means in an expression. -/
@[simp] theorem publish_apply (operator : Operator) (left right : Float) :
    publish (m := m) (operator.apply left right) = combine left right operator := by
  cases operator with
  | plus => exact publish_exact (.ok (left + right))
  | minus => exact publish_exact (.ok (left - right))
  | times => exact publish_exact (.ok (left * right))
  | divide =>
      simp only [Operator.apply, combine]
      split
      · exact publish_exact (.error .divisionByZero)
      · exact publish_exact (.ok (left / right))
  | power => rfl

namespace ReversePolish

/-- The tokens of an expression put its value on top of the others. -/
@[simp] theorem foldlM_step_reversePolish (context : Context m) (expression : Expression)
    (values : List Float) :
    expression.reversePolish.foldlM (step context) values =
      (fun value => value :: values) <$> expression.value context := by
  induction expression generalizing values with
  | number literal => simp [reversePolish, Expression.value, step]
  | binary operator left right leftIH rightIH =>
      simp [reversePolish, Expression.value, List.foldlM_append, leftIH, rightIH, step]
  | call function argument ih =>
      simp [reversePolish, Expression.value, List.foldlM_append, ih]

/-- The tokens of an expression are evaluated to its value. -/
@[simp] theorem evaluate_eq_value (context : Context m) (expression : Expression) :
    evaluate context expression.reversePolish = expression.value context := by
  simp [evaluate, finish, liftExcept]

variable [MonadAttach m] [LawfulMonadAttach m]

/-- A run that succeeds on values succeeds on any expressions in their places. -/
theorem foldlM_build_of_foldlM_step (context : Context m) {tokens : List Token}
    {values reached : List Float} (ends : Ends (tokens.foldlM (step context) values) (.ok reached))
    {stack : List Expression} (places : stack.length = values.length) :
    ∃ built, tokens.foldlM build? stack = some built ∧ built.length = reached.length := by
  induction tokens generalizing values stack with
  | nil =>
      cases ends.of_pure
      exact ⟨stack, rfl, places⟩
  | cons token rest ih =>
      obtain ⟨middle, first, others⟩ := of_foldlM_step_cons_ok ends
      obtain ⟨next, built, nextPlaces⟩ := build_of_step first places
      obtain ⟨last, lastBuilt, lastPlaces⟩ := ih others nextPlaces
      exact ⟨last, by simp [List.foldlM_cons, built, lastBuilt], lastPlaces⟩

/-- Tokens with a value are those of an expression. -/
theorem exists_reversePolish_of_ends (context : Context m) {tokens : List Token} {value : Float}
    (ends : Ends (evaluate context tokens) (.ok value)) :
    ∃ expression : Expression, expression.reversePolish = tokens := by
  rcases of_evaluate ends with ⟨_, _, failed⟩ | ⟨values, run, last⟩
  · contradiction
  have start : ([] : List Expression).length = ([] : List Float).length := rfl
  obtain ⟨built, reached, places⟩ := foldlM_build_of_foldlM_step context run start
  have single : values = [value] := by
    unfold finish at last
    split at last <;> simp_all
  obtain ⟨expression, rfl⟩ : ∃ expression, built = [expression] :=
    List.length_eq_one_iff.mp (by simp [places, single])
  exact ⟨expression, foldlM_build_iff.mp reached⟩

end ReversePolish

/-- A literal without a value is the malformed one. -/
theorem error_of_numberValue {literal : String} {error : EvaluationError}
    (failed : numberValue literal = .error error) : error = .malformedNumber literal := by
  unfold numberValue at failed
  split at failed
  · contradiction
  · exact (Except.error.inj failed).symm

theorem numberValue_ne_invalid (literal : String) (defect : Malformed) :
    numberValue literal ≠ .error (.invalidExpression defect) := by
  intro failed
  cases error_of_numberValue failed

/-- What fails outside its domain fails with a domain error only. -/
theorem exists_domain_of_mapError {α : Type} {result : Except DomainError α}
    {error : EvaluationError} (failed : result.mapError .domain = .error error) :
    ∃ cause, error = .domain cause := by
  cases result with
  | error cause => exact ⟨cause, (Except.error.inj failed).symm⟩
  | ok value => cases failed

theorem Operator.error_of_apply {operator : Operator} {left right : Float}
    {error : EvaluationError} (failed : operator.apply left right = .error error) :
    error = .divisionByZero ∨ ∃ cause, error = .domain cause := by
  cases operator with
  | plus | minus | times => cases failed
  | divide =>
      simp only [apply] at failed
      split at failed
      · exact .inl (Except.error.inj failed).symm
      · cases failed
  | power => exact .inr (exists_domain_of_mapError failed)

theorem ElementaryFunction.error_of_apply {function : ElementaryFunction} {argument : Float}
    {error : EvaluationError} (failed : function.apply argument = .error error) :
    ∃ cause, error = .domain cause := by
  cases function with
  | squareRoot | tangent | logarithm => exact exists_domain_of_mapError failed
  | sine | cosine | exponential => cases failed

theorem Operator.apply_ne_invalid (operator : Operator) (left right : Float)
    (defect : Malformed) : operator.apply left right ≠ .error (.invalidExpression defect) := by
  intro failed
  rcases error_of_apply failed with same | ⟨cause, same⟩ <;> cases same

theorem ElementaryFunction.apply_ne_invalid (function : ElementaryFunction) (argument : Float)
    (defect : Malformed) : function.apply argument ≠ .error (.invalidExpression defect) := by
  intro failed
  obtain ⟨cause, same⟩ := error_of_apply failed
  cases same

variable [MonadAttach m] [LawfulMonadAttach m]

/-- No call of the context ends with a defect of the expression. -/
def Context.NeverInvalid (context : Context m) : Prop :=
  ∀ function argument defect,
    ¬Ends (context.call function argument) (.error (.invalidExpression defect))

/-- The approximations fail only outside their domains. -/
theorem builtins_neverInvalid (unit : AngleUnit) : (builtins (m := m) unit).NeverInvalid := by
  intro function argument defect ends
  exact function.apply_ne_invalid _ defect ends.error_of_publish

/-- The evaluation of an expression does not blame its tokens. -/
theorem Expression.value_ne_invalid {context : Context m} (sound : context.NeverInvalid)
    (expression : Expression) (defect : Malformed) :
    ¬Ends (expression.value context) (.error (.invalidExpression defect)) := by
  induction expression with
  | number literal =>
      intro ends
      exact numberValue_ne_invalid literal defect ends.of_liftExcept.symm
  | binary operator left right leftIH rightIH =>
      intro ends
      rcases ends.of_bind_error with leftFailed | ⟨leftValue, _, ends⟩
      · exact leftIH leftFailed
      rcases ends.of_bind_error with rightFailed | ⟨rightValue, _, applied⟩
      · exact rightIH rightFailed
      · rw [← publish_apply] at applied
        exact operator.apply_ne_invalid leftValue rightValue defect applied.error_of_publish
  | call function argument ih =>
      intro ends
      rcases ends.of_bind_error with failed | ⟨value, _, called⟩
      · exact ih failed
      · exact sound function value defect called

namespace ReversePolish

/-- Exactly the tokens of one expression have a value, which is the expression's, and no defect
is found in them. -/
theorem evaluate_succeeds_on_expressions (context : Context m) (sound : context.NeverInvalid)
    (tokens : List Token) :
    (∀ value, Ends (evaluate context tokens) (.ok value) →
      ∃ expression : Expression, expression.reversePolish = tokens ∧
        (∀ other : Expression, other.reversePolish = tokens → other = expression) ∧
        Ends (expression.value context) (.ok value)) ∧
    ∀ expression : Expression, expression.reversePolish = tokens →
      evaluate context tokens = expression.value context ∧
        ∀ defect, ¬Ends (evaluate context tokens) (.error (.invalidExpression defect)) := by
  constructor
  · intro value ends
    obtain ⟨expression, rfl⟩ := exists_reversePolish_of_ends context ends
    refine ⟨expression, rfl, fun other same => reversePolish_injective same, ?_⟩
    exact evaluate_eq_value context expression ▸ ends
  · rintro expression rfl
    have same := evaluate_eq_value context expression
    refine ⟨same, ?_⟩
    intro defect ends
    exact expression.value_ne_invalid sound defect (same ▸ ends)

theorem evaluate_succeeds_on_root_of_difference :
    (builtins (m := Id) .radians).NeverInvalid ∧
      evaluate (builtins (m := Id) .radians)
          [.number "10", .number "4", .operator .minus, .identifier "sqrt"] =
        (Expression.call .squareRoot (.binary .minus (.number "10") (.number "4"))).value
          (builtins .radians) ∧
      ∀ defect, ¬Ends (evaluate (builtins (m := Id) .radians)
        [.number "10", .number "4", .operator .minus, .identifier "sqrt"])
          (.error (.invalidExpression defect)) :=
  ⟨builtins_neverInvalid .radians,
    (evaluate_succeeds_on_expressions _ (builtins_neverInvalid .radians) _).2
      (.call .squareRoot (.binary .minus (.number "10") (.number "4"))) rfl⟩

end ReversePolish

end Reckoner
