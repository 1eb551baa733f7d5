/-
This file shows that a run with angles in degrees is one with angles in radians whose tokens convert
each angle themselves.
-/

import Reckoner.Calculator
import Reckoner.Proofs.Evaluation
import Reckoner.Proofs.Pending

namespace Reckoner

def Token.isTrigonometric : Token → Bool
  | .identifier name => (ElementaryFunction.ofName? name).any ElementaryFunction.isTrigonometric
  | _ => false

@[simp] theorem Token.isTrigonometric_call (function : ElementaryFunction) :
    (Token.call function).isTrigonometric = function.isTrigonometric := by
  simp [isTrigonometric, call]

theorem Token.exists_of_isTrigonometric {token : Token} (trigonometric : token.isTrigonometric) :
    ∃ function : ElementaryFunction, token = .call function ∧ function.isTrigonometric := by
  cases token with
  | identifier name =>
      obtain ⟨function, found, angular⟩ := (Option.any_eq_true _ _).mp trigonometric
      exact ⟨function, by rw [Token.call, ElementaryFunction.name_of_ofName found], angular⟩
  | _ => contradiction

namespace EvaluationError

/-- The product of a conversion lacks an operand where a trigonometric function has no argument. -/
def afterConversion : EvaluationError → EvaluationError
  | .invalidExpression (.missingOperand name) =>
      if (Token.identifier name).isTrigonometric then
        .invalidExpression (.missingOperand Operator.times.text)
      else .invalidExpression (.missingOperand name)
  | error => error

/-- Only an operand that is missing is missed elsewhere. -/
theorem afterConversion_eq_self {error : EvaluationError}
    (complete : ∀ token, error ≠ .invalidExpression (.missingOperand token)) :
    error.afterConversion = error := by
  unfold afterConversion
  split
  · next token => exact absurd rfl (complete token)
  · rfl

end EvaluationError

section

variable {m : Type → Type} [Monad m] [MonadRecord m]

/-- Only angles depend on their unit. -/
theorem call_builtins_of_plain {function : ElementaryFunction} (plain : ¬function.isTrigonometric)
    (argument : Float) :
    (builtins (m := m) .radians).call function argument =
      (builtins (m := m) .degrees).call function argument := by
  simp [builtins, AngleUnit.argument, plain]

/-- An angle in degrees is converted before its function sees it. -/
theorem call_builtins_of_trigonometric {function : ElementaryFunction}
    (trigonometric : function.isTrigonometric) (argument : Float) :
    (builtins (m := m) .radians).call function (Angle.ofDegrees argument) =
      (builtins (m := m) .degrees).call function argument := by
  simp [builtins, AngleUnit.argument, trigonometric]

/-- A step asks its context for nothing but the value of its call. -/
theorem ReversePolish.step_congr {context other : Context m} {token : Token}
    (same : ∀ function, token = .call function → context.call function = other.call function)
    (values : List Float) : step context values token = step other values token := by
  cases token with
  | identifier name =>
      cases found : ElementaryFunction.ofName? name with
      | none => simp only [step, found]
      | some function =>
          have called := same function (by rw [Token.call, ElementaryFunction.name_of_ofName found])
          cases values <;> simp only [step, found, called]
  | number _ | operator _ | leftParenthesis | rightParenthesis | unknown _ => rfl

/-- A token without an angle does the same in both units. -/
theorem ReversePolish.step_builtins_of_plain {token : Token} (plain : ¬token.isTrigonometric)
    (values : List Float) :
    step (builtins (m := m) .radians) values token =
      step (builtins (m := m) .degrees) values token := by
  refine step_congr (fun function same => funext fun argument => ?_) values
  rw [same, Token.isTrigonometric_call] at plain
  exact call_builtins_of_plain plain argument

/-- Tokens without an angle do the same in both units. -/
theorem ReversePolish.foldlM_step_builtins_of_plain {tokens : List Token}
    (plain : ∀ token ∈ tokens, ¬token.isTrigonometric) (values : List Float) :
    tokens.foldlM (step (builtins (m := m) .radians)) values =
      tokens.foldlM (step (builtins (m := m) .degrees)) values := by
  induction tokens generalizing values with
  | nil => rw [List.foldlM_nil, List.foldlM_nil]
  | cons token rest ih =>
      obtain ⟨here, others⟩ := List.forall_mem_cons.mp plain
      rw [List.foldlM_cons, List.foldlM_cons, step_builtins_of_plain here, funext (ih others)]

/-- Tokens without an angle have the same value in both units. -/
theorem ReversePolish.evaluate_builtins_of_plain {tokens : List Token}
    (plain : ∀ token ∈ tokens, ¬token.isTrigonometric) :
    evaluate (builtins (m := m) .degrees) tokens =
      evaluate (builtins (m := m) .radians) tokens := by
  rw [evaluate, evaluate, foldlM_step_builtins_of_plain plain]

end

variable {m : Type → Type} [Monad m] [LawfulMonad m] {α β : Type}

/-- The failures of a sequence are changed in each of its parts. -/
theorem adapt_bind (change : EvaluationError → EvaluationError)
    (computation : ExceptT EvaluationError m α) (next : α → ExceptT EvaluationError m β) :
    ExceptT.adapt change (computation >>= next) =
      ExceptT.adapt change computation >>= fun value => ExceptT.adapt change (next value) := by
  apply ExceptT.ext
  change Except.mapError change <$> (computation.run >>= ExceptT.bindCont next) =
    Except.mapError change <$> computation.run >>=
      ExceptT.bindCont fun value => ExceptT.adapt change (next value)
  rw [map_bind, bind_map_left]
  refine bind_congr fun outcome => ?_
  cases outcome with
  | error error => exact map_pure _ _
  | ok value => rfl

theorem adapt_throw (change : EvaluationError → EvaluationError) (error : EvaluationError) :
    ExceptT.adapt change (throw error : ExceptT EvaluationError m α) = throw (change error) :=
  ExceptT.ext (map_pure _ _)

/-- A computation stays as it is where no failure of it is changed. -/
theorem adapt_eq_self [MonadAttach m] [LawfulMonadAttach m]
    {change : EvaluationError → EvaluationError} {computation : ExceptT EvaluationError m α}
    (same : ∀ error, Ends computation (.error error) → change error = error) :
    ExceptT.adapt change computation = computation := by
  apply ExceptT.ext
  change Except.mapError change <$> computation.run = computation.run
  rw [← WeaklyLawfulMonadAttach.map_attach (x := computation.run), Functor.map_map]
  refine map_congr fun outcome => ?_
  obtain ⟨outcome, ends⟩ := outcome
  cases outcome with
  | error error => exact congrArg Except.error (same error ends)
  | ok value => rfl

variable [MonadRecord m]

namespace ReversePolish

/-- The value before these tokens is converted from degrees to radians. -/
def conversion : List Token :=
  [.number "3.141592653589793", .operator .times, .number "180", .operator .divide]

/-- A trigonometric function has its argument converted first. -/
def converted (token : Token) : List Token :=
  if token.isTrigonometric then conversion ++ [token] else [token]

def inRadians (tokens : List Token) : List Token := tokens.flatMap converted

theorem numberValue_halfTurn : numberValue "3.141592653589793" = .ok Angle.pi := by
  have read : Decimal.readFloat? "3.141592653589793" = some Angle.pi := by decide
  rw [numberValue, read]

theorem numberValue_degrees : numberValue "180" = .ok 180.0 := by
  have read : Decimal.readFloat? "180" = some 180.0 := by decide
  rw [numberValue, read]

/-- The conversion computes what a conversion of the argument does. -/
theorem foldlM_step_conversion (context : Context m) (angle : Float) (values : List Float) :
    conversion.foldlM (step context) (angle :: values) =
      pure (Angle.ofDegrees angle :: values) := by
  have divisible : ((180.0 : Float) == 0.0) = false := by decide
  simp [conversion, step, numberValue_halfTurn, numberValue_degrees, divisible, liftExcept,
    publish, Operator.apply, Approximation.exact, Angle.ofDegrees]

theorem foldlM_step_conversion_nil (context : Context m) :
    conversion.foldlM (step context) [] =
      throw (.invalidExpression (.missingOperand Operator.times.text)) := by
  simp [conversion, step, numberValue_halfTurn, liftExcept]

variable [MonadAttach m] [LawfulMonadAttach m]

/-- A step misses an operand elsewhere only where a trigonometric function has no argument. -/
theorem adapt_step {token : Token} {values : List Float} (unit : AngleUnit)
    (supplied : token.isTrigonometric → values ≠ []) :
    ExceptT.adapt EvaluationError.afterConversion (step (builtins (m := m) unit) values token) =
      step (builtins (m := m) unit) values token := by
  apply adapt_eq_self
  intro error ends
  have sound := builtins_neverInvalid (m := m) unit
  cases StepEnds.of_ends ends with
  | malformed failed =>
      exact EvaluationError.afterConversion_eq_self fun _ same =>
        numberValue_ne_invalid _ _ (same ▸ failed)
  | refused failed =>
      exact EvaluationError.afterConversion_eq_self fun _ same =>
        sound _ _ _ (same ▸ failed)
  | inapplicable failed =>
      exact EvaluationError.afterConversion_eq_self fun _ same =>
        Operator.apply_ne_invalid _ _ _ _ (same ▸ failed)
  | missingArgument function =>
      have plain : ¬(Token.call function).isTrigonometric := fun angle => supplied angle rfl
      exact if_neg plain
  | @missingOperand operator _ _ => cases operator <;> rfl
  | unknownFunction _ => rfl
  | parenthesis _ => rfl
  | unknownCharacter _ => rfl

theorem finish_ne_missingOperand (values : List Float) (token : String) :
    finish values ≠ .error (.invalidExpression (.missingOperand token)) := by
  unfold finish
  split <;> simp

/-- The converted token does in radians what the token does in degrees. -/
theorem foldlM_step_converted (token : Token) (values : List Float) :
    (converted token).foldlM (step (builtins (m := m) .radians)) values =
      ExceptT.adapt EvaluationError.afterConversion
        (step (builtins (m := m) .degrees) values token) := by
  have alone (context : Context m) (values : List Float) :
      [token].foldlM (step context) values = step context values token := by simp
  by_cases trigonometric : token.isTrigonometric
  · obtain ⟨function, rfl, angular⟩ := Token.exists_of_isTrigonometric trigonometric
    rw [converted, if_pos trigonometric, List.foldlM_append]
    cases values with
    | nil =>
        have elsewhere : (EvaluationError.invalidExpression
            (.missingOperand function.name)).afterConversion =
            .invalidExpression (.missingOperand Operator.times.text) := if_pos trigonometric
        rw [foldlM_step_conversion_nil, step_call_nil, adapt_throw, elsewhere]
        exact ExceptT.ext (pure_bind _ _)
    | cons angle rest =>
        rw [foldlM_step_conversion, pure_bind, alone, adapt_step _ (by simp), step_call, step_call,
          call_builtins_of_trigonometric angular]
  · have supplied : token.isTrigonometric → values ≠ [] := fun angle => absurd angle trigonometric
    rw [converted, if_neg trigonometric, alone, adapt_step _ supplied,
      step_builtins_of_plain trigonometric]

/-- A run in degrees misses an operand elsewhere than the converted one, and else does the same. -/
theorem foldlM_step_inRadians (tokens : List Token) (values : List Float) :
    (inRadians tokens).foldlM (step (builtins (m := m) .radians)) values =
      ExceptT.adapt EvaluationError.afterConversion
        (tokens.foldlM (step (builtins (m := m) .degrees)) values) := by
  induction tokens generalizing values with
  | nil => exact (adapt_eq_self fun error ends => nomatch ends.of_pure).symm
  | cons token rest ih =>
      rw [inRadians, List.flatMap_cons, List.foldlM_append, foldlM_step_converted,
        List.foldlM_cons, adapt_bind]
      exact bind_congr ih

/-- An evaluation in degrees is one in radians in which each trigonometric function has its argument
converted first. The two miss an operand at different tokens, and do the same in all else, so that
without trigonometric functions they are equal, be it of tokens or of a text. -/
theorem evaluate_inRadians (tokens : List Token) :
    evaluate (builtins (m := m) .radians) (inRadians tokens) =
        ExceptT.adapt EvaluationError.afterConversion
          (evaluate (builtins (m := m) .degrees) tokens) ∧
      ((∀ token, ¬Ends (evaluate (builtins (m := m) .degrees) tokens)
          (.error (.invalidExpression (.missingOperand token)))) →
        evaluate (builtins (m := m) .degrees) tokens =
          evaluate (builtins (m := m) .radians) (inRadians tokens)) ∧
      ((∀ token ∈ tokens, ¬token.isTrigonometric) →
        evaluate (builtins (m := m) .degrees) tokens =
          evaluate (builtins (m := m) .radians) tokens) ∧
      ∀ source, (∀ token ∈ tokenize source, ¬token.isTrigonometric) →
        evaluateWith (builtins (m := m) .degrees) source =
          evaluateWith (builtins (m := m) .radians) source := by
  have translated : evaluate (builtins (m := m) .radians) (inRadians tokens) =
      ExceptT.adapt EvaluationError.afterConversion
        (evaluate (builtins (m := m) .degrees) tokens) := by
    rw [evaluate, evaluate, foldlM_step_inRadians, adapt_bind]
    refine bind_congr fun values => (adapt_eq_self fun error ends => ?_).symm
    apply EvaluationError.afterConversion_eq_self
    intro token same
    exact finish_ne_missingOperand values token (same ▸ ends.of_liftExcept.symm)
  refine ⟨translated, fun complete => ?_, evaluate_builtins_of_plain, fun source plain => ?_⟩
  · rw [translated]
    refine (adapt_eq_self fun error ends => ?_).symm
    exact EvaluationError.afterConversion_eq_self fun token same => complete token (same ▸ ends)
  · have reordered : ∀ token ∈ ofTokens (tokenize source), ¬token.isTrigonometric :=
      fun token member => plain token (mem_ofTokens.mp member).1
    simp only [evaluateWith, recordedReversePolish, bind_assoc, pure_bind, recordedTokens,
      evaluate_builtins_of_plain reordered]

theorem evaluate_inRadians_cosine :
    (∀ token, ¬Ends (evaluate (builtins (m := Journal) .degrees)
        [.number "30", .identifier "sin", .identifier "cos"])
        (.error (.invalidExpression (.missingOperand token)))) ∧
      evaluate (builtins (m := Journal) .degrees)
          [.number "30", .identifier "sin", .identifier "cos"] =
        evaluate (builtins (m := Journal) .radians)
          [.number "30", .number "3.141592653589793", .operator .times, .number "180",
            .operator .divide, .identifier "sin", .number "3.141592653589793", .operator .times,
            .number "180", .operator .divide, .identifier "cos"] ∧
      (∀ token ∈ [Token.number "2", .identifier "log", .operator .plus],
        ¬token.isTrigonometric) ∧
      evaluate (builtins (m := Journal) .degrees)
          [.number "2", .identifier "log", .operator .plus] =
        evaluate (builtins (m := Journal) .radians)
          [.number "2", .identifier "log", .operator .plus] ∧
      (∀ token ∈ tokenize "2 log", ¬token.isTrigonometric) ∧
      evaluateWith (builtins (m := Journal) .degrees) "2 log" =
        evaluateWith (builtins (m := Journal) .radians) "2 log" := by
  have complete : ∀ token, ¬Ends (evaluate (builtins (m := Journal) .degrees)
      [.number "30", .identifier "sin", .identifier "cos"])
      (.error (.invalidExpression (.missingOperand token))) := by
    intro token ends
    have valued := evaluate_eq_value (builtins (m := Journal) .degrees)
      (.call .cosine (.call .sine (.number "30")))
    exact Expression.value_ne_invalid (builtins_neverInvalid .degrees) _ _ (valued ▸ ends)
  have plain : ∀ token ∈ [Token.number "2", .identifier "log", .operator .plus],
      ¬token.isTrigonometric := by decide
  have plainText : ∀ token ∈ tokenize "2 log", ¬token.isTrigonometric := by
    have tokens : tokenize "2 log" = [.number "2", .identifier "log"] := by decide +kernel
    rw [tokens]
    decide
  obtain ⟨_, translated, _, textual⟩ := evaluate_inRadians (m := Journal)
    [.number "30", .identifier "sin", .identifier "cos"]
  exact ⟨complete, translated complete, plain, (evaluate_inRadians _).2.2.1 plain, plainText,
    textual _ plainText⟩

end ReversePolish

end Reckoner
