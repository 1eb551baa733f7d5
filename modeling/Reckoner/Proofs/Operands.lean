/-
This file shows that an operation on two doubles that are written out is rounded only once.
-/

import Reckoner.Proofs.Calculator
import Reckoner.Proofs.Infix
import Reckoner.Proofs.Shortest

namespace Reckoner

open Binary64

/-- The operator stands for one operation on doubles, unless it takes powers. -/
def Operator.operation? : Operator → Option (Float → Float → Float)
  | .plus => some fun left right => left + right
  | .minus => some fun left right => left - right
  | .times => some fun left right => left * right
  | .divide => some fun left right => left / right
  | .power => none

/-- The operation has a result unless it divides by a zero of either sign. -/
def Operator.result (operator : Operator) (operation : Float → Float → Float)
    (left right : Float) : Except EvaluationError Float :=
  if operator = .divide ∧ right == 0.0 then .error .divisionByZero else .ok (operation left right)

theorem Operator.apply_eq_result {operator : Operator} {operation : Float → Float → Float}
    (standsFor : operator.operation? = some operation) (left right : Float) :
    operator.apply left right = (operator.result operation left right).map .exact := by
  cases operator with
  | plus | minus | times =>
      obtain rfl := Option.some.inj standsFor
      rfl
  | divide =>
      obtain rfl := Option.some.inj standsFor
      simp only [apply, result, true_and]
      split <;> rfl
  | power => contradiction

theorem numberValue_shortestText {x : Float} (finite : x.isFinite) :
    numberValue (shortestText x) = .ok x := by
  rw [numberValue, readFloat_shortestText finite]

variable {m : Type → Type} [Monad m] [LawfulMonad m] [MonadRecord m]

/-- Two doubles and an operator behind them have the result of the operation, whether the doubles
have minus signs or not. -/
theorem ReversePolish.evaluate_shortestText (context : Context m) {operator : Operator}
    {operation : Float → Float → Float} (standsFor : operator.operation? = some operation)
    {left right : Float} (leftFinite : left.isFinite) (rightFinite : right.isFinite) :
    evaluate context
        [.number (shortestText left), .number (shortestText right), .operator operator] =
      liftExcept (operator.result operation left right) := by
  have read {x : Float} (finite : x.isFinite) :
      liftExcept (m := ExceptT EvaluationError m) (numberValue (shortestText x)) = pure x := by
    rw [numberValue_shortestText finite]
    rfl
  have value := evaluate_eq_value context
    (.binary operator (.number (shortestText left)) (.number (shortestText right)))
  rwa [Expression.value, Expression.value, Expression.value, read leftFinite, read rightFinite,
    pure_bind, pure_bind, ← publish_apply, Operator.apply_eq_result standsFor,
    publish_exact] at value

/-- Doubles that are written out are taken as they are. The value of an operation on them is the
double that the operation gives, and only a division by zero has none. -/
theorem evaluate_operation (context : Context m) {operator : Operator}
    {operation : Float → Float → Float} (standsFor : operator.operation? = some operation)
    {left right : Float} (leftFinite : left.isFinite) (rightFinite : right.isFinite) :
    (left.toBits.toBitVec.msb = false → right.toBits.toBitVec.msb = false → ∀ source : String,
      Token.Spells [.number (shortestText left), .operator operator, .number (shortestText right)]
        source.toList →
      evaluate source = operator.result operation left right) ∧
    ReversePolish.evaluate context
        [.number (shortestText left), .number (shortestText right), .operator operator] =
      liftExcept (operator.result operation left right) := by
  refine ⟨?_, ReversePolish.evaluate_shortestText context standsFor leftFinite rightFinite⟩
  intro leftSign rightSign source spells
  have isLiteral {x : Float} (finite : x.isFinite) (sign : x.toBits.toBitVec.msb = false) :
      IsLiteral (shortestText x).toList :=
    isLiteral_shortestText finite ((isUnsigned_iff_msb (not_isNaN_of_isFinite finite)).mpr sign)
  let expression : Expression :=
    .binary operator (.number (shortestText left)) (.number (shortestText right))
  have literals : ∀ literal ∈ expression.literals, IsLiteral literal.toList := by
    simp [expression, Expression.literals, isLiteral leftFinite leftSign,
      isLiteral rightFinite rightSign]
  have renders : expression.Renders 0
      [.number (shortestText left), .operator operator, .number (shortestText right)] :=
    .binary (Nat.zero_le _) (.number _ _) (.number _ _)
  rw [evaluate_eq, renders.tokenize literals spells, renders.ofTokens_eq]
  have value := ReversePolish.evaluate_shortestText (m := Id) (builtins default) standsFor
    leftFinite rightFinite
  refine (congrArg ExceptT.run value).trans ?_
  cases operator.result operation left right <;> rfl

theorem evaluate_operation_quotients :
    (2.5 : Float).isFinite ∧ (4.0 : Float).isFinite ∧ (-0.0 : Float).isFinite ∧
      (2.5 : Float).toBits.toBitVec.msb = false ∧ (4.0 : Float).toBits.toBitVec.msb = false ∧
      evaluate "2.5/4" = .ok (2.5 / 4.0) ∧ evaluate " 2.5 / 4" = .ok (2.5 / 4.0) ∧
      ReversePolish.evaluate (m := Journal) (builtins .degrees)
        [.number "2.5", .number "-0", .operator .divide] = throw .divisionByZero := by
  have standsFor : Operator.divide.operation? = some fun left right => left / right := rfl
  have leftFinite : (2.5 : Float).isFinite := rfl
  have rightFinite : (4.0 : Float).isFinite := rfl
  have zeroFinite : (-0.0 : Float).isFinite := rfl
  have leftSign : (2.5 : Float).toBits.toBitVec.msb = false := rfl
  have rightSign : (4.0 : Float).toBits.toBitVec.msb = false := rfl
  have leftText : shortestText 2.5 = "2.5" := by decide +kernel
  have rightText : shortestText 4.0 = "4" := by decide +kernel
  have zeroText : shortestText (-0.0) = "-0" := by decide +kernel
  have nonzero : ((4.0 : Float) == 0.0) = false := by decide +kernel
  have zero : ((-0.0 : Float) == 0.0) = true := by decide +kernel
  have blank : ∀ character ∈ [' '], isWhiteSpace character :=
    List.forall_mem_singleton.mpr (by decide)
  have none : ∀ character ∈ ([] : List Char), isWhiteSpace character := by simp
  have close : Token.Spells [.number "2.5", .operator .divide, .number "4"] "2.5/4".toList :=
    .cons none (.cons none (.cons none (.nil none)))
  have spaced : Token.Spells [.number "2.5", .operator .divide, .number "4"] " 2.5 / 4".toList :=
    .cons blank (.cons blank (.cons blank (.nil none)))
  have unsigned :=
    (evaluate_operation (m := Id) (builtins .degrees) standsFor leftFinite rightFinite).1
      leftSign rightSign
  have signed :=
    (evaluate_operation (m := Journal) (builtins .degrees) standsFor leftFinite zeroFinite).2
  simp only [leftText, rightText, Operator.result, nonzero, Bool.false_eq_true, and_false,
    ↓reduceIte] at unsigned
  simp only [leftText, zeroText, Operator.result, zero, and_self, ↓reduceIte] at signed
  exact ⟨leftFinite, rightFinite, zeroFinite, leftSign, rightSign, unsigned _ close,
    unsigned _ spaced, signed⟩

end Reckoner
