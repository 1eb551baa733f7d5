/-
This file shows that a text that writes an expression is evaluated to the value of the expression.
-/

import Reckoner.Calculator
import Reckoner.Proofs.Evaluation
import Reckoner.Proofs.Literal
import Reckoner.Proofs.Rendering

namespace Reckoner

variable {m : Type → Type} [Monad m] [LawfulMonad m] [MonadRecord m]

/-- A text that writes an expression gives its value or its first failure, with the three records of
the stages around it. Of its literals only a point alone fails. -/
theorem evaluateWith_written (context : Context m) {level : Nat} {expression : Expression}
    {tokens : List Token} {source : String}
    (literals : ∀ literal ∈ expression.literals, IsLiteral literal.toList)
    (renders : expression.Renders level tokens) (spells : Token.Spells tokens source.toList) :
    (evaluateWith context source = do
      record (.tokenized source tokens)
      record (.reordered expression.reversePolish)
      let result ← (expression.value context).run
      record (.outcome source result)
      return result) ∧
    ∀ literal ∈ expression.literals,
      if literal = "." then numberValue literal = .error (.malformedNumber ".")
      else ∃ value, numberValue literal = .ok value := by
  constructor
  · have read := renders.tokenize literals spells
    have reordered := renders.ofTokens_eq
    have closed := renders.unclosed_eq
    simp only [evaluateWith, recordedTokens, recordedReversePolish, read, reordered, closed,
      ReversePolish.evaluate_eq_value, List.replicate_zero, List.forM_eq_forM, List.forM_nil,
      bind_assoc, pure_bind]
  · intro literal member
    exact numberValue_of_isLiteral (literals literal member)

/-- The first text fails at its literal. In the others a power of zero is zero, which can be taken
away but not be divided by. -/
theorem evaluateWith_quotients :
    (∀ literal ∈ (Expression.binary .divide (.binary .divide (.number "6") (.number "2"))
        (.call .squareRoot (.number "."))).literals, IsLiteral literal.toList) ∧
    (Expression.binary .divide (.binary .divide (.number "6") (.number "2"))
        (.call .squareRoot (.number "."))).Renders 0
      [.number "6", .operator .divide, .number "2", .operator .divide, .call .squareRoot,
        .leftParenthesis, .leftParenthesis, .number ".", .rightParenthesis, .rightParenthesis] ∧
    Token.Spells
      [.number "6", .operator .divide, .number "2", .operator .divide, .call .squareRoot,
        .leftParenthesis, .leftParenthesis, .number ".", .rightParenthesis, .rightParenthesis]
      "6/2 /sqrt(( .)) ".toList ∧
    evaluateWith (m := Journal) (builtins .degrees) "6/2 /sqrt(( .)) " = (do
      record (.tokenized "6/2 /sqrt(( .)) "
        [.number "6", .operator .divide, .number "2", .operator .divide, .call .squareRoot,
          .leftParenthesis, .leftParenthesis, .number ".", .rightParenthesis, .rightParenthesis])
      record (.reordered
        [.number "6", .number "2", .operator .divide, .number ".", .call .squareRoot,
          .operator .divide])
      let result ← ((Expression.binary .divide (.binary .divide (.number "6") (.number "2"))
        (.call .squareRoot (.number "."))).value (builtins .degrees)).run
      record (.outcome "6/2 /sqrt(( .)) " result)
      return result) ∧
    numberValue "." = .error (.malformedNumber ".") ∧
    evaluateWith (m := Id) (builtins .radians) "9-0^0" = .ok 9.0 ∧
    evaluateWith (m := Id) (builtins .radians) "9/0^0" = .error .divisionByZero := by
  have literals : ∀ literal ∈ (Expression.binary .divide
      (.binary .divide (.number "6") (.number "2")) (.call .squareRoot (.number "."))).literals,
      IsLiteral literal.toList := by
    simp [Expression.literals, IsLiteral]
  have renders := Expression.Renders.binary (Nat.zero_le _)
    (.binary le_rfl (.number Operator.divide.precedence "6")
      (.number (Operator.divide.precedence + 1) "2"))
    (.call (Operator.divide.precedence + 1) .squareRoot (.parenthesised 0 (.number 0 ".")))
  have blank : ∀ character ∈ [' '], isWhiteSpace character :=
    List.forall_mem_singleton.mpr (by decide)
  have none : ∀ character ∈ ([] : List Char), isWhiteSpace character := by simp
  have spells : Token.Spells
      [.number "6", .operator .divide, .number "2", .operator .divide, .call .squareRoot,
        .leftParenthesis, .leftParenthesis, .number ".", .rightParenthesis, .rightParenthesis]
      "6/2 /sqrt(( .)) ".toList := .cons none (.cons none (.cons none (.cons blank (.cons none
    (.cons none (.cons none (.cons blank (.cons none (.cons none (.nil blank))))))))))
  obtain ⟨written, malformed⟩ := evaluateWith_written (m := Journal) (builtins .degrees)
    literals renders spells
  have powers (operator : Operator) : ∀ literal ∈ (Expression.binary operator (.number "9")
      (.binary .power (.number "0") (.number "0"))).literals, IsLiteral literal.toList := by
    simp [Expression.literals, IsLiteral]
  have inner (operator : Operator) (looser : operator.precedence < Operator.power.precedence) :=
    Expression.Renders.binary (Nat.zero_le _) (.number operator.precedence "9")
      (.binary looser (.number Operator.power.precedence "0")
        (.number (Operator.power.precedence + 1) "0"))
  have minus : Token.Spells [.number "9", .operator .minus, .number "0", .operator .power,
      .number "0"] "9-0^0".toList :=
    .cons none (.cons none (.cons none (.cons none (.cons none (.nil none)))))
  have divide : Token.Spells [.number "9", .operator .divide, .number "0", .operator .power,
      .number "0"] "9/0^0".toList :=
    .cons none (.cons none (.cons none (.cons none (.cons none (.nil none)))))
  have difference := (evaluateWith_written (m := Id) (builtins .radians) (powers .minus)
    (inner .minus (by decide)) minus).1
  have quotient := (evaluateWith_written (m := Id) (builtins .radians) (powers .divide)
    (inner .divide (by decide)) divide).1
  exact ⟨literals, renders, spells, written, malformed "." (by simp [Expression.literals]),
    difference.trans rfl, quotient.trans rfl⟩

end Reckoner
