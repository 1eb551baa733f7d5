/-
This file shows that the tokens that write an expression are read from any text that spells them,
and are reordered into its reverse Polish order.
-/

import Reckoner.Expression.Rendering
import Reckoner.Proofs.Pending
import Reckoner.Proofs.Postorder
import Reckoner.Proofs.Spelling

namespace Reckoner

namespace Pending

/-- The run has read the operand but for operators of its level, which wait above the others. -/
def HasRead (level : Nat) (operand : Expression) (pending : List Pending)
    (run : List Token × List Pending) : Prop :=
  ∃ (output : List Token) (signs : List Operator),
    run = (output, signs.map .operator ++ pending) ∧
      output ++ signs.map .operator = operand.reversePolish ∧
      ∀ sign ∈ signs, level ≤ sign.precedence

/-- An operator between two operands waits for the end of the right one. -/
theorem HasRead.binary {level : Nat} {operator : Operator} {left right : Expression}
    {pending : List Pending} {leftTokens rightTokens : List Token}
    (binds : level ≤ operator.precedence) (admits : Admits operator.precedence pending)
    (leftRead : HasRead operator.precedence left pending (feed pending leftTokens))
    (rightRead : HasRead (operator.precedence + 1) right (.operator operator :: pending)
      (feed (.operator operator :: pending) rightTokens)) :
    HasRead level (.binary operator left right) pending
      (feed pending (leftTokens ++ [.operator operator] ++ rightTokens)) := by
  obtain ⟨leftOutput, leftSigns, leftRun, leftWhole, leftTight⟩ := leftRead
  obtain ⟨rightOutput, rightSigns, rightRun, rightWhole, rightTight⟩ := rightRead
  have released : feed (leftSigns.map .operator ++ pending) [.operator operator] =
      (leftSigns.map .operator, .operator operator :: pending) := by
    rw [feed_singleton, step, yieldTo_operators leftTight admits]
  have run := feed_append (feed_append leftRun released) rightRun
  refine ⟨leftOutput ++ leftSigns.map .operator ++ rightOutput, rightSigns ++ [operator],
    ?_, ?_, ?_⟩
  · simpa using run
  · simp only [Expression.reversePolish, ← leftWhole, ← rightWhole, List.map_append,
      List.map_singleton, List.append_assoc]
  · intro sign member
    rcases List.mem_append.mp member with inner | last
    · have tight := rightTight sign inner
      omega
    · obtain rfl := List.mem_singleton.mp last
      exact binds

/-- A closing parenthesis completes what its group has read. -/
theorem HasRead.close {level : Nat} {expression : Expression} {pending : List Pending}
    {tokens : List Token} (admits : Admits level pending)
    (groupRead : HasRead 0 expression (.parenthesis :: pending)
      (feed (.parenthesis :: pending) tokens)) :
    HasRead level expression pending
      (feed pending ([.leftParenthesis] ++ tokens ++ [.rightParenthesis])) := by
  obtain ⟨output, signs, groupRun, whole, _⟩ := groupRead
  have closed : feed (signs.map .operator ++ .parenthesis :: pending) [.rightParenthesis] =
      (signs.map .operator, pending) := by
    rw [feed_singleton, step, closeGroup_operators, closeGroup_parenthesis admits, List.append_nil]
  have opened : feed pending [.leftParenthesis] = ([], .parenthesis :: pending) := rfl
  have run := feed_append (feed_append opened groupRun) closed
  exact ⟨output ++ signs.map .operator, [], by simpa using run, by simpa using whole, by simp⟩

/-- A closing parenthesis releases the function that owns the group. -/
theorem HasRead.call {level : Nat} {function : ElementaryFunction} {argument : Expression}
    {pending : List Pending} {tokens : List Token}
    (groupRead : HasRead 0 argument (.parenthesis :: .function function :: pending)
      (feed (.parenthesis :: .function function :: pending) tokens)) :
    HasRead level (.call function argument) pending
      (feed pending ([.call function, .leftParenthesis] ++ tokens ++ [.rightParenthesis])) := by
  obtain ⟨output, signs, groupRun, whole, _⟩ := groupRead
  have closed :
      feed (signs.map .operator ++ .parenthesis :: .function function :: pending)
        [.rightParenthesis] = (signs.map .operator ++ [.call function], pending) := by
    rw [feed_singleton, step, closeGroup_operators, closeGroup]
  have opened : feed pending [.call function, .leftParenthesis] =
      ([], .parenthesis :: .function function :: pending) := by
    simp [feed]
  have run := feed_append (feed_append opened groupRun) closed
  exact ⟨output ++ signs.map .operator ++ [.call function], [], by simpa using run,
    by simp [Expression.reversePolish, ← whole], by simp⟩

end Pending

namespace Expression.Renders

open Pending

/-- The tokens of an operand are read wherever an operand of its level may start. -/
theorem hasRead {level : Nat} {expression : Expression} {tokens : List Token}
    (renders : expression.Renders level tokens) (pending : List Pending)
    (admits : Admits level pending) :
    HasRead level expression pending (feed pending tokens) := by
  induction renders generalizing pending with
  | number level literal => exact ⟨[.number literal], [], rfl, rfl, by simp⟩
  | binary binds _ _ leftIH rightIH =>
      have admitsOperator := admits.mono binds
      exact HasRead.binary binds admitsOperator (leftIH pending admitsOperator)
        (rightIH _ (Nat.lt_succ_self _))
  | call level function _ ih => exact HasRead.call (ih _ trivial)
  | parenthesised level _ ih => exact HasRead.close admits (ih _ trivial)

/-- The tokens of an expression leave only operators pending. -/
theorem feed_nil {level : Nat} {expression : Expression} {tokens : List Token}
    (renders : expression.Renders level tokens) :
    ∃ (output : List Token) (signs : List Operator),
      feed [] tokens = (output, signs.map .operator) ∧
        output ++ signs.map .operator = expression.reversePolish := by
  obtain ⟨output, signs, run, whole, _⟩ := renders.hasRead [] trivial
  exact ⟨output, signs, by simpa using run, whole⟩

/-- The tokens of an expression are put into its reverse Polish order. -/
theorem ofTokens_eq {level : Nat} {expression : Expression} {tokens : List Token}
    (renders : expression.Renders level tokens) :
    ReversePolish.ofTokens tokens = expression.reversePolish := by
  obtain ⟨output, signs, run, whole⟩ := renders.feed_nil
  rw [ReversePolish.ofTokens_def, run, tokens_operators, whole]

/-- Each parenthesis of an expression is closed. -/
theorem unclosed_eq {level : Nat} {expression : Expression} {tokens : List Token}
    (renders : expression.Renders level tokens) : ReversePolish.unclosed tokens = 0 := by
  obtain ⟨output, signs, run, _⟩ := renders.feed_nil
  simp only [ReversePolish.unclosed, run]
  exact List.count_eq_zero.mpr (by simp)

end Expression.Renders

namespace Expression

/-- The literals of an expression, from left to right. -/
def literals : Expression → List String
  | .number literal => [literal]
  | .binary _ left right => left.literals ++ right.literals
  | .call _ argument => argument.literals

/-- Only operators and parentheses stand between the operands of an expression. -/
theorem Renders.separate {level : Nat} {expression : Expression} {tokens : List Token}
    (renders : expression.Renders level tokens) : tokens.IsChain Token.Separate := by
  induction renders with
  | number level literal => exact .singleton _
  | binary _ _ _ leftIH rightIH => exact Token.isChain_delimiter trivial leftIH rightIH
  | @call level function _ tokens _ ih =>
      have opened : List.IsChain Token.Separate
          ([Token.call function] ++ [Token.leftParenthesis] ++ tokens) :=
        Token.isChain_delimiter trivial (.singleton _) ih
      have closed : List.IsChain Token.Separate
          ([Token.call function] ++ [Token.leftParenthesis] ++ tokens ++
            [Token.rightParenthesis] ++ []) :=
        Token.isChain_delimiter trivial opened .nil
      simpa using closed
  | @parenthesised level _ tokens _ ih =>
      have opened : List.IsChain Token.Separate ([] ++ [Token.leftParenthesis] ++ tokens) :=
        Token.isChain_delimiter trivial .nil ih
      have closed : List.IsChain Token.Separate
          ([] ++ [Token.leftParenthesis] ++ tokens ++ [Token.rightParenthesis] ++ []) :=
        Token.isChain_delimiter trivial opened .nil
      simpa using closed

/-- The tokens of an expression are well-formed where its literals are. -/
theorem Renders.wellFormed {level : Nat} {expression : Expression} {tokens : List Token}
    (renders : expression.Renders level tokens)
    (literals : ∀ literal ∈ expression.literals, IsLiteral literal.toList) :
    ∀ token ∈ tokens, token.WellFormed := by
  induction renders with
  | number level literal =>
      intro token member
      obtain rfl := List.mem_singleton.mp member
      exact literals literal List.mem_cons_self
  | binary _ _ _ leftIH rightIH =>
      simp only [Expression.literals, List.mem_append] at literals
      intro token member
      simp only [List.mem_append, List.mem_singleton] at member
      rcases member with (left | rfl) | right
      · exact leftIH (fun literal inside => literals literal (.inl inside)) token left
      · trivial
      · exact rightIH (fun literal inside => literals literal (.inr inside)) token right
  | call level function _ ih =>
      intro token member
      simp only [List.mem_append, List.mem_cons, List.not_mem_nil, or_false] at member
      rcases member with ((rfl | rfl) | inside) | rfl
      · cases function <;> exact ⟨by decide, List.all_eq_true.mp (by decide)⟩
      · trivial
      · exact ih literals token inside
      · trivial
  | parenthesised level _ ih =>
      intro token member
      simp only [List.mem_append, List.mem_singleton] at member
      rcases member with (rfl | inside) | rfl
      · trivial
      · exact ih literals token inside
      · trivial

/-- A text that writes an expression has the tokens that it spells. -/
theorem Renders.tokenize {level : Nat} {expression : Expression} {tokens : List Token}
    {source : String} (renders : expression.Renders level tokens)
    (literals : ∀ literal ∈ expression.literals, IsLiteral literal.toList)
    (spells : Token.Spells tokens source.toList) : tokenize source = tokens :=
  spells.scan (renders.wellFormed literals) renders.separate

end Expression

/-- The order of the output depends on the expression alone, and shows which one it is. -/
theorem ReversePolish.ofTokens_determines_expression {firstLevel secondLevel : Nat}
    {first second : Expression} {firstTokens secondTokens : List Token}
    (firstRenders : first.Renders firstLevel firstTokens)
    (secondRenders : second.Renders secondLevel secondTokens) :
    ofTokens firstTokens = first.reversePolish ∧ ofTokens secondTokens = second.reversePolish ∧
      (ofTokens firstTokens = ofTokens secondTokens ↔ first = second) := by
  rw [firstRenders.ofTokens_eq, secondRenders.ofTokens_eq]
  exact ⟨rfl, rfl, Expression.reversePolish_injective.eq_iff⟩

theorem ReversePolish.ofTokens_powers :
    (Expression.binary .power (.binary .power (.number "-5") (.number "3")) (.number "2")).Renders 0
        [.number "-5", .operator .power, .number "3", .operator .power, .number "2"] ∧
      (Expression.binary .power (.number "-5") (.binary .power (.number "3") (.number "2"))).Renders
        0 [.number "-5", .operator .power, .leftParenthesis, .number "3", .operator .power,
          .number "2", .rightParenthesis] ∧
      ofTokens [.number "-5", .operator .power, .number "3", .operator .power, .number "2"] =
        [.number "-5", .number "3", .operator .power, .number "2", .operator .power] ∧
      ofTokens [.number "-5", .operator .power, .number "3", .operator .power, .number "2"] ≠
        ofTokens [.number "-5", .operator .power, .leftParenthesis, .number "3", .operator .power,
          .number "2", .rightParenthesis] := by
  have inner (level : Nat) (low : level ≤ Operator.power.precedence) (first second : String) :
      (Expression.binary .power (.number first) (.number second)).Renders level
        [.number first, .operator .power, .number second] :=
    .binary low (.number Operator.power.precedence first)
      (.number (Operator.power.precedence + 1) second)
  have left := Expression.Renders.binary (Nat.zero_le _)
    (inner Operator.power.precedence le_rfl "-5" "3") (.number (Operator.power.precedence + 1) "2")
  have right := Expression.Renders.binary (Nat.zero_le _)
    (.number Operator.power.precedence "-5")
    (.parenthesised (Operator.power.precedence + 1) (inner 0 (by decide) "3" "2"))
  obtain ⟨order, _, same⟩ := ofTokens_determines_expression left right
  exact ⟨left, right, order, fun equal => absurd (same.mp equal) (by decide)⟩

end Reckoner
