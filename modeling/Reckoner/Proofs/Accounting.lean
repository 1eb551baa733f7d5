/-
This file shows what the outcome of an evaluation says about the tokens of its text.
-/

import Reckoner.Proofs.Infix
import Reckoner.Proofs.Printing

namespace Reckoner

/-- The defect is found at the token. -/
inductive Malformed.FoundAt : Malformed → Token → Prop where
  | missingArgument (function : ElementaryFunction) :
      FoundAt (.missingOperand function.name) (.call function)
  | missingOperand (operator : Operator) :
      FoundAt (.missingOperand operator.text) (.operator operator)
  | unknownFunction {name : String} :
      ElementaryFunction.ofName? name = none →
      FoundAt (.unknownFunction name) (.identifier name)
  | parenthesis {token : Token} :
      token.isParenthesis → FoundAt (.unexpectedToken token.text) token
  | unknownCharacter (character : Char) :
      FoundAt (.unexpectedToken (Token.unknown character).text) (.unknown character)

namespace ReversePolish

variable {m : Type → Type} [MonadAttach m] {context : Context m}
variable {values reached : List Float} {token : Token} {tokens : List Token}

/-- A number adds a value, and an operator makes one of two. -/
theorem StepEnds.length_eq (ends : StepEnds context values token (.ok reached)) :
    reached.length + [token].countP Token.isOperator =
      values.length + [token].countP Token.isNumber := by
  cases ends <;> simp [Token.isOperator, Token.isNumber, Token.call]

theorem StepEnds.ne_nil (ends : StepEnds context values token (.ok reached)) : reached ≠ [] := by
  cases ends <;> simp

/-- Only a number, an operator or a function leaves values behind. -/
theorem StepEnds.known (ends : StepEnds context values token (.ok reached)) : token.Known := by
  cases ends with
  | number _ => exact .inl rfl
  | called _ => exact .inr (Token.awaits_call _)
  | applied _ => exact .inr rfl

/-- A step that finds a defect finds it at its token. -/
theorem StepEnds.foundAt (sound : context.NeverInvalid) {defect : Malformed}
    (ends : StepEnds context values token (.error (.invalidExpression defect))) :
    defect.FoundAt token := by
  cases ends with
  | malformed failed => exact absurd failed (numberValue_ne_invalid _ defect)
  | refused failed => exact absurd failed (sound _ _ defect)
  | missingArgument function => exact .missingArgument function
  | unknownFunction unknown => exact .unknownFunction unknown
  | inapplicable failed => exact absurd failed (Operator.apply_ne_invalid _ _ _ defect)
  | @missingOperand operator _ _ => exact .missingOperand operator
  | parenthesis stray =>
      refine .parenthesis ?_
      rcases List.mem_pair.mp stray with rfl | rfl <;> rfl
  | unknownCharacter character => exact .unknownCharacter character

variable [Monad m] [LawfulMonad m] [LawfulMonadAttach m] [MonadRecord m]

/-- The values at the end are as many as the numbers exceed the operators. -/
theorem length_of_foldlM_step (ends : Ends (tokens.foldlM (step context) values) (.ok reached)) :
    reached.length + tokens.countP Token.isOperator =
      values.length + tokens.countP Token.isNumber := by
  induction tokens generalizing values with
  | nil =>
      cases ends.of_pure
      rfl
  | cons token rest ih =>
      obtain ⟨middle, first, others⟩ := of_foldlM_step_cons_ok ends
      have here := first.length_eq
      have later := ih others
      rw [← List.singleton_append, List.countP_append, List.countP_append]
      omega

/-- Where there is a value or a token, some value is left. -/
theorem ne_nil_of_foldlM_step (ends : Ends (tokens.foldlM (step context) values) (.ok reached))
    (some : values ≠ [] ∨ tokens ≠ []) : reached ≠ [] := by
  induction tokens generalizing values with
  | nil =>
      cases ends.of_pure
      simpa using some
  | cons token rest ih =>
      obtain ⟨middle, first, others⟩ := of_foldlM_step_cons_ok ends
      exact ih others (.inl first.ne_nil)

theorem known_of_foldlM_step (ends : Ends (tokens.foldlM (step context) values) (.ok reached)) :
    ∀ token ∈ tokens, token.Known := by
  intro token member
  obtain ⟨_, _, succeeded⟩ := forall_of_foldlM_step_ok ends token member
  exact succeeded.known

/-- A run that ends with a defect has found it at one of its tokens. -/
theorem exists_foundAt_of_foldlM_step (sound : context.NeverInvalid) {defect : Malformed}
    (ends : Ends (tokens.foldlM (step context) values) (.error (.invalidExpression defect))) :
    ∃ token ∈ tokens, defect.FoundAt token := by
  obtain ⟨token, member, _, failed⟩ := exists_of_foldlM_step_error ends
  exact ⟨token, member, failed.foundAt sound⟩

end ReversePolish

/-- No character is without a meaning, and each name is that of a function. -/
structure Meaningful (tokens : List Token) : Prop where
  noStranger : ∀ character, .unknown character ∉ tokens
  named : ∀ name, .identifier name ∈ tokens → (ElementaryFunction.ofName? name).isSome

theorem meaningful_of_known {tokens : List Token} (known : ∀ token ∈ tokens, token.Known) :
    Meaningful tokens where
  noStranger character member := by
    have impossible := known _ member
    simp [Token.Known, Token.closes, Token.awaits] at impossible
  named name member := (known _ member).resolve_left Bool.false_ne_true

/-- A value or several of them account for all tokens, and a defect names the one that it is found
at. Only parentheses leave nothing to evaluate. -/
def Accounts (tokens : List Token) : Except EvaluationError Float → Prop
  | .ok _ =>
      Meaningful tokens ∧ tokens.countP Token.isNumber = tokens.countP Token.isOperator + 1
  | .error (.invalidExpression .empty) => ∀ token ∈ tokens, token.isParenthesis
  | .error (.invalidExpression (.leftoverValues count)) =>
      Meaningful tokens ∧ 2 ≤ count ∧
        tokens.countP Token.isNumber = tokens.countP Token.isOperator + count
  | .error (.invalidExpression (.unexpectedToken text)) =>
      (∃ character, .unknown character ∈ tokens ∧ text = (Token.unknown character).text) ∧
        text ∉ ["(", ")"]
  | .error (.invalidExpression (.unknownFunction name)) =>
      .identifier name ∈ tokens ∧ ElementaryFunction.ofName? name = none
  | .error (.invalidExpression (.missingOperand text)) =>
      (∃ operator, .operator operator ∈ tokens ∧ text = operator.text) ∨
        ∃ function, .call function ∈ tokens ∧ text = function.name
  | .error (.domain _) | .error .divisionByZero | .error (.malformedNumber _) => True

open ReversePolish

/-- A defect is found at no parenthesis, since none is left. -/
theorem accounts_of_foundAt {tokens : List Token} {defect : Malformed} {token : Token}
    (wellFormed : ∀ token ∈ tokens, token.WellFormed) (member : token ∈ ofTokens tokens)
    (found : defect.FoundAt token) : Accounts tokens (.error (.invalidExpression defect)) := by
  obtain ⟨inside, kept⟩ := mem_ofTokens.mp member
  cases found with
  | missingArgument function => exact .inr ⟨function, inside, rfl⟩
  | missingOperand operator => exact .inl ⟨operator, inside, rfl⟩
  | unknownFunction unknown => exact ⟨inside, unknown⟩
  | parenthesis stray => contradiction
  | unknownCharacter character =>
      refine ⟨⟨character, inside, rfl⟩, ?_⟩
      have stranger : IsStranger character := wellFormed _ inside
      have outside := stranger.2.2.2.1
      simp_all [Token.text, ← String.toList_inj]

section

variable {m : Type → Type} [Monad m] [LawfulMonad m] [MonadAttach m] [LawfulMonadAttach m]
variable [MonadRecord m] {context : Context m} {tokens : List Token}

/-- The values that are left at the end account for the tokens. -/
theorem accounts_of_finish {reached : List Float}
    (run : Ends ((ofTokens tokens).foldlM (step context) []) (.ok reached)) :
    Accounts tokens (finish reached) := by
  have meaningful := meaningful_of_known (known_of_ofTokens (known_of_foldlM_step run))
  have numbers : (ofTokens tokens).countP Token.isNumber = tokens.countP Token.isNumber :=
    countP_ofTokens rfl rfl tokens
  have operators : (ofTokens tokens).countP Token.isOperator = tokens.countP Token.isOperator :=
    countP_ofTokens rfl rfl tokens
  have count := length_of_foldlM_step run
  rw [numbers, operators, List.length_nil, Nat.zero_add] at count
  match reached with
  | [] =>
      apply ofTokens_eq_nil_iff.mp
      by_contra some
      exact ne_nil_of_foldlM_step run (.inr some) rfl
  | [_] => exact ⟨meaningful, by rw [← count, Nat.add_comm]; rfl⟩
  | first :: second :: rest =>
      refine ⟨meaningful, by simp, ?_⟩
      rw [← count, Nat.add_comm]

/-- The outcome of an evaluation accounts for the tokens that were reordered. -/
theorem accounts_of_ends (sound : context.NeverInvalid)
    (wellFormed : ∀ token ∈ tokens, token.WellFormed) {outcome : Except EvaluationError Float}
    (ends : Ends (ReversePolish.evaluate context (ofTokens tokens)) outcome) :
    Accounts tokens outcome := by
  rcases of_evaluate ends with ⟨error, failed, rfl⟩ | ⟨reached, run, rfl⟩
  · cases error with
    | invalidExpression defect =>
        obtain ⟨token, member, found⟩ := exists_foundAt_of_foldlM_step sound failed
        exact accounts_of_foundAt wellFormed member found
    | _ => trivial
  · exact accounts_of_finish run

end

/-- The outcome accounts for each token of the text, and blank text is empty like parentheses
alone. -/
theorem evaluateWith_accounts (unit : AngleUnit) (source : String) :
    Accounts (tokenize source) (Id.run (evaluateWith (builtins unit) source)) ∧
      (Id.run (evaluateWith (builtins unit) source) = .error (.invalidExpression .empty) ↔
        ∀ token ∈ tokenize source, token.isParenthesis) ∧
      ((∀ character ∈ source.toList, isWhiteSpace character) →
        Id.run (evaluateWith (builtins unit) source) = .error (.invalidExpression .empty)) := by
  have accounts : Accounts (tokenize source) (Id.run (evaluateWith (builtins unit) source)) := by
    have ends : Ends (ReversePolish.evaluate (m := Id) (builtins unit)
        (ofTokens (tokenize source))) (Id.run (evaluateWith (builtins unit) source)) := rfl
    exact accounts_of_ends (builtins_neverInvalid unit)
      (Token.wellFormed_of_mem_scan source.toList) ends
  have empty : Id.run (evaluateWith (builtins unit) source) = .error (.invalidExpression .empty) ↔
      ∀ token ∈ tokenize source, token.isParenthesis := by
    constructor
    · intro nothing
      rw [nothing] at accounts
      exact accounts
    · intro parentheses
      rw [evaluateWith_eq, ofTokens_eq_nil_iff.mpr parentheses]
      rfl
  refine ⟨accounts, empty, fun blank => empty.mpr ?_⟩
  rw [tokenize, Token.scan_blank blank]
  simp

theorem evaluateWith_accounts_parentheses :
    (∀ character ∈ " \t\n".toList, isWhiteSpace character) ∧
      Id.run (evaluateWith (builtins .degrees) " \t\n") = .error (.invalidExpression .empty) ∧
      (∀ token ∈ tokenize ") (", token.isParenthesis) ∧
      Id.run (evaluateWith (builtins .degrees) ") (") = .error (.invalidExpression .empty) ∧
      Id.run (evaluateWith (builtins .degrees) "1 (2") =
        .error (.invalidExpression (.leftoverValues 2)) ∧
      Accounts (tokenize "1 (2") (.error (.invalidExpression (.leftoverValues 2))) := by
  have blank : ∀ character ∈ " \t\n".toList, isWhiteSpace character :=
    List.all_eq_true.mp (by decide)
  have parentheses : ∀ token ∈ tokenize ") (", token.isParenthesis :=
    List.all_eq_true.mp (by decide +kernel)
  have leftover : Id.run (evaluateWith (builtins .degrees) "1 (2") =
      .error (.invalidExpression (.leftoverValues 2)) := by
    have read : tokenize "1 (2" = [.number "1", .leftParenthesis, .number "2"] := by
      decide +kernel
    rw [evaluateWith_eq, read]
    rfl
  have accounts := (evaluateWith_accounts .degrees "1 (2").1
  rw [leftover] at accounts
  exact ⟨blank, (evaluateWith_accounts .degrees " \t\n").2.2 blank, parentheses,
    (evaluateWith_accounts .degrees ") (").2.1.mpr parentheses, leftover, accounts⟩

end Reckoner
