/-
This file shows that the only malformed number of a text is a point alone.
-/

import Reckoner.Proofs.Accounting
import Reckoner.Proofs.Literal
import Reckoner.Proofs.Sign

namespace Reckoner

/-- A literal has no sign, and its value has none. -/
theorem isUnsigned_of_numberValue {literal : String} (isLiteral : IsLiteral literal.toList)
    {value : Float} (read : numberValue literal = .ok value) : Binary64.IsUnsigned value := by
  unfold numberValue at read
  rw [readFloat_of_isLiteral isLiteral] at read
  cases decimal : Decimal.readDecimal? literal.toList with
  | none => simp [decimal] at read
  | some number =>
      obtain rfl : number.toFloat = value := by simpa [decimal] using read
      exact number.isUnsigned_toFloat

namespace ReversePolish

/-- A malformed number is found at its own token, since no call and no operator makes one. -/
theorem StepEnds.number_of_malformedNumber {unit : AngleUnit} {values : List Float}
    {token : Token} {literal : String}
    (ends : StepEnds (m := Id) (builtins unit) values token (.error (.malformedNumber literal))) :
    token = .number literal ∧ numberValue literal = .error (.malformedNumber literal) := by
  cases ends with
  | malformed failed =>
      cases error_of_numberValue failed
      exact ⟨rfl, failed⟩
  | refused failed =>
      obtain ⟨cause, same⟩ := ElementaryFunction.error_of_apply failed.error_of_publish
      contradiction
  | inapplicable failed =>
      rcases Operator.error_of_apply failed with same | ⟨cause, same⟩ <;> contradiction

variable {tokens : List Token} {unit : AngleUnit}

/-- An evaluation ends with a malformed number only where it reaches one. -/
theorem number_mem_of_malformedNumber {literal : String}
    (ends : Ends (m := Id) (evaluate (builtins unit) tokens) (.error (.malformedNumber literal))) :
    .number literal ∈ tokens ∧ numberValue literal = .error (.malformedNumber literal) := by
  rcases of_evaluate ends with ⟨error, run, same⟩ | ⟨reached, _, same⟩
  · cases same
    obtain ⟨token, member, _, failed⟩ := exists_of_foldlM_step_error run
    obtain ⟨rfl, malformed⟩ := failed.number_of_malformedNumber
    exact ⟨member, malformed⟩
  · unfold finish at same
    split at same <;> cases same

/-- Each number of an evaluation that succeeds has a value. -/
theorem exists_numberValue_of_ends {value : Float} {literal : String}
    (ends : Ends (m := Id) (evaluate (builtins unit) tokens) (.ok value))
    (member : .number literal ∈ tokens) : ∃ number, numberValue literal = .ok number := by
  rcases of_evaluate ends with ⟨_, _, failed⟩ | ⟨_, run, _⟩
  · contradiction
  · obtain ⟨_, _, succeeded⟩ := forall_of_foldlM_step_ok run _ member
    cases succeeded with
    | number read => exact ⟨_, read⟩

end ReversePolish

open ReversePolish

/-- Each number of a text has a value from zero up, but for a point alone. This is the only one that
is reported as malformed, and no text with it has a value. -/
theorem evaluateWith_malformedNumber (unit : AngleUnit) (source : String) :
    (∀ literal, .number literal ∈ tokenize source →
      if literal = "." then numberValue literal = .error (.malformedNumber ".")
      else ∃ value, numberValue literal = .ok value ∧ value.isNaN = false ∧ 0.0 ≤ value) ∧
    (∀ literal,
      Id.run (evaluateWith (builtins unit) source) = .error (.malformedNumber literal) →
        literal = "." ∧ .number literal ∈ tokenize source) ∧
    (.number "." ∈ tokenize source →
      ∀ value, Id.run (evaluateWith (builtins unit) source) ≠ .ok value) := by
  have isLiteral (literal : String) (member : .number literal ∈ tokenize source) :
      IsLiteral literal.toList :=
    Token.wellFormed_of_mem_scan source.toList (.number literal) member
  have ends : Ends (m := Id) (ReversePolish.evaluate (builtins unit) (ofTokens (tokenize source)))
      (Id.run (evaluateWith (builtins unit) source)) := rfl
  refine ⟨?values, ?reported, ?refused⟩
  case values =>
    intro literal member
    have outcome := numberValue_of_isLiteral (isLiteral literal member)
    split at outcome
    · next point => rwa [if_pos point]
    · next digits =>
        obtain ⟨value, read⟩ := outcome
        have unsigned := isUnsigned_of_numberValue (isLiteral literal member) read
        rw [if_neg digits]
        exact ⟨value, read, unsigned.not_isNaN, unsigned.zero_le⟩
  case reported =>
    intro literal failed
    rw [failed] at ends
    obtain ⟨inside, malformed⟩ := number_mem_of_malformedNumber ends
    have member := (mem_ofTokens.mp inside).1
    have outcome := numberValue_of_isLiteral (isLiteral literal member)
    split at outcome
    · next point => exact ⟨point, member⟩
    · obtain ⟨value, read⟩ := outcome
      rw [read] at malformed
      contradiction
  case refused =>
    intro member value succeeded
    rw [succeeded] at ends
    have inside := mem_ofTokens.mpr ⟨member, Bool.false_ne_true⟩
    obtain ⟨number, read⟩ := exists_numberValue_of_ends ends inside
    cases read

theorem evaluateWith_malformedNumber_point :
    Token.number "2.5" ∈ tokenize ". + 2.5" ∧
      (∃ value, numberValue "2.5" = .ok value ∧ value.isNaN = false ∧ 0.0 ≤ value) ∧
      Id.run (evaluateWith (builtins .degrees) ". + 2.5") = .error (.malformedNumber ".") ∧
      Token.number "." ∈ tokenize ". + 2.5" ∧
      ∀ value, Id.run (evaluateWith (builtins .degrees) ". + 2.5") ≠ .ok value := by
  have tokens : tokenize ". + 2.5" = [.number ".", .operator .plus, .number "2.5"] := by
    decide +kernel
  have number : Token.number "2.5" ∈ tokenize ". + 2.5" := by simp [tokens]
  have failed : Id.run (evaluateWith (builtins .degrees) ". + 2.5") =
      .error (.malformedNumber ".") := by
    rw [evaluateWith_eq, tokens]
    rfl
  obtain ⟨values, reported, refused⟩ := evaluateWith_malformedNumber .degrees ". + 2.5"
  have value := values "2.5" number
  rw [if_neg (by decide)] at value
  have point := (reported "." failed).2
  exact ⟨number, value, failed, point, refused point⟩

end Reckoner
