/-
This file shows how far an accepted text is an infix expression: whatever has a value is one unless
an operand follows another at once.
-/

import Mathlib.Algebra.Order.BigOperators.Group.List
import Mathlib.Algebra.Order.Ring.Nat
import Reckoner.Calculator
import Reckoner.Proofs.Evaluation
import Reckoner.Proofs.Pending
import Reckoner.Token.Parentheses

namespace Reckoner

namespace Token

/-- An operand may end with this token. -/
def closes : Token → Bool
  | .number _ | .rightParenthesis => true
  | _ => false

/-- An operand may begin with this token. -/
def opens : Token → Bool
  | .number _ | .leftParenthesis => true
  | .identifier name => (ElementaryFunction.ofName? name).isSome
  | _ => false

/-- An operand has to follow this token. -/
def awaits : Token → Bool
  | .operator _ | .leftParenthesis => true
  | .identifier name => (ElementaryFunction.ofName? name).isSome
  | _ => false

@[simp] theorem awaits_call (function : ElementaryFunction) : (call function).awaits := by
  simp [awaits, call]

def isNumber : Token → Bool
  | .number _ => true
  | _ => false

def isOperator : Token → Bool
  | .operator _ => true
  | _ => false

end Token

/-- Each operator has its two operands beside it, and each group and each call has its content. -/
structure WellPlaced (tokens : List Token) : Prop where
  begins : ∃ token ∈ tokens.head?, token.opens
  behind : ∀ before operator after, tokens = before ++ .operator operator :: after →
    ∃ token ∈ before.getLast?, token.closes
  followed : ∀ before token after, tokens = before ++ token :: after → token.awaits →
    ∃ next ∈ after.head?, next.opens

/-- No operand follows another at once. -/
def Separated (tokens : List Token) : Prop :=
  tokens.IsChain fun first second => ¬(first.closes ∧ second.opens)

/-- The tokens stand as in an infix expression. -/
structure Infix (tokens : List Token) : Prop where
  placed : WellPlaced tokens
  separated : Separated tokens

/-- At each place between two tokens, the number of operands that touch it. The given token stands
before the list, and nothing behind it. -/
def seams (previous : Token) : List Token → List Nat
  | [] => [previous.closes.toNat]
  | token :: rest => (previous.closes.toNat + token.opens.toNat) :: seams token rest

theorem seams_length (previous : Token) (tokens : List Token) :
    (seams previous tokens).length = tokens.length + 1 := by
  induction tokens generalizing previous with
  | nil => rfl
  | cons token rest ih => simp only [seams, List.length_cons, ih]

/-- Each token is counted at the places on its two sides. -/
theorem seams_sum (previous : Token) (tokens : List Token) :
    (seams previous tokens).sum = previous.closes.toNat +
      (tokens.map fun token => token.closes.toNat + token.opens.toNat).sum := by
  induction tokens generalizing previous with
  | nil => simp [seams]
  | cons token rest ih =>
      simp only [seams, List.sum_cons, List.map_cons, ih]
      omega

/-- No place is touched twice where no operand follows another. -/
theorem seams_le_one_iff (previous : Token) (tokens : List Token) :
    (∀ seam ∈ seams previous tokens, seam ≤ 1) ↔ Separated (previous :: tokens) := by
  induction tokens generalizing previous with
  | nil =>
      have small := Bool.toNat_le previous.closes
      simpa [seams, Separated] using small
  | cons token rest ih =>
      rw [seams, List.forall_mem_cons, ih, Separated, Separated, List.isChain_cons_cons]
      refine and_congr_left fun _ => ?_
      cases previous.closes <;> cases token.opens <;> decide

/-- Each place is touched where an operand ends or begins there. -/
theorem one_le_seams_iff (previous : Token) (tokens : List Token) :
    (∀ seam ∈ seams previous tokens, 1 ≤ seam) ↔
      (previous.closes ∨ ∃ token ∈ tokens.head?, token.opens) ∧
        ∀ before token after, tokens = before ++ token :: after →
          token.closes ∨ ∃ next ∈ after.head?, next.opens := by
  induction tokens generalizing previous with
  | nil => simp [seams, Nat.one_le_iff_ne_zero]
  | cons token rest ih =>
      rw [seams, List.forall_mem_cons, ih]
      refine and_congr ?_ ?_
      · simp only [List.head?_cons, Option.mem_some_iff, exists_eq_left']
        cases previous.closes <;> cases token.opens <;> decide
      · constructor
        · intro both before other after split
          obtain ⟨here, later⟩ := both
          rcases List.cons_eq_append_iff.mp split with ⟨rfl, same⟩ | ⟨tail, rfl, same⟩
          · obtain ⟨rfl, rfl⟩ := List.cons.inj same
            exact here
          · exact later tail other after same
        · intro each
          exact ⟨each [] token rest rfl, fun before other after same =>
            each (token :: before) other after (by rw [same, List.cons_append])⟩

/-- A list of ones and zeros whose sum is its length has no zero. -/
theorem one_le_of_sum_eq_length {weights : List Nat} (total : weights.sum = weights.length)
    (small : ∀ weight ∈ weights, weight ≤ 1) : ∀ weight ∈ weights, 1 ≤ weight := by
  induction weights with
  | nil => simp
  | cons weight rest ih =>
      rw [List.forall_mem_cons] at small ⊢
      have most := rest.sum_le_card_nsmul 1 small.2
      simp only [List.sum_cons, List.length_cons, Nat.nsmul_eq_mul, Nat.mul_one] at total most
      exact ⟨by omega, ih (by omega) small.2⟩

/-- A list of positive numbers whose sum is its length has only ones. -/
theorem le_one_of_sum_eq_length {weights : List Nat} (total : weights.sum = weights.length)
    (positive : ∀ weight ∈ weights, 1 ≤ weight) : ∀ weight ∈ weights, weight ≤ 1 := by
  induction weights with
  | nil => simp
  | cons weight rest ih =>
      rw [List.forall_mem_cons] at positive ⊢
      have least := rest.card_nsmul_le_sum 1 positive.2
      simp only [List.sum_cons, List.length_cons, Nat.nsmul_eq_mul, Nat.mul_one] at total least
      exact ⟨by omega, ih (by omega) positive.2⟩

/-- A token that ends an operand or awaits one is part of expressions. -/
def Token.Known (token : Token) : Prop := token.closes ∨ token.awaits

/-- A list of known tokens is well-placed where each place is touched. -/
theorem wellPlaced_iff {tokens : List Token} (known : ∀ token ∈ tokens, token.Known) :
    WellPlaced tokens ↔ ∀ seam ∈ seams .leftParenthesis tokens, 1 ≤ seam := by
  rw [one_le_seams_iff]
  constructor
  · intro placed
    refine ⟨.inr placed.begins, fun before token after split => ?_⟩
    have member : token ∈ tokens := by simp [split]
    exact (known token member).imp_right (placed.followed before token after split)
  · intro touched
    obtain ⟨start, each⟩ := touched
    have begins := start.resolve_left Bool.false_ne_true
    refine ⟨begins, ?_, ?_⟩
    · rintro before operator after rfl
      rcases before.eq_nil_or_concat with rfl | ⟨init, last, rfl⟩
      · simp [Token.opens] at begins
      · have touched := each init last (.operator operator :: after) (by simp)
        simpa [Token.opens] using touched
    · intro before token after split awaits
      apply (each before token after split).resolve_left
      cases token <;> simp_all [Token.awaits, Token.closes]

/-- A known token touches one place, but a number touches two and an operator none. -/
theorem Token.Known.touches {token : Token} (known : token.Known) :
    token.closes.toNat + token.opens.toNat + token.isOperator.toNat = 1 + token.isNumber.toNat := by
  cases token with
  | number | operator | leftParenthesis | rightParenthesis => rfl
  | identifier name =>
      have function : (ElementaryFunction.ofName? name).isSome :=
        known.resolve_left Bool.false_ne_true
      simp [closes, opens, isOperator, isNumber, function]
  | unknown character => exact absurd known (by simp [Known, closes, awaits])

/-- Known tokens touch as many places as they are, but for their numbers and operators. -/
theorem touched_add_operators {tokens : List Token} (known : ∀ token ∈ tokens, token.Known) :
    (tokens.map fun token => token.closes.toNat + token.opens.toNat).sum +
      tokens.countP Token.isOperator = tokens.length + tokens.countP Token.isNumber := by
  induction tokens with
  | nil => rfl
  | cons token rest ih =>
      rw [List.forall_mem_cons] at known
      have here := known.1.touches
      have others := ih known.2
      simp only [List.map_cons, List.sum_cons, List.countP_cons, List.length_cons]
      cases numbers : token.isNumber <;> cases operators : token.isOperator <;>
        simp only [numbers, operators, Bool.toNat_true, Bool.toNat_false, ↓reduceIte,
          Bool.false_eq_true] at here ⊢ <;>
        omega

/-- Where there is one operator less than numbers, each place is touched once on average. -/
theorem seams_sum_eq_length {tokens : List Token} (known : ∀ token ∈ tokens, token.Known)
    (count : tokens.countP Token.isNumber = tokens.countP Token.isOperator + 1) :
    (seams .leftParenthesis tokens).sum = (seams .leftParenthesis tokens).length := by
  have touched := touched_add_operators known
  have start : Token.leftParenthesis.closes.toNat = 0 := rfl
  rw [seams_sum, seams_length, start]
  omega

/-- Known tokens with one operator less than numbers are well-placed exactly if separated. -/
theorem wellPlaced_iff_separated_of_count {tokens : List Token}
    (known : ∀ token ∈ tokens, token.Known)
    (count : tokens.countP Token.isNumber = tokens.countP Token.isOperator + 1) :
    WellPlaced tokens ↔ Separated tokens := by
  have total := seams_sum_eq_length known count
  have open_separated : Separated tokens ↔ Separated (.leftParenthesis :: tokens) := by
    cases tokens with
    | nil => simp [Separated]
    | cons first rest => simp [Separated, Token.closes]
  rw [wellPlaced_iff known, open_separated, ← seams_le_one_iff]
  -- The average is one, so a place that is left out makes up for one that is touched twice.
  exact ⟨le_one_of_sum_eq_length total, one_le_of_sum_eq_length total⟩

namespace Expression

/-- Each operator joins two operands. -/
theorem countP_reversePolish (expression : Expression) :
    expression.reversePolish.countP Token.isNumber =
      expression.reversePolish.countP Token.isOperator + 1 := by
  induction expression with
  | number literal => rfl
  | binary operator left right leftIH rightIH =>
      have number : [Token.operator operator].countP Token.isNumber = 0 := rfl
      have sign : [Token.operator operator].countP Token.isOperator = 1 := rfl
      simp only [reversePolish, List.countP_append, leftIH, rightIH, number, sign]
      omega
  | call function argument ih =>
      have number : [Token.call function].countP Token.isNumber = 0 := rfl
      have sign : [Token.call function].countP Token.isOperator = 0 := rfl
      simp only [reversePolish, List.countP_append, ih, number, sign]

theorem known_of_mem_reversePolish {expression : Expression} {token : Token}
    (member : token ∈ expression.reversePolish) : token.Known := by
  induction expression with
  | number literal =>
      obtain rfl := List.mem_singleton.mp member
      exact .inl rfl
  | binary operator left right leftIH rightIH =>
      simp only [reversePolish, List.mem_append, List.mem_singleton] at member
      rcases member with (inLeft | inRight) | rfl
      · exact leftIH inLeft
      · exact rightIH inRight
      · exact .inr rfl
  | call function argument ih =>
      simp only [reversePolish, List.mem_append, List.mem_singleton] at member
      rcases member with inside | rfl
      · exact ih inside
      · exact .inr (Token.awaits_call function)

end Expression

/-- A kind of tokens without parentheses is as frequent among the reordered tokens. -/
theorem ReversePolish.countP_ofTokens {kind : Token → Bool}
    (left : kind .leftParenthesis = false) (right : kind .rightParenthesis = false)
    (tokens : List Token) : (ofTokens tokens).countP kind = tokens.countP kind := by
  rw [(ofTokens_perm tokens).countP_eq, List.countP_filter]
  refine List.countP_congr fun token _ => ?_
  cases token with
  | leftParenthesis => simp [left]
  | rightParenthesis => simp [right]
  | _ => simp [Token.isParenthesis]

/-- Parentheses are known, so all tokens are where the reordered ones are. -/
theorem ReversePolish.known_of_ofTokens {tokens : List Token}
    (known : ∀ token ∈ ofTokens tokens, token.Known) : ∀ token ∈ tokens, token.Known := by
  intro token member
  by_cases parenthesis : token.isParenthesis
  · cases token with
    | leftParenthesis => exact .inr rfl
    | rightParenthesis => exact .inl rfl
    | _ => contradiction
  · exact known token (mem_ofTokens.mpr ⟨member, parenthesis⟩)

/-- Tokens that are reordered into an expression are well-placed exactly if they are separated. -/
theorem ReversePolish.wellPlaced_iff_separated {expression : Expression} {tokens : List Token}
    (reordered : ofTokens tokens = expression.reversePolish) :
    WellPlaced tokens ↔ Separated tokens := by
  have known : ∀ token ∈ ofTokens tokens, token.Known := by
    intro token member
    exact Expression.known_of_mem_reversePolish (reordered ▸ member)
  apply wellPlaced_iff_separated_of_count (known_of_ofTokens known)
  have numbers : (ofTokens tokens).countP Token.isNumber = tokens.countP Token.isNumber :=
    countP_ofTokens rfl rfl tokens
  have operators : (ofTokens tokens).countP Token.isOperator = tokens.countP Token.isOperator :=
    countP_ofTokens rfl rfl tokens
  rw [← numbers, ← operators, reordered, expression.countP_reversePolish]

/-- A text is evaluated by way of its reordered tokens. -/
theorem evaluateWith_eq (context : Context Id) (source : String) :
    Id.run (evaluateWith context source) =
      (ReversePolish.evaluate context (ReversePolish.ofTokens (tokenize source))).run := rfl

theorem evaluate_eq (source : String) :
    evaluate source =
      (ReversePolish.evaluate (m := Id) (builtins default)
        (ReversePolish.ofTokens (tokenize source))).run :=
  evaluateWith_eq (builtins default) source

/-- A text has a value if its reordered tokens are those of an expression with that value. It is
then an infix expression unless an operand follows another at once, which is so exactly if some
other token is out of place. -/
theorem evaluate_accepts_infix_iff (source : String) (value : Float) :
    (evaluate source = .ok value ↔
      ∃ expression : Expression,
        ReversePolish.ofTokens (tokenize source) = expression.reversePolish ∧
          (expression.value (m := Id) (builtins default)).run = .ok value) ∧
    (evaluate source = .ok value →
      (Infix (tokenize source) ↔ Separated (tokenize source)) ∧
        (Infix (tokenize source) ↔ WellPlaced (tokenize source))) := by
  have written : evaluate source = .ok value ↔
      ∃ expression : Expression,
        ReversePolish.ofTokens (tokenize source) = expression.reversePolish ∧
          (expression.value (m := Id) (builtins default)).run = .ok value := by
    rw [evaluate_eq]
    constructor
    · intro accepted
      obtain ⟨expression, reordered⟩ := ReversePolish.exists_reversePolish_of_ends
        (m := Id) (builtins default) accepted
      rw [← reordered, ReversePolish.evaluate_eq_value] at accepted
      exact ⟨expression, reordered.symm, accepted⟩
    · rintro ⟨expression, reordered, valued⟩
      rwa [reordered, ReversePolish.evaluate_eq_value]
  refine ⟨written, fun accepted => ?_⟩
  obtain ⟨expression, reordered, _⟩ := written.mp accepted
  have both := ReversePolish.wellPlaced_iff_separated reordered
  constructor
  · exact ⟨Infix.separated, fun separated => ⟨both.mpr separated, separated⟩⟩
  · exact ⟨Infix.placed, fun placed => ⟨placed, both.mp placed⟩⟩

theorem evaluate_accepts_infix_product :
    ∃ value, evaluate "2 * (3)" = .ok value ∧ Infix (tokenize "2 * (3)") := by
  have read : tokenize "2 * (3)" =
      [.number "2", .operator .times, .leftParenthesis, .number "3", .rightParenthesis] := by
    decide +kernel
  have accepted : ∃ value, evaluate "2 * (3)" = .ok value := by
    rw [evaluate_eq, read]
    exact ⟨_, rfl⟩
  have separated : Separated (tokenize "2 * (3)") := by
    simp [read, Separated, Token.closes, Token.opens]
  obtain ⟨value, accepted⟩ := accepted
  have condition := (evaluate_accepts_infix_iff "2 * (3)" value).2 accepted
  exact ⟨value, accepted, condition.1.mpr separated⟩

/-- An operator may even stand behind both of its operands. -/
theorem evaluate_accepts_trailing_plus :
    Balanced (tokenize "2 3 +") ∧ (∃ value, evaluate "2 3 +" = .ok value) ∧
      ¬Infix (tokenize "2 3 +") := by
  have read : tokenize "2 3 +" = [.number "2", .number "3", .operator .plus] := by
    decide +kernel
  rw [evaluate_eq, read]
  refine ⟨rfl, ⟨_, rfl⟩, fun stands => ?_⟩
  have separated := stands.separated
  simp [Separated, Token.closes, Token.opens] at separated

end Reckoner
