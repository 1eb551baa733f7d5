/-
This file shows that a function without parentheses takes the rest of the group in which it stands.
-/

import Mathlib.Data.List.Chain
import Reckoner.Proofs.Infix
import Reckoner.Proofs.Parentheses

namespace Reckoner

/-- The tokens are an infix expression, in which the argument of a call may stand without
parentheses. -/
structure InfixExpression (tokens : List Token) : Prop where
  known : ∀ token ∈ tokens, token.Known
  balanced : Balanced tokens
  stands : Infix tokens

namespace Pending

variable {pending below : List Pending} {called : ElementaryFunction} {token : Token}

/-- A group is not to be opened at the bottom. -/
theorem Founded.cons (founded : Founded pending) {item : Pending}
    (grounded : item = .parenthesis → pending ≠ []) : Founded (item :: pending) := by
  cases pending with
  | nil => simpa [Founded] using grounded
  | cons next rest => simpa [Founded] using founded

/-- All groups stay founded where none is opened at the bottom. -/
theorem Founded.step (founded : Founded pending)
    (grounded : token = .leftParenthesis → pending ≠ []) :
    Founded (step pending token).2 := by
  cases token with
  | number literal => exact founded
  | unknown character => exact founded
  | leftParenthesis => exact founded.cons fun _ => grounded rfl
  | rightParenthesis => exact founded.of_suffix (closeGroup_suffix pending)
  | identifier name =>
      cases found : ElementaryFunction.ofName? name with
      | none => simpa [Pending.step, found] using founded
      | some called => simpa [Pending.step, found] using founded.cons (by simp)
  | operator sign => exact (founded.of_suffix (yieldTo_suffix sign pending)).cons (by simp)

/-- A token that awaits an operand waits itself. -/
theorem step_ne_nil_of_awaits (awaits : token.awaits) : (step pending token).2 ≠ [] := by
  cases token with
  | number _ | unknown _ | rightParenthesis => contradiction
  | leftParenthesis => exact List.cons_ne_nil _ _
  | identifier name =>
      obtain ⟨called, found⟩ := Option.isSome_iff_exists.mp awaits
      simp [step, found]
  | operator sign => exact List.cons_ne_nil _ _

/-- A group does not open behind an operand, so that an item waits where it opens. -/
theorem ne_nil_of_separated {rest : List Token} (known : token.Known)
    (separated : Separated (token :: rest)) :
    (step pending token).2 = [] → rest.head? ≠ some .leftParenthesis := by
  intro none opens
  apply step_ne_nil_of_awaits _ none
  apply known.resolve_left
  intro closes
  cases rest with
  | nil => contradiction
  | cons next others =>
      obtain rfl := Option.some.inj opens
      exact (List.isChain_cons_cons.mp separated).1 ⟨closes, rfl⟩

/-- An expression that starts with no group does the same above a function as it does alone. -/
theorem feed_append_function {unpaired : Unpaired} {source : List Token}
    (founded : Founded pending) (depth : unpaired.opening = pending.count .parenthesis)
    (same : (source.foldl Unpaired.add unpaired).closing = unpaired.closing)
    (known : ∀ token ∈ source, token.Known) (separated : Separated source)
    (grounded : pending = [] → source.head? ≠ some .leftParenthesis) :
    feed (pending ++ .function called :: below) source =
      ((feed pending source).1, (feed pending source).2 ++ .function called :: below) := by
  induction source generalizing pending unpaired with
  | nil => rfl
  | cons token rest ih =>
      obtain ⟨here, others⟩ := List.forall_mem_cons.mp known
      have first := unpaired.closing_le_add token
      have last := (unpaired.add token).closing_le_foldl rest
      rw [List.foldl_cons] at same
      have stays : (unpaired.add token).closing = unpaired.closing := by omega
      have floor : Floor pending (.function called :: below) := ⟨by simp, fun _ _ _ => founded⟩
      have stepped := step_append floor (mem_of_closing_eq depth stays)
      have stable : Founded (step pending token).2 := by
        apply founded.step
        rintro rfl none
        exact grounded none rfl
      have later := ih stable (count_step depth token) (by omega) others
        (List.isChain_cons.mp separated).2 (ne_nil_of_separated here separated)
      simp only [feed, stepped, later]

/-- The end of a group, or of all, releases the items that belong to no group inside. -/
theorem released_append (below : List Pending) {above : List Pending} {after : List Token}
    (unmatched : .parenthesis ∉ above) (ends : ∀ token ∈ after.head?, token = .rightParenthesis) :
    (feed (above ++ below) after).1 ++ tokens (feed (above ++ below) after).2 =
      tokens above ++ ((feed below after).1 ++ tokens (feed below after).2) := by
  cases after with
  | nil => simp [feed]
  | cons token rest =>
      obtain rfl := ends token rfl
      simp only [feed, step, closeGroup_append_of_not_mem unmatched, List.append_assoc]

/-- An infix expression that starts with no group leaves what it has read above the function. -/
theorem feed_argument {argument : List Token} (expression : InfixExpression argument)
    (noGroup : argument.head? ≠ some .leftParenthesis) :
    feed (.function called :: below) argument =
      ((feed [] argument).1, (feed [] argument).2 ++ .function called :: below) := by
  have founded : Founded [] := by simp [Founded]
  have start : (⟨0, 0⟩ : Unpaired).opening = ([] : List Pending).count .parenthesis := rfl
  have whole : argument.foldl Unpaired.add ⟨0, 0⟩ = ⟨0, 0⟩ := expression.balanced
  exact feed_append_function founded start (by rw [whole]) expression.known
    expression.stands.separated fun _ => noGroup

end Pending

namespace ReversePolish

open Pending

/-- What is read before a part of the tokens comes out before what that part releases. -/
theorem ofTokens_append_of_feed {first output : List Token} {pending : List Pending}
    (run : feed [] first = (output, pending)) (last : List Token) :
    ofTokens (first ++ last) =
      output ++ ((feed pending last).1 ++ Pending.tokens (feed pending last).2) := by
  rw [ofTokens_def, feed_append run (Prod.eta (feed pending last)).symm, List.append_assoc]

/-- A function in front of an infix expression takes all of it, up to the end of the group in which
they stand, as if parentheses were around the expression. Only a group that the expression starts
with would be taken alone. -/
theorem ofTokens_bare_call (function : ElementaryFunction) (before : List Token)
    {argument after : List Token} (expression : InfixExpression argument)
    (noGroup : argument.head? ≠ some .leftParenthesis)
    (ends : ∀ token ∈ after.head?, token = .rightParenthesis) :
    ofTokens (before ++ [.call function] ++ argument ++ after) =
      ofTokens (before ++ [.call function, .leftParenthesis] ++ argument ++ [.rightParenthesis] ++
        after) := by
  let reached := feed [] before
  let inside := feed [] argument
  have waits : feed reached.2 [.call function] = ([], .function function :: reached.2) := by
    rw [feed_singleton, Pending.step_call]
  have called := feed_append (Prod.eta reached).symm waits
  have bare := feed_append called (feed_argument expression noGroup)
  have grouped := feed_append called
    (feed_group (.function function :: reached.2) expression.balanced)
  have unmatched : .parenthesis ∉ inside.2 ++ [.function function] := by
    simpa using not_mem_of_balanced expression.balanced
  have released := released_append reached.2 unmatched ends
  rw [List.append_assoc] at released
  have regroup : before ++ [.call function, .leftParenthesis] ++ argument ++ [.rightParenthesis] =
      before ++ [.call function] ++ ([.leftParenthesis] ++ argument ++ [.rightParenthesis]) := by
    simp
  rw [regroup, ofTokens_append_of_feed bare, ofTokens_append_of_feed grouped]
  -- Behind the argument the function is released by the end of the group or of all, as behind a
  -- closing parenthesis of its own.
  simp only [List.singleton_append] at released
  rw [released]
  simp [closeGroup, ofTokens_def, inside]

theorem ofTokens_bare_call_root :
    InfixExpression [.number "16", .operator .plus, .call .sine, .number "9"] ∧
      ofTokens ([Token.leftParenthesis, .number "2", .operator .times] ++
          [Token.call .squareRoot] ++
          [Token.number "16", .operator .plus, .call .sine, .number "9"] ++
          [Token.rightParenthesis, .operator .minus, .number "1"]) =
        ofTokens ([Token.leftParenthesis, .number "2", .operator .times] ++
          [Token.call .squareRoot, .leftParenthesis] ++
          [Token.number "16", .operator .plus, .call .sine, .number "9"] ++
          [Token.rightParenthesis] ++
          [Token.rightParenthesis, .operator .minus, .number "1"]) := by
  have known : ∀ token ∈ [Token.number "16", .operator .plus, .call .sine, .number "9"],
      token.Known := by
    simp only [Token.Known]
    decide
  have placed := (wellPlaced_iff known).mpr (by decide)
  have separated : Separated [.number "16", .operator .plus, .call .sine, .number "9"] := by
    simp only [Separated]
    decide
  have expression : InfixExpression [.number "16", .operator .plus, .call .sine, .number "9"] :=
    ⟨known, rfl, placed, separated⟩
  exact ⟨expression, ofTokens_bare_call .squareRoot _ expression (by simp) (by simp)⟩

end ReversePolish

end Reckoner
