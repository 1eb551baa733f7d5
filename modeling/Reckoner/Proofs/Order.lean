/-
This file says in which order tokens come out: each comes once, and before an operand comes only
what stood before it.
-/

import Mathlib.Data.List.FinRange
import Reckoner.Proofs.Pending

namespace Reckoner

/-- The token takes no operands, so nothing has to come out before it. -/
def Token.isOperand : Token → Bool
  | .number _ | .unknown _ => true
  | .identifier name => (ElementaryFunction.ofName? name).isNone
  | .operator _ | .leftParenthesis | .rightParenthesis => false

namespace Pending

/-- An operand comes out at once. -/
theorem step_operand {token : Token} (operand : token.isOperand) (pending : List Pending) :
    step pending token = ([token], pending) := by
  cases token with
  | number literal => rfl
  | unknown character => rfl
  | identifier name => simp [step, Option.isNone_iff_eq_none.mp operand]
  | operator _ | leftParenthesis | rightParenthesis => contradiction

/-- Any other token releases pending tokens from the top and waits above the others, unless it is a
parenthesis. -/
theorem step_splits {token : Token} (waits : ¬token.isOperand) (pending : List Pending) :
    ∃ remaining, tokens pending = (step pending token).1 ++ remaining ∧
      tokens (step pending token).2 =
        [token].filter (fun other => !other.isParenthesis) ++ remaining := by
  cases token with
  | number _ | unknown _ => exact absurd rfl waits
  | leftParenthesis => exact ⟨tokens pending, rfl, rfl⟩
  | rightParenthesis => exact ⟨_, (closeGroup_tokens pending).symm, rfl⟩
  | operator sign => exact ⟨_, (yieldTo_tokens sign pending).symm, rfl⟩
  | identifier name =>
      obtain ⟨called, found⟩ : ∃ called, ElementaryFunction.ofName? name = some called := by
        simpa [Token.isOperand, ← Option.ne_none_iff_exists'] using waits
      obtain rfl := ElementaryFunction.name_of_ofName found
      exact ⟨tokens pending, by simp [step, found],
        by simp [step, found, Token.call, Token.isParenthesis]⟩

variable {Position : Type} [LinearOrder Position] {token : Position → Token}

/-- What comes out before an operand stands before it. -/
def OperandsLast (token : Position → Token) (order : List Position) : Prop :=
  order.Pairwise fun earlier later => (token later).isOperand → earlier < later

/-- The positions of the pending tokens, all of which stand before the tokens still to come. -/
structure Waiting (token : Position → Token) (pending : List Pending)
    (waiting source : List Position) : Prop where
  same : waiting.map token = tokens pending
  still : ∀ position ∈ waiting, ¬(token position).isOperand
  behind : ∀ position ∈ waiting, ∀ next ∈ source, position < next

/-- An operand comes out at once, and any other token lets out some that wait. -/
theorem Waiting.step {pending : List Pending} {waiting rest : List Position} {position : Position}
    (positions : Waiting token pending waiting (position :: rest))
    (before : ∀ next ∈ rest, position < next) :
    ∃ released stay : List Position,
      released.map token = (step pending (token position)).1 ∧
      Waiting token (step pending (token position)).2 stay rest ∧
      (released ++ stay).Perm
        ([position].filter (fun other => !(token other).isParenthesis) ++ waiting) ∧
      OperandsLast token released ∧ ∀ earlier ∈ released, ∀ next ∈ rest, earlier < next := by
  obtain ⟨same, still, behind⟩ := positions
  have behindRest : ∀ earlier ∈ waiting, ∀ next ∈ rest, earlier < next :=
    fun earlier member next inside => behind earlier member next (List.mem_cons_of_mem _ inside)
  by_cases operand : (token position).isOperand
  · have kept : (token position).isParenthesis = false := by
      cases kind : token position <;> simp_all [Token.isOperand, Token.isParenthesis]
    rw [step_operand operand]
    refine ⟨[position], waiting, rfl, ⟨same, still, behindRest⟩, by simp [kept],
      List.pairwise_singleton _ _, ?_⟩
    simpa using before
  · obtain ⟨remaining, released, left⟩ := step_splits operand pending
    obtain ⟨gone, others, rfl, goneSame, othersSame⟩ :=
      List.map_eq_append_iff.mp (same.trans released)
    let stay := [position].filter (fun other => !(token other).isParenthesis) ++ others
    have origin (other : Position) (member : other ∈ stay) :
        other = position ∨ other ∈ gone ++ others := by
      rcases List.mem_append.mp member with here | stays
      · exact .inl (List.mem_singleton.mp (List.mem_of_mem_filter here))
      · exact .inr (List.mem_append_right _ stays)
    refine ⟨gone, stay, goneSame, ⟨?_, ?_, ?_⟩, ?_, ?_, ?_⟩
    · rw [left, ← othersSame, List.map_append]
      cases parenthesis : (token position).isParenthesis <;> simp [parenthesis]
    · intro other member
      rcases origin other member with rfl | waits
      · exact operand
      · exact still other waits
    · intro other member
      rcases origin other member with rfl | waits
      · exact before
      · exact behindRest other waits
    · exact List.perm_append_comm_assoc _ _ _
    · refine List.pairwise_of_forall_mem_list fun _ _ later member laterOperand => ?_
      exact absurd laterOperand (still later (List.mem_append_left _ member))
    · intro earlier member
      exact behindRest earlier (List.mem_append_left _ member)

/-- Each position of a token comes out once, and those of operands only after earlier ones. -/
theorem exists_order {pending : List Pending} {waiting source : List Position}
    (positions : Waiting token pending waiting source) (ascending : source.Pairwise (· < ·)) :
    ∃ order : List Position,
      order.map token = (feed pending (source.map token)).1 ++
        tokens (feed pending (source.map token)).2 ∧
      order.Perm (source.filter (fun position => !(token position).isParenthesis) ++ waiting) ∧
      OperandsLast token order := by
  -- The positions that wait come out at the end, so they are carried along.
  induction source generalizing pending waiting with
  | nil =>
      refine ⟨waiting, positions.same, .refl _, List.pairwise_of_forall_mem_list ?_⟩
      intro _ _ later member operand
      exact absurd operand (positions.still later member)
  | cons position rest ih =>
      obtain ⟨before, ascending⟩ := List.pairwise_cons.mp ascending
      obtain ⟨released, stay, out, next, once, last, behind⟩ := positions.step before
      obtain ⟨order, restOut, restOnce, restLast⟩ := ih next ascending
      refine ⟨released ++ order, ?_, ?_, List.pairwise_append.mpr ⟨last, restLast, ?_⟩⟩
      · simp only [List.map_append, List.map_cons, feed, out, restOut, List.append_assoc]
      · rw [← List.singleton_append, List.filter_append]
        rw [List.perm_iff_count] at once restOnce ⊢
        intro counted
        have here := once counted
        have later := restOnce counted
        simp only [List.count_append] at here later ⊢
        omega
      · intro earlier member later laterMember operand
        rcases List.mem_append.mp (restOnce.mem_iff.mp laterMember) with inside | waits
        · exact behind earlier member later (List.mem_of_mem_filter inside)
        · exact absurd operand (next.still later waits)

end Pending

namespace ReversePolish

/-- Operands that come out in ascending positions come out as they stand. -/
theorem filter_isOperand_of_order {source : List Token} {order : List (Fin source.length)}
    (once : order.Perm
      ((List.finRange source.length).filter fun position => !(source.get position).isParenthesis))
    (last : Pending.OperandsLast source.get order) :
    (order.map source.get).filter Token.isOperand = source.filter Token.isOperand := by
  let operand (position : Fin source.length) : Bool := (source.get position).isOperand
  have ascending : (order.filter operand).Pairwise (· < ·) := by
    rw [List.pairwise_filter]
    exact last.imp fun {_ _} before _ laterOperand => before laterOperand
  have all : (order.filter operand).Perm ((List.finRange source.length).filter operand) := by
    refine (once.filter operand).trans (.of_eq ?_)
    rw [List.filter_filter]
    refine List.filter_congr fun position _ => ?_
    dsimp only [operand]
    cases source.get position <;> simp [Token.isOperand, Token.isParenthesis]
  have same : order.filter operand = (List.finRange source.length).filter operand :=
    all.eq_of_pairwise (fun _ _ _ _ first second => absurd second first.asymm) ascending
      (List.Pairwise.filter _ (List.pairwise_lt_finRange _))
  calc (order.map source.get).filter Token.isOperand
      = (order.filter operand).map source.get := List.filter_map
    _ = ((List.finRange source.length).map source.get).filter Token.isOperand := by
        rw [same, List.filter_map]
        rfl
    _ = source.filter Token.isOperand := by rw [List.map_get_finRange]

/-- The reordered tokens are the given ones without their parentheses, with the operands in their
order. Each comes from its own position, and before an operand comes only what stood before it. -/
theorem ofTokens_order (source : List Token) :
    (ofTokens source).Perm (source.filter fun token => !token.isParenthesis) ∧
      (ofTokens source).filter Token.isOperand = source.filter Token.isOperand ∧
      ∃ order : List (Fin source.length),
        order.map source.get = ofTokens source ∧
        order.Perm ((List.finRange source.length).filter
          fun position => !(source.get position).isParenthesis) ∧
        order.Pairwise fun earlier later => (source.get later).isOperand → earlier < later := by
  have start : Pending.Waiting source.get [] [] (List.finRange source.length) :=
    ⟨rfl, by simp, by simp⟩
  obtain ⟨order, out, once, last⟩ :=
    Pending.exists_order start (List.pairwise_lt_finRange source.length)
  rw [List.map_get_finRange, ← ofTokens_def] at out
  rw [List.append_nil] at once
  exact ⟨ofTokens_perm source, out ▸ filter_isOperand_of_order once last, order, out, once, last⟩

end ReversePolish

end Reckoner
