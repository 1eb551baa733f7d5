/-
This file shows that of neighbouring pending operators the upper one binds tighter, and that the
pending parentheses are those whose partners have not been read.
-/

import Mathlib.Data.List.Chain
import Reckoner.Proofs.Parentheses

namespace Reckoner

theorem Operator.precedence_pos (operator : Operator) : 0 < operator.precedence := by
  cases operator <;> decide

theorem Operator.precedence_le (operator : Operator) : operator.precedence ≤ 3 := by
  cases operator <;> decide

/-- Operators of falling precedences are at most as many as the first one has room for. -/
theorem Operator.length_le_of_pairwise {bound : Nat} {signs : List Operator}
    (falling : signs.Pairwise fun upper lower => lower.precedence < upper.precedence)
    (within : ∀ sign ∈ signs, sign.precedence ≤ bound) : signs.length ≤ bound := by
  induction signs generalizing bound with
  | nil => exact Nat.zero_le bound
  | cons sign rest ih =>
      obtain ⟨looser, others⟩ := List.pairwise_cons.mp falling
      have few : rest.length ≤ sign.precedence - 1 :=
        ih others fun other member => Nat.le_sub_one_of_lt (looser other member)
      have top := within sign List.mem_cons_self
      have positive := sign.precedence_pos
      rw [List.length_cons]
      omega

namespace Pending

variable {pending : List Pending}

/-- Of two operators the upper one binds tighter. Nothing is asked of other items. -/
def BindsOver : Pending → Pending → Prop
  | .operator upper, .operator lower => lower.precedence < upper.precedence
  | _, _ => True

/-- Each operator binds tighter than one that is right below it. -/
def Graded (pending : List Pending) : Prop := pending.IsChain BindsOver

/-- An item that is no operator may stand on any other. -/
theorem Graded.cons_plain (graded : Graded pending) {item : Pending}
    (plain : ∀ sign, item ≠ .operator sign) : Graded (item :: pending) := by
  apply List.IsChain.cons graded
  intro below _
  cases item with
  | operator sign => exact absurd rfl (plain sign)
  | function _ => trivial
  | parenthesis => trivial

/-- An arriving operator binds tighter than the one it stops at. -/
theorem bindsOver_of_yieldTo (incoming : Operator) (pending : List Pending) :
    ∀ below ∈ (yieldTo incoming pending).2.head?, BindsOver (.operator incoming) below := by
  fun_induction yieldTo incoming pending with
  | case1 sign rest looser => simpa [BindsOver] using looser
  | case2 sign rest tight released remaining reached ih => simpa [reached] using ih
  | case3 pending other =>
      intro below top
      cases below with
      | operator sign =>
          obtain ⟨rest, same⟩ := List.head?_eq_some_iff.mp top
          exact absurd same (other sign rest)
      | function _ => trivial
      | parenthesis => trivial

theorem Graded.step (graded : Graded pending) (token : Token) :
    Graded (step pending token).2 := by
  cases token with
  | number literal => exact graded
  | unknown character => exact graded
  | leftParenthesis => exact graded.cons_plain (by simp)
  | rightParenthesis => exact List.IsChain.suffix graded (closeGroup_suffix pending)
  | identifier name =>
      cases found : ElementaryFunction.ofName? name with
      | none => simpa [Pending.step, found] using graded
      | some called => simpa [Pending.step, found] using graded.cons_plain (by simp)
  | operator sign =>
      have kept : Graded (yieldTo sign pending).2 :=
        List.IsChain.suffix graded (yieldTo_suffix sign pending)
      exact List.IsChain.cons kept (bindsOver_of_yieldTo sign pending)

theorem Graded.feed (graded : Graded pending) (source : List Token) :
    Graded (feed pending source).2 := by
  induction source generalizing pending with
  | nil => exact graded
  | cons token rest ih => exact ih (graded.step token)

/-- The precedences fall from the top of a run of operators to its bottom. -/
theorem Graded.pairwise {above below : List Pending} {signs : List Operator}
    (graded : Graded (above ++ signs.map .operator ++ below)) :
    signs.Pairwise fun upper lower => lower.precedence < upper.precedence := by
  have run : (signs.map Pending.operator).IsChain BindsOver :=
    graded.left_of_append.right_of_append
  have falling : signs.IsChain fun upper lower => lower.precedence < upper.precedence :=
    (List.isChain_map _).mp run
  exact List.isChain_iff_pairwise.mp falling

/-- After each token that is read, the precedences in a run of pending operators rise from the
bottom to the top, so that there are at most three, and a parenthesis is pending for each one that
is open. -/
theorem feed_graded (read rest : List Token) :
    feed [] (read ++ rest) =
        ((feed [] read).1 ++ (feed (feed [] read).2 rest).1, (feed (feed [] read).2 rest).2) ∧
      (∀ (above below : List Pending) (signs : List Operator),
        (feed [] read).2 = above ++ signs.map .operator ++ below →
          signs.Pairwise (fun upper lower => lower.precedence < upper.precedence) ∧
            signs.length ≤ 3) ∧
      (feed [] read).2.count .parenthesis = (Unpaired.ofTokens read).opening := by
  refine ⟨feed_append (Prod.eta _).symm (Prod.eta _).symm, ?_, count_feed_nil read⟩
  intro above below signs reached
  have start : Graded [] := List.isChain_nil
  have graded := start.feed read
  rw [reached] at graded
  have falling := graded.pairwise
  exact ⟨falling, Operator.length_le_of_pairwise falling fun sign _ => sign.precedence_le⟩

theorem feed_graded_group :
    (feed [] [.number "1", .operator .plus, .number "2", .operator .times, .call .sine,
        .leftParenthesis, .number "3", .operator .minus, .number "4", .operator .divide,
        .number "5", .operator .power]).2 =
      [] ++ [Operator.power, .divide, .minus].map .operator ++
        [.parenthesis, .function .sine, .operator .times, .operator .plus] ∧
    [Operator.power, .divide, .minus].Pairwise
      (fun upper lower => lower.precedence < upper.precedence) ∧
    [Operator.power, .divide, .minus].length ≤ 3 := by
  have reached : (feed [] [.number "1", .operator .plus, .number "2", .operator .times,
      .call .sine, .leftParenthesis, .number "3", .operator .minus, .number "4",
      .operator .divide, .number "5", .operator .power]).2 =
      [] ++ [Operator.power, .divide, .minus].map .operator ++
        [.parenthesis, .function .sine, .operator .times, .operator .plus] := by
    decide
  exact ⟨reached, (feed_graded _ []).2.1 _ _ _ reached⟩

end Pending

end Reckoner
