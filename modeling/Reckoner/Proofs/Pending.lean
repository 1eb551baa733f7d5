/-
This file says what pending items release, and that each token comes out of them once.
-/

import Reckoner.ReversePolish

namespace Reckoner

def Token.isParenthesis : Token → Bool
  | .leftParenthesis | .rightParenthesis => true
  | _ => false

namespace Pending

/-- An operand of the level may start here, since nothing on top takes a part of it. -/
def Admits (level : Nat) : List Pending → Prop
  | [] => True
  | .parenthesis :: _ => True
  | .operator sign :: _ => sign.precedence < level
  | .function _ :: _ => False

/-- A tighter level admits no fewer operands. -/
theorem Admits.mono {low high : Nat} {pending : List Pending} (admits : Admits low pending)
    (tighter : low ≤ high) : Admits high pending := by
  cases pending with
  | nil => trivial
  | cons top rest =>
      cases top with
      | operator sign => exact Nat.lt_of_lt_of_le admits tighter
      | function called => exact admits
      | parenthesis => trivial

/-- The two parts of a list feed the items one after the other. -/
theorem feed_append {pending middle last : List Pending} {first second output rest : List Token}
    (firstRun : feed pending first = (output, middle))
    (secondRun : feed middle second = (rest, last)) :
    feed pending (first ++ second) = (output ++ rest, last) := by
  induction first generalizing pending output with
  | nil =>
      obtain ⟨rfl, rfl⟩ : [] = output ∧ pending = middle := by simpa [feed] using firstRun
      simpa using secondRun
  | cons token tokens ih =>
      simp only [feed, Prod.mk.injEq] at firstRun
      obtain ⟨rfl, reached⟩ := firstRun
      have tail := ih (Prod.ext rfl reached)
      simp only [List.cons_append, feed, tail, List.append_assoc]

/-- The name of a function waits for its argument. -/
@[simp] theorem step_call (pending : List Pending) (function : ElementaryFunction) :
    step pending (.call function) = ([], .function function :: pending) := by
  simp [step, Token.call]

@[simp] theorem step_leftParenthesis (pending : List Pending) :
    step pending .leftParenthesis = ([], .parenthesis :: pending) := rfl

@[simp] theorem feed_singleton (pending : List Pending) (token : Token) :
    feed pending [token] = step pending token := by
  simp [feed]

/-- An arriving operator releases all that bind as tightly, and nothing of what admits it. -/
theorem yieldTo_operators {incoming : Operator} {signs : List Operator} {pending : List Pending}
    (tight : ∀ sign ∈ signs, incoming.precedence ≤ sign.precedence)
    (admits : Admits incoming.precedence pending) :
    yieldTo incoming (signs.map .operator ++ pending) = (signs.map .operator, pending) := by
  induction signs with
  | nil =>
      match pending, admits with
      | [], _ => rfl
      | .parenthesis :: _, _ => rfl
      | .operator sign :: _, looser => exact if_pos looser
  | cons sign signs ih =>
      have tail := ih fun other member => tight other (List.mem_cons_of_mem _ member)
      have binds : ¬sign.precedence < incoming.precedence :=
        Nat.not_lt.mpr (tight sign List.mem_cons_self)
      simp only [List.map_cons, List.cons_append, yieldTo, binds, ↓reduceIte, tail]

/-- The tokens that the items stand for, in the order of their release. -/
def tokens (pending : List Pending) : List Token := pending.filterMap token?

@[simp] theorem tokens_nil : tokens [] = [] := rfl

@[simp] theorem tokens_operator (sign : Operator) (below : List Pending) :
    tokens (.operator sign :: below) = .operator sign :: tokens below := rfl

@[simp] theorem tokens_function (called : ElementaryFunction) (below : List Pending) :
    tokens (.function called :: below) = .call called :: tokens below := rfl

@[simp] theorem tokens_parenthesis (below : List Pending) :
    tokens (.parenthesis :: below) = tokens below := rfl

@[simp] theorem tokens_operators (signs : List Operator) :
    tokens (signs.map .operator) = signs.map .operator := by
  simp [tokens, token?, Function.comp_def]

@[simp] theorem tokens_append (above below : List Pending) :
    tokens (above ++ below) = tokens above ++ tokens below := List.filterMap_append

@[simp] theorem tokens_parentheses (count : Nat) :
    tokens (List.replicate count .parenthesis) = [] := by
  simp [tokens, token?]

/-- A closing parenthesis whose partner is not above releases all that is there. -/
theorem closeGroup_append_of_not_mem {pending : List Pending} (unmatched : .parenthesis ∉ pending)
    (below : List Pending) :
    closeGroup (pending ++ below) =
      (tokens pending ++ (closeGroup below).1, (closeGroup below).2) := by
  induction pending with
  | nil => rfl
  | cons item rest ih =>
      obtain ⟨notHere, notLater⟩ := not_or.mp (mt List.mem_cons.mpr unmatched)
      cases item with
      | operator sign => simp [closeGroup, ih notLater]
      | function called => simp [closeGroup, ih notLater]
      | parenthesis => contradiction

/-- A closing parenthesis releases the operators of its group. -/
theorem closeGroup_operators (signs : List Operator) (pending : List Pending) :
    closeGroup (signs.map .operator ++ pending) =
      (signs.map .operator ++ (closeGroup pending).1, (closeGroup pending).2) := by
  rw [closeGroup_append_of_not_mem (by simp), tokens_operators]

/-- A group that no function owns leaves the items under it alone. -/
theorem closeGroup_parenthesis {level : Nat} {pending : List Pending}
    (admits : Admits level pending) : closeGroup (.parenthesis :: pending) = ([], pending) := by
  match pending, admits with
  | [], _ => rfl
  | .parenthesis :: _, _ => rfl
  | .operator _ :: _, _ => rfl

/-- The end of a group keeps all tokens in their order. -/
theorem closeGroup_tokens (pending : List Pending) :
    (closeGroup pending).1 ++ tokens (closeGroup pending).2 = tokens pending := by
  fun_induction closeGroup pending with
  | case1 => rfl
  | case2 called rest => rfl
  | case3 rest unowned => rfl
  | case4 sign rest released remaining reached ih =>
      simpa [reached] using ih
  | case5 called rest released remaining reached ih =>
      simpa [reached] using ih

/-- An arriving operator keeps all tokens in their order. -/
theorem yieldTo_tokens (incoming : Operator) (pending : List Pending) :
    (yieldTo incoming pending).1 ++ tokens (yieldTo incoming pending).2 = tokens pending := by
  fun_induction yieldTo incoming pending with
  | case1 sign rest looser => rfl
  | case2 sign rest tight released remaining reached ih =>
      simpa [reached] using ih
  | case3 pending other => rfl

theorem closeGroup_suffix (pending : List Pending) : (closeGroup pending).2 <:+ pending := by
  fun_induction closeGroup pending with
  | case1 => exact List.suffix_rfl
  | case2 called rest => exact (List.suffix_cons _ rest).trans (List.suffix_cons _ _)
  | case3 rest unowned => exact List.suffix_cons _ rest
  | case4 sign rest released remaining reached ih =>
      rw [reached] at ih
      exact ih.trans (List.suffix_cons _ rest)
  | case5 called rest released remaining reached ih =>
      rw [reached] at ih
      exact ih.trans (List.suffix_cons _ rest)

theorem yieldTo_suffix (incoming : Operator) (pending : List Pending) :
    (yieldTo incoming pending).2 <:+ pending := by
  fun_induction yieldTo incoming pending with
  | case1 sign rest looser => exact List.suffix_rfl
  | case2 sign rest tight released remaining reached ih =>
      rw [reached] at ih
      exact ih.trans (List.suffix_cons _ rest)
  | case3 pending other => exact List.suffix_rfl

/-- A token joins the items or comes out behind what it releases, unless it is a parenthesis. -/
theorem step_perm (pending : List Pending) (token : Token) :
    ((step pending token).1 ++ tokens (step pending token).2).Perm
      ([token].filter (fun other => !other.isParenthesis) ++ tokens pending) := by
  cases token with
  | number literal => exact .refl _
  | unknown character => exact .refl _
  | leftParenthesis => exact .refl _
  | rightParenthesis => exact .of_eq (closeGroup_tokens pending)
  | identifier name =>
      cases found : ElementaryFunction.ofName? name with
      | none => simp [step, found, Token.isParenthesis]
      | some called =>
          obtain rfl := ElementaryFunction.name_of_ofName found
          simp [step, found, Token.isParenthesis, Token.call]
  | operator sign =>
      change ((yieldTo sign pending).1 ++ .operator sign ::
        tokens (yieldTo sign pending).2).Perm (.operator sign :: tokens pending)
      rw [← yieldTo_tokens sign pending]
      exact List.perm_middle

/-- All tokens but the parentheses are released or still pending at the end. -/
theorem feed_perm (pending : List Pending) (source : List Token) :
    ((feed pending source).1 ++ tokens (feed pending source).2).Perm
      (source.filter (fun token => !token.isParenthesis) ++ tokens pending) := by
  induction source generalizing pending with
  | nil => exact .refl _
  | cons token rest ih =>
      have first := step_perm pending token
      have others := ih (step pending token).2
      rw [List.perm_iff_count] at first others ⊢
      intro counted
      have firstCount := first counted
      have otherCount := others counted
      rw [← List.singleton_append (x := token), List.filter_append]
      simp only [List.singleton_append, feed, List.count_append] at firstCount otherCount ⊢
      omega

end Pending

/-- What is released comes first, then what is still pending. -/
theorem ReversePolish.ofTokens_def (source : List Token) :
    ofTokens source =
      (Pending.feed [] source).1 ++ Pending.tokens (Pending.feed [] source).2 := rfl

/-- The reordered tokens are the given ones without their parentheses. -/
theorem ReversePolish.ofTokens_perm (source : List Token) :
    (ofTokens source).Perm (source.filter fun token => !token.isParenthesis) := by
  rw [ofTokens_def]
  simpa [Pending.tokens] using Pending.feed_perm [] source

theorem ReversePolish.mem_ofTokens {source : List Token} {token : Token} :
    token ∈ ofTokens source ↔ token ∈ source ∧ ¬token.isParenthesis := by
  simpa using (ofTokens_perm source).mem_iff (a := token)

/-- Nothing is left of parentheses alone. -/
theorem ReversePolish.ofTokens_eq_nil_iff {source : List Token} :
    ofTokens source = [] ↔ ∀ token ∈ source, token.isParenthesis := by
  simp only [List.eq_nil_iff_forall_not_mem, mem_ofTokens, not_and, Decidable.not_not]

end Reckoner
