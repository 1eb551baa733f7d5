/-
This file shows that a group is converted on its own whatever stands around it, and that parentheses
without a partner are converted as if each had one at the end that it faces.
-/

import Reckoner.Proofs.Evaluation
import Reckoner.Proofs.Pending
import Reckoner.Token.Parentheses

namespace Reckoner

namespace Unpaired

/-- A closing parenthesis without a partner stays without one. -/
theorem closing_le_add (unpaired : Unpaired) (token : Token) :
    unpaired.closing ≤ (unpaired.add token).closing := by
  cases token with
  | rightParenthesis =>
      simp only [add]
      split <;> simp
  | _ => exact Nat.le_refl _

/-- Only a closing parenthesis adds to those without a partner, where no group is open. -/
theorem closing_add_eq_iff {unpaired : Unpaired} {token : Token} :
    (unpaired.add token).closing = unpaired.closing ↔
      (token = .rightParenthesis → unpaired.opening ≠ 0) := by
  cases token with
  | rightParenthesis => by_cases none : unpaired.opening = 0 <;> simp [add, none]
  | _ => simp [add]

theorem closing_le_foldl (unpaired : Unpaired) (tokens : List Token) :
    unpaired.closing ≤ (tokens.foldl add unpaired).closing := by
  induction tokens generalizing unpaired with
  | nil => exact Nat.le_refl _
  | cons token rest ih => exact Nat.le_trans (unpaired.closing_le_add token) (ih _)

/-- The opening parentheses that are put in front find partners first. -/
def supplied (openings : Nat) (unpaired : Unpaired) : Unpaired :=
  ⟨unpaired.closing - openings, unpaired.opening + (openings - unpaired.closing)⟩

theorem supplied_add (openings : Nat) (unpaired : Unpaired) (token : Token) :
    (unpaired.supplied openings).add token = (unpaired.add token).supplied openings := by
  cases token with
  | leftParenthesis =>
      simp only [add, supplied, Unpaired.mk.injEq, true_and]
      omega
  | rightParenthesis =>
      by_cases closed : unpaired.opening = 0
      · by_cases spent : openings ≤ unpaired.closing
        · have none : openings - unpaired.closing = 0 := by omega
          simp only [add, supplied, closed, none, ↓reduceIte, Unpaired.mk.injEq]
          omega
        · have some : openings - unpaired.closing ≠ 0 := by omega
          simp only [add, supplied, closed, some, ↓reduceIte, Nat.zero_add, Unpaired.mk.injEq]
          omega
      · have stillOpen : unpaired.opening + (openings - unpaired.closing) ≠ 0 := by omega
        simp only [add, supplied, closed, stillOpen, ↓reduceIte, Unpaired.mk.injEq, true_and]
        omega
  | _ => rfl

theorem foldl_supplied (openings : Nat) (unpaired : Unpaired) (tokens : List Token) :
    tokens.foldl add (unpaired.supplied openings) =
      (tokens.foldl add unpaired).supplied openings :=
  List.foldl_hom _ (supplied_add openings)

theorem foldl_openings (openings : Nat) (unpaired : Unpaired) :
    (List.replicate openings .leftParenthesis).foldl add unpaired =
      ⟨unpaired.closing, unpaired.opening + openings⟩ := by
  induction openings generalizing unpaired with
  | zero => rfl
  | succ openings ih =>
      simp only [List.replicate_succ, List.foldl_cons, ih, add, Unpaired.mk.injEq, true_and]
      omega

/-- As many closing parentheses as there are open ones leave none open. -/
theorem foldl_closings (unpaired : Unpaired) :
    (List.replicate unpaired.opening .rightParenthesis).foldl add unpaired =
      ⟨unpaired.closing, 0⟩ := by
  obtain ⟨closing, opening⟩ := unpaired
  induction opening with
  | zero => rfl
  | succ opening ih => simpa [List.replicate_succ, add] using ih

end Unpaired

/-- Each missing partner stands at the end that its parenthesis faces. -/
def completed (tokens : List Token) : List Token :=
  List.replicate (Unpaired.ofTokens tokens).closing .leftParenthesis ++ tokens ++
    List.replicate (Unpaired.ofTokens tokens).opening .rightParenthesis

theorem balanced_completed (tokens : List Token) : Balanced (completed tokens) := by
  let unpaired := Unpaired.ofTokens tokens
  have start : (⟨0, unpaired.closing⟩ : Unpaired) = Unpaired.supplied unpaired.closing ⟨0, 0⟩ := by
    simp [Unpaired.supplied]
  have reached : unpaired.supplied unpaired.closing = ⟨0, unpaired.opening⟩ := by
    simp [Unpaired.supplied]
  have opened : tokens.foldl Unpaired.add ⟨0, unpaired.closing⟩ = ⟨0, unpaired.opening⟩ := by
    rw [start, Unpaired.foldl_supplied, ← reached]
    rfl
  unfold Balanced completed
  rw [Unpaired.ofTokens, List.foldl_append, List.foldl_append, Unpaired.foldl_openings,
    Nat.zero_add, opened]
  exact Unpaired.foldl_closings ⟨0, unpaired.opening⟩

namespace Pending

variable {pending below : List Pending} {unpaired : Unpaired} {token : Token}

/-- Something else stands below all open groups. -/
def Founded (pending : List Pending) : Prop := pending.getLast? ≠ some .parenthesis

theorem Founded.of_suffix {remaining : List Pending} (founded : Founded pending)
    (suffix : remaining <:+ pending) : Founded remaining := by
  obtain ⟨released, rfl⟩ := suffix
  cases remaining with
  | nil => simp [Founded]
  | cons item rest => simpa [Founded, List.getLast?_append] using founded

/-- Nothing below takes part in what is released above: no operator stands on top there, and no
group opens right above a function. -/
structure Floor (pending below : List Pending) : Prop where
  noOperator : ∀ sign rest, below ≠ .operator sign :: rest
  founded : ∀ called rest, below = .function called :: rest → Founded pending

theorem Floor.of_admits (admits : Admits 0 below) : Floor pending below := by
  constructor
  · rintro sign rest rfl
    exact Nat.not_lt_zero _ admits
  · rintro called rest rfl
    exact admits.elim

theorem Floor.of_suffix {remaining : List Pending} (floor : Floor pending below)
    (suffix : remaining <:+ pending) : Floor remaining below :=
  ⟨floor.noOperator, fun called rest same => (floor.founded called rest same).of_suffix suffix⟩

/-- An arriving operator releases nothing below the floor. -/
theorem yieldTo_append (floor : Floor pending below) (incoming : Operator) :
    yieldTo incoming (pending ++ below) =
      ((yieldTo incoming pending).1, (yieldTo incoming pending).2 ++ below) := by
  fun_induction yieldTo incoming pending with
  | case1 sign rest looser => simp [yieldTo, looser]
  | case2 sign rest tight released remaining reached ih =>
      simp [yieldTo, tight, ih (floor.of_suffix (List.suffix_cons _ rest)), reached]
  | case3 pending other =>
      cases pending with
      | nil =>
          cases below with
          | nil => rfl
          | cons top rest =>
              cases top with
              | operator sign => exact absurd rfl (floor.noOperator sign rest)
              | function called => rfl
              | parenthesis => rfl
      | cons item rest =>
          cases item with
          | operator sign => exact absurd rfl (other sign rest)
          | function called => rfl
          | parenthesis => rfl

/-- A closing parenthesis that has a partner releases nothing below the floor. -/
theorem closeGroup_append (floor : Floor pending below) (partner : .parenthesis ∈ pending) :
    closeGroup (pending ++ below) = ((closeGroup pending).1, (closeGroup pending).2 ++ below) := by
  fun_induction closeGroup pending with
  | case1 => contradiction
  | case2 called rest => rfl
  | case3 rest unowned =>
      cases rest with
      | nil =>
          cases below with
          | nil => rfl
          | cons top rest =>
              cases top with
              | operator sign => rfl
              | function called => exact absurd rfl (floor.founded called rest rfl)
              | parenthesis => rfl
      | cons item others =>
          cases item with
          | operator sign => rfl
          | function called => exact absurd rfl (unowned called others)
          | parenthesis => rfl
  | case4 sign rest released remaining reached ih =>
      have others := ih (floor.of_suffix (List.suffix_cons _ rest)) (by simpa using partner)
      simp [closeGroup, others, reached]
  | case5 called rest released remaining reached ih =>
      have others := ih (floor.of_suffix (List.suffix_cons _ rest)) (by simpa using partner)
      simp [closeGroup, others, reached]

/-- An unmatched closing parenthesis releases everything. -/
theorem closeGroup_of_not_mem (unmatched : .parenthesis ∉ pending) :
    closeGroup pending = (tokens pending, []) := by
  simpa [closeGroup] using closeGroup_append_of_not_mem unmatched []

/-- A token does the same above the floor as it does alone, unless it closes a group below. -/
theorem step_append (floor : Floor pending below)
    (paired : token = .rightParenthesis → .parenthesis ∈ pending) :
    step (pending ++ below) token = ((step pending token).1, (step pending token).2 ++ below) := by
  cases token with
  | number literal => rfl
  | unknown character => rfl
  | leftParenthesis => rfl
  | rightParenthesis => exact closeGroup_append floor (paired rfl)
  | identifier name =>
      cases found : ElementaryFunction.ofName? name <;> simp [step, found]
  | operator sign => simp [step, yieldTo_append floor]

@[simp] theorem count_yieldTo (incoming : Operator) (pending : List Pending) :
    (yieldTo incoming pending).2.count .parenthesis = pending.count .parenthesis := by
  fun_induction yieldTo incoming pending with
  | case1 sign rest looser => rfl
  | case2 sign rest tight released remaining reached ih => simpa [reached] using ih
  | case3 pending other => rfl

@[simp] theorem count_closeGroup (pending : List Pending) :
    (closeGroup pending).2.count .parenthesis = pending.count .parenthesis - 1 := by
  fun_induction closeGroup pending with
  | case1 => rfl
  | case2 called rest => simp
  | case3 rest unowned => simp
  | case4 sign rest released remaining reached ih => simpa [reached] using ih
  | case5 called rest released remaining reached ih => simpa [reached] using ih

/-- A token changes the number of open groups by that of the open parentheses. -/
theorem count_step (depth : unpaired.opening = pending.count .parenthesis) (token : Token) :
    (unpaired.add token).opening = (step pending token).2.count .parenthesis := by
  cases token with
  | number literal => exact depth
  | unknown character => exact depth
  | leftParenthesis => simp [Unpaired.add, step, depth]
  | rightParenthesis =>
      simp only [Unpaired.add, step, count_closeGroup, ← depth]
      split
      · next none => rw [none]
      · rfl
  | identifier name =>
      cases found : ElementaryFunction.ofName? name <;> simp [Unpaired.add, step, found, depth]
  | operator sign => simp [Unpaired.add, step, depth]

/-- The open groups are the opening parentheses that have no partner yet. -/
theorem count_feed (depth : unpaired.opening = pending.count .parenthesis) (source : List Token) :
    (source.foldl Unpaired.add unpaired).opening =
      (feed pending source).2.count .parenthesis := by
  induction source generalizing pending unpaired with
  | nil => exact depth
  | cons token rest ih => exact ih (count_step depth token)

/-- The parentheses that stay pending have no partner. -/
theorem count_feed_nil (source : List Token) :
    (feed [] source).2.count .parenthesis = (Unpaired.ofTokens source).opening := by
  have start : (⟨0, 0⟩ : Unpaired).opening = ([] : List Pending).count .parenthesis := rfl
  exact (count_feed start source).symm

/-- A closing parenthesis has its partner above where the number of those without one stays. -/
theorem mem_of_closing_eq (depth : unpaired.opening = pending.count .parenthesis)
    (same : (unpaired.add token).closing = unpaired.closing) :
    token = .rightParenthesis → .parenthesis ∈ pending := by
  intro closes
  have some := Unpaired.closing_add_eq_iff.mp same closes
  rw [depth] at some
  exact List.count_pos_iff.mp (Nat.pos_of_ne_zero some)

/-- Tokens do the same above an open group as they do alone, where none of them closes it. -/
theorem feed_append_below (floor : Admits 0 below)
    (depth : unpaired.opening = pending.count .parenthesis) {source : List Token}
    (same : (source.foldl Unpaired.add unpaired).closing = unpaired.closing) :
    feed (pending ++ below) source =
      ((feed pending source).1, (feed pending source).2 ++ below) := by
  induction source generalizing pending unpaired with
  | nil => rfl
  | cons token rest ih =>
      have first := unpaired.closing_le_add token
      have others := (unpaired.add token).closing_le_foldl rest
      rw [List.foldl_cons] at same
      have stays : (unpaired.add token).closing = unpaired.closing := by omega
      have here := step_append (.of_admits floor) (mem_of_closing_eq depth stays)
      have later := ih (count_step depth token) (by omega)
      simp only [feed, here, later]

/-- A balanced group leaves no parenthesis open. -/
theorem not_mem_of_balanced {group : List Token} (balanced : Balanced group) :
    .parenthesis ∉ (feed [] group).2 := by
  have whole : Unpaired.ofTokens group = ⟨0, 0⟩ := balanced
  rw [← List.count_eq_zero, count_feed_nil, whole]

/-- A balanced group comes out as it does on its own, before the function that owns it. -/
theorem feed_group (pending : List Pending) {group : List Token} (balanced : Balanced group) :
    feed pending ([.leftParenthesis] ++ group ++ [.rightParenthesis]) =
      (ReversePolish.ofTokens group ++ (closeGroup (.parenthesis :: pending)).1,
        (closeGroup (.parenthesis :: pending)).2) := by
  have whole : group.foldl Unpaired.add ⟨0, 0⟩ = ⟨0, 0⟩ := balanced
  have start : (⟨0, 0⟩ : Unpaired).opening = ([] : List Pending).count .parenthesis := rfl
  have inside : feed (.parenthesis :: pending) group =
      ((feed [] group).1, (feed [] group).2 ++ .parenthesis :: pending) := by
    have floor : Admits 0 (.parenthesis :: pending) := trivial
    exact feed_append_below floor start (by rw [whole])
  have unmatched := not_mem_of_balanced balanced
  have opened : feed pending [.leftParenthesis] = ([], .parenthesis :: pending) := rfl
  have closed : feed ((feed [] group).2 ++ .parenthesis :: pending) [.rightParenthesis] =
      (tokens (feed [] group).2 ++ (closeGroup (.parenthesis :: pending)).1,
        (closeGroup (.parenthesis :: pending)).2) := by
    rw [feed_singleton, step, closeGroup_append_of_not_mem unmatched]
  have run := feed_append (feed_append opened inside) closed
  rw [run, List.nil_append, ← List.append_assoc]
  rfl

/-- Open parentheses at the bottom close one by one where others would close nothing. -/
theorem step_above_parentheses (openings : Nat)
    (depth : unpaired.opening = pending.count .parenthesis) (token : Token) :
    step (pending ++ List.replicate (openings - unpaired.closing) .parenthesis) token =
      ((step pending token).1, (step pending token).2 ++
        List.replicate (openings - (unpaired.add token).closing) .parenthesis) := by
  by_cases same : (unpaired.add token).closing = unpaired.closing
  · have floor : Admits 0 (List.replicate (openings - unpaired.closing) .parenthesis) := by
      cases openings - unpaired.closing <;> trivial
    rw [same]
    exact step_append (.of_admits floor) (mem_of_closing_eq depth same)
  · obtain ⟨rfl, none⟩ : token = .rightParenthesis ∧ unpaired.opening = 0 := by
      simpa [Unpaired.closing_add_eq_iff] using same
    have unmatched : .parenthesis ∉ pending := List.count_eq_zero.mp (depth ▸ none)
    have after : openings - (unpaired.closing + 1) = openings - unpaired.closing - 1 := by omega
    have bottom (count : Nat) : closeGroup (List.replicate count .parenthesis) =
        ([], List.replicate (count - 1) .parenthesis) := by
      match count with
      | 0 => rfl
      | 1 => rfl
      | _ + 2 => rfl
    simp only [step, closeGroup_append_of_not_mem unmatched, closeGroup_of_not_mem unmatched,
      Unpaired.add, none, ↓reduceIte, after, bottom, List.append_nil, List.nil_append]

theorem feed_above_parentheses (openings : Nat)
    (depth : unpaired.opening = pending.count .parenthesis) (source : List Token) :
    feed (pending ++ List.replicate (openings - unpaired.closing) .parenthesis) source =
      ((feed pending source).1, (feed pending source).2 ++
        List.replicate (openings - (source.foldl Unpaired.add unpaired).closing) .parenthesis) := by
  induction source generalizing pending unpaired with
  | nil => rfl
  | cons token rest ih =>
      have here := step_above_parentheses openings depth token
      have later := ih (count_step depth token)
      simp only [feed, here, later, List.foldl_cons]

theorem feed_openings (openings : Nat) (pending : List Pending) :
    feed pending (List.replicate openings .leftParenthesis) =
      ([], List.replicate openings .parenthesis ++ pending) := by
  induction openings generalizing pending with
  | zero => rfl
  | succ openings ih =>
      have bottom : List.replicate openings .parenthesis ++ .parenthesis :: pending =
          List.replicate (openings + 1) .parenthesis ++ pending := by
        rw [List.append_cons, ← List.replicate_succ']
      simp only [List.replicate_succ (a := Token.leftParenthesis), feed, step, ih, bottom,
        List.append_nil]

end Pending

namespace ReversePolish

open Pending

/-- A closing parenthesis at the end changes nothing. -/
theorem ofTokens_append_closing (source : List Token) :
    ofTokens (source ++ [.rightParenthesis]) = ofTokens source := by
  have closed := feed_append (Prod.eta (feed [] source)).symm
    (feed_singleton (feed [] source).2 .rightParenthesis)
  rw [ofTokens_def, closed, List.append_assoc]
  change _ ++ ((closeGroup _).1 ++ Pending.tokens (closeGroup _).2) = _
  rw [closeGroup_tokens]
  rfl

/-- Opening parentheses in front and closing ones behind change nothing. -/
theorem ofTokens_surrounded (openings closings : Nat) (source : List Token) :
    ofTokens (List.replicate openings .leftParenthesis ++ source ++
      List.replicate closings .rightParenthesis) = ofTokens source := by
  induction closings with
  | zero =>
      have start : (⟨0, 0⟩ : Unpaired).opening = ([] : List Pending).count .parenthesis := rfl
      have above := feed_above_parentheses openings start source
      rw [List.nil_append, ← List.append_nil (List.replicate _ _)] at above
      have run := feed_append (feed_openings openings []) above
      simp only [List.replicate_zero, List.append_nil, ofTokens_def, run, List.nil_append,
        tokens_append, tokens_parentheses]
  | succ closings ih =>
      rw [List.replicate_succ', ← List.append_assoc, ofTokens_append_closing, ih]

/-- Each parenthesis without a partner counts as if it had one at the end that it faces, so that
closing parentheses at the end and a pair around the whole change nothing. -/
theorem ofTokens_completed (source : List Token) :
    Balanced (completed source) ∧ ofTokens (completed source) = ofTokens source ∧
      (∀ closings,
        ofTokens (source ++ List.replicate closings .rightParenthesis) = ofTokens source) ∧
      ofTokens ([.leftParenthesis] ++ source ++ [.rightParenthesis]) = ofTokens source :=
  ⟨balanced_completed source, ofTokens_surrounded _ _ source,
    fun closings => ofTokens_surrounded 0 closings source, ofTokens_surrounded 1 1 source⟩

/-- The tokens of a value put it on top of the others. -/
theorem foldlM_step_of_value {context : Context Id} {tokens : List Token} {value : Float}
    (valued : (evaluate context tokens).run = .ok value) (values : List Float) :
    tokens.foldlM (step context) values = pure (value :: values) := by
  obtain ⟨expression, rfl⟩ := exists_reversePolish_of_ends context valued
  have alone : evaluate context expression.reversePolish = pure value := ExceptT.ext valued
  rw [foldlM_step_reversePolish, ← evaluate_eq_value, alone]
  rfl

/-- Of the tokens of a value only the value counts for what follows. -/
theorem evaluate_eq_of_value {context : Context Id} {tokens others : List Token} {value : Float}
    (valued : (evaluate context tokens).run = .ok value)
    (otherValued : (evaluate context others).run = .ok value) (before after : List Token) :
    evaluate context (before ++ tokens ++ after) =
      evaluate context (before ++ others ++ after) := by
  simp only [evaluate, List.foldlM_append, foldlM_step_of_value valued,
    foldlM_step_of_value otherValued]

/-- A group comes out as it does on its own, in a place that depends only on what stands around it.
It may give way to any group of the same value. -/
theorem ofTokens_group (before after : List Token) :
    (∃ first last : List Token, ∀ group, Balanced group →
      ofTokens (before ++ [.leftParenthesis] ++ group ++ [.rightParenthesis] ++ after) =
        first ++ ofTokens group ++ last) ∧
    ∀ (context : Context Id) (group other : List Token) (value : Float),
      Balanced group → Balanced other →
      (evaluate context (ofTokens group)).run = .ok value →
      (evaluate context (ofTokens other)).run = .ok value →
      evaluate context
          (ofTokens (before ++ [.leftParenthesis] ++ group ++ [.rightParenthesis] ++ after)) =
        evaluate context
          (ofTokens (before ++ [.leftParenthesis] ++ other ++ [.rightParenthesis] ++ after)) := by
  have isolated : ∃ first last : List Token, ∀ group, Balanced group →
      ofTokens (before ++ [.leftParenthesis] ++ group ++ [.rightParenthesis] ++ after) =
        first ++ ofTokens group ++ last := by
    let opened := feed [] before
    let closed := closeGroup (.parenthesis :: opened.2)
    let rest := feed closed.2 after
    refine ⟨opened.1, closed.1 ++ rest.1 ++ Pending.tokens rest.2, fun group balanced => ?_⟩
    have run := feed_append (feed_append (Prod.eta opened).symm (feed_group opened.2 balanced))
      (Prod.eta rest).symm
    simp only [List.append_assoc] at run ⊢
    rw [ofTokens_def, run]
    simp only [List.append_assoc, closed]
  refine ⟨isolated, ?_⟩
  intro context group other value balanced otherBalanced valued otherValued
  obtain ⟨first, last, whole⟩ := isolated
  rw [whole group balanced, whole other otherBalanced]
  exact evaluate_eq_of_value valued otherValued first last

theorem ofTokens_group_under_root :
    Balanced [.number "4", .operator .plus, .number "5"] ∧ Balanced [.number "9"] ∧
      (evaluate (m := Id) (builtins .degrees)
        (ofTokens [.number "4", .operator .plus, .number "5"])).run = .ok 9 ∧
      (evaluate (m := Id) (builtins .degrees) (ofTokens [.number "9"])).run = .ok 9 ∧
      (∃ first last,
        ofTokens [.rightParenthesis, .number "2", .operator .times, .call .squareRoot,
            .leftParenthesis, .number "4", .operator .plus, .number "5", .rightParenthesis,
            .operator .minus, .leftParenthesis] =
          first ++ ofTokens [.number "4", .operator .plus, .number "5"] ++ last) ∧
      evaluate (m := Id) (builtins .degrees)
          (ofTokens [.rightParenthesis, .number "2", .operator .times, .call .squareRoot,
            .leftParenthesis, .number "4", .operator .plus, .number "5", .rightParenthesis,
            .operator .minus, .leftParenthesis]) =
        evaluate (m := Id) (builtins .degrees)
          (ofTokens [.rightParenthesis, .number "2", .operator .times, .call .squareRoot,
            .leftParenthesis, .number "9", .rightParenthesis, .operator .minus,
            .leftParenthesis]) := by
  have sum : Balanced [.number "4", .operator .plus, .number "5"] := rfl
  have single : Balanced [.number "9"] := rfl
  have sumValue : (evaluate (m := Id) (builtins .degrees)
      (ofTokens [.number "4", .operator .plus, .number "5"])).run = .ok 9 := by
    have nine : (4 + 5 : Float) = 9 := by decide +kernel
    have added : (evaluate (m := Id) (builtins .degrees)
        (ofTokens [.number "4", .operator .plus, .number "5"])).run = .ok (4 + 5) := by rfl
    exact added.trans (congrArg Except.ok nine)
  have singleValue : (evaluate (m := Id) (builtins .degrees)
      (ofTokens [.number "9"])).run = .ok 9 := by rfl
  obtain ⟨⟨first, last, whole⟩, replaced⟩ := ofTokens_group
    [.rightParenthesis, .number "2", .operator .times, .call .squareRoot]
    [.operator .minus, .leftParenthesis]
  have isolated := whole _ sum
  have same := replaced (builtins .degrees) _ _ 9 sum single sumValue singleValue
  exact ⟨sum, single, sumValue, singleValue, ⟨first, last, isolated⟩, same⟩

end ReversePolish

end Reckoner
