/-
This file shows that the tokens of any text are well-formed, and that well-formed tokens are read
back from their texts with a space between neighbours.
-/

import Mathlib.Data.List.TakeWhile
import Mathlib.Data.Set.Operations
import Reckoner.Proofs.Spelling

namespace Reckoner

/-- Digits with digits before and behind their point are a literal, unless there are none. -/
theorem Digits.isLiteral_text {digits : Digits}
    (whole : ∀ character ∈ digits.whole, character.isDigit)
    (fraction : ∀ character ∈ digits.fraction, character.isDigit) (some : digits.text ≠ []) :
    IsLiteral digits.text := by
  have pointless {part : List Char} (inside : ∀ character ∈ part, character.isDigit) :
      part.count '.' = 0 := by
    rw [List.count_eq_zero]
    intro member
    exact absurd (inside '.' member) (by decide)
  refine ⟨some, ?_, ?_⟩
  · intro character member
    unfold text at member
    split at member
    · exact .inl (whole character member)
    · next part pointed =>
        rw [Digits.fraction, pointed, Option.getD_some] at fraction
        rcases List.mem_append.mp member with before | behind
        · exact .inl (whole character before)
        · exact (List.mem_cons.mp behind).symm.imp_left (fraction character)
  · unfold text
    split
    · simp [pointless whole]
    · next part pointed =>
        rw [Digits.fraction, pointed, Option.getD_some] at fraction
        simp [pointless whole, pointless fraction]

/-- The text of a number is a literal. -/
theorem Digits.isLiteral_span {first : Char} (rest : List Char)
    (starts : (first.isDigit || first == '.') = true) :
    IsLiteral (span (first :: rest)).1.text := by
  apply isLiteral_text _ _ (text_span_ne_nil rest starts)
  · intro character member
    unfold span at member
    split at member <;> exact List.mem_takeWhile_imp member
  · intro character member
    unfold span at member
    split at member
    · exact List.mem_takeWhile_imp member
    · contradiction

namespace Token

/-- A character that is part of no number and no name is a well-formed token. -/
theorem wellFormed_ofCharacter {character : Char} (visible : ¬isWhiteSpace character)
    (noNumber : ¬(character.isDigit || character == '.')) (noLetter : ¬character.isAlpha) :
    (ofCharacter character).WellFormed := by
  unfold ofCharacter
  split
  · trivial
  · trivial
  · next noLeft noRight =>
      split
      · trivial
      · next noSign =>
          simp only [Bool.or_eq_true, beq_iff_eq, not_or] at noNumber
          exact ⟨visible, noNumber.1, noLetter, by simp_all, noSign⟩

/-- A token that is read is well-formed. -/
theorem wellFormed_of_next {text remaining : List Char} {token : Token}
    (read : next? text = some (token, remaining)) : token.WellFormed := by
  unfold next? at read
  split at read
  · contradiction
  · next first rest start =>
      have visible : ¬isWhiteSpace first := by
        have stops := List.head?_dropWhile_not isWhiteSpace text
        simpa [start] using stops
      split at read
      · next starts =>
          obtain ⟨rfl, -⟩ : _ ∧ _ := by simpa using read
          simpa [WellFormed] using Digits.isLiteral_span rest starts
      · next noNumber =>
          split at read <;> obtain ⟨rfl, -⟩ : _ ∧ _ := by simpa using read
          · next letter =>
              have letters : ∀ character ∈ rest.takeWhile Char.isAlpha, character.isAlpha :=
                fun character member => List.mem_takeWhile_imp member
              simpa [WellFormed, IsWord, letter] using letters
          · next noLetter => exact wellFormed_ofCharacter visible noNumber noLetter

/-- Each token of a text is well-formed. -/
theorem wellFormed_of_mem_scan (text : List Char) : ∀ token ∈ scan text, token.WellFormed := by
  fun_induction scan text with
  | case1 => simp
  | case2 text token remaining read _ ih =>
      exact List.forall_mem_cons.mpr ⟨wellFormed_of_next read, ih⟩

/-- White space before a text is passed over. -/
theorem scan_append_blank {blank : List Char} (blanks : ∀ character ∈ blank, isWhiteSpace character)
    (text : List Char) : scan (blank ++ text) = scan text := by
  have same := next_blank blanks text
  cases read : next? text with
  | none => rw [scan_of_next_none read, scan_of_next_none (same.trans read)]
  | some result => rw [scan_of_next read, scan_of_next (same.trans read)]

theorem joined_cons_cons (first second : Token) (rest : List Token) :
    (joined (first :: second :: rest)).toList =
      first.text.toList ++ ([' '] ++ (joined (second :: rest)).toList) := by
  simp [joined, String.intercalate_cons_cons]

/-- A space keeps each token apart from the next. -/
theorem scan_joined {tokens : List Token} (wellFormed : ∀ token ∈ tokens, token.WellFormed) :
    scan (joined tokens).toList = tokens := by
  have blanks : ∀ character ∈ [' '], isWhiteSpace character :=
    List.forall_mem_singleton.mpr (by decide)
  induction tokens with
  | nil => exact scan_blank (by simp [joined])
  | cons first rest ih =>
      obtain ⟨here, others⟩ := List.forall_mem_cons.mp wellFormed
      cases rest with
      | nil =>
          have alone : ¬first.RunsInto [] := not_runsInto_blank first (by simp)
          have read := here.next alone
          have last : (joined [first]).toList = first.text.toList ++ [] := by simp [joined]
          rw [last, scan_of_next read, scan_blank (by simp)]
      | cons second rest =>
          have apart : ¬first.RunsInto ([' '] ++ (joined (second :: rest)).toList) := by
            rw [runsInto_append _ (by simp)]
            exact not_runsInto_blank first blanks
          rw [joined_cons_cons, scan_of_next (here.next apart), scan_append_blank blanks, ih others]

end Token

/-- Exactly the well-formed tokens are read from a text, and each list of them from the text that
joins theirs. -/
theorem tokenize_inverts_joined :
    (∀ tokens : List Token, (∀ token ∈ tokens, token.WellFormed) →
      tokenize (Token.joined tokens) = tokens) ∧
    (∀ source, ∀ token ∈ tokenize source, token.WellFormed) ∧
    Set.range tokenize = {tokens | ∀ token ∈ tokens, token.WellFormed} ∧
    ∀ source, tokenize (Token.joined (tokenize source)) = tokenize source := by
  have printed (tokens : List Token) (wellFormed : ∀ token ∈ tokens, token.WellFormed) :
      tokenize (Token.joined tokens) = tokens := Token.scan_joined wellFormed
  have read (source : String) : ∀ token ∈ tokenize source, token.WellFormed :=
    Token.wellFormed_of_mem_scan source.toList
  refine ⟨printed, read, ?_, fun source => printed _ (read source)⟩
  ext tokens
  constructor
  · rintro ⟨source, rfl⟩
    exact read source
  · intro wellFormed
    exact ⟨Token.joined tokens, printed tokens wellFormed⟩

theorem tokenize_inverts_joined_numbers :
    (∀ token ∈ [Token.number "1.5", .number ".", .identifier "Sin", .identifier "x", .unknown 'π',
      .operator .minus, .leftParenthesis], token.WellFormed) ∧
    tokenize (Token.joined [.number "1.5", .number ".", .identifier "Sin", .identifier "x",
        .unknown 'π', .operator .minus, .leftParenthesis]) =
      [.number "1.5", .number ".", .identifier "Sin", .identifier "x", .unknown 'π',
        .operator .minus, .leftParenthesis] := by
  have wellFormed : ∀ token ∈ [Token.number "1.5", .number ".", .identifier "Sin",
      .identifier "x", .unknown 'π', .operator .minus, .leftParenthesis], token.WellFormed := by
    simp [Token.WellFormed, IsLiteral, IsWord, IsStranger]
    decide
  exact ⟨wellFormed, tokenize_inverts_joined.1 _ wellFormed⟩

end Reckoner
