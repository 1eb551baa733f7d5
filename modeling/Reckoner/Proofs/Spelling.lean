/-
This file shows that the tokens of a text are those it spells, where none runs into the next.
-/

import Mathlib.Data.List.Chain
import Reckoner.Expression.Rendering
import Reckoner.Token.Scan
import Reckoner.Token.WellFormed

namespace Reckoner

theorem digit_range {character : Char} (digit : character.isDigit) :
    48 ≤ character.toNat ∧ character.toNat ≤ 57 :=
  Char.isDigit_iff_toNat.mp digit

theorem letter_range {character : Char} (letter : character.isAlpha) :
    65 ≤ character.toNat ∧ character.toNat ≤ 122 := by
  change (decide ('A'.val ≤ character.val ∧ character.val ≤ 'Z'.val) ||
    decide ('a'.val ≤ character.val) && decide (character.val ≤ 'z'.val)) = true at letter
  simp only [Bool.or_eq_true, decide_eq_true_eq, Bool.and_eq_true,
    UInt32.le_iff_toNat_le] at letter
  change 65 ≤ character.toNat ∧ character.toNat ≤ 90 ∨
    97 ≤ character.toNat ∧ character.toNat ≤ 122 at letter
  omega

/-- No letter is part of a number. -/
theorem not_digit_or_point_of_letter {character : Char} (letter : character.isAlpha) :
    ¬(character.isDigit ∨ character = '.') := by
  have range := letter_range letter
  rintro (digit | rfl)
  · have limits := digit_range digit
    omega
  · simp at range

/-- No visible character of the lowest page is white space. -/
theorem whiteSpace_range {character : Char} (blank : isWhiteSpace character) :
    character.toNat ≤ 32 ∨ 133 ≤ character.toNat := by
  simp only [isWhiteSpace, whiteSpaceRanges, List.any_cons, List.any_nil, Bool.or_false,
    Bool.or_eq_true, Bool.and_eq_true, decide_eq_true_eq] at blank
  omega

/-- A run ends where its kind of character does. -/
theorem takeWhile_run {kind : Char → Bool} {run rest : List Char}
    (inside : ∀ character ∈ run, kind character)
    (outside : ∀ character ∈ rest.head?, ¬kind character) :
    (run ++ rest).takeWhile kind = run ∧ (run ++ rest).dropWhile kind = rest := by
  rw [List.takeWhile_append_of_pos inside, List.dropWhile_append_of_pos inside]
  cases rest with
  | nil => simp
  | cons first others =>
      have stops := outside first rfl
      simp [List.takeWhile_cons_of_neg stops, List.dropWhile_cons_of_neg stops]

/-- A part of a literal has only digits where it does not hold the point. -/
theorem IsLiteral.digits_of_not_mem {text part : List Char} (literal : IsLiteral text)
    (inside : ∀ character ∈ part, character ∈ text) (pointless : '.' ∉ part) :
    ∀ character ∈ part, character.isDigit := by
  intro character member
  apply (literal.2.1 character (inside character member)).resolve_right
  intro point
  exact pointless (point ▸ member)

/-- A literal has only digits, or one point among them. -/
theorem IsLiteral.digits_or_point {text : List Char} (literal : IsLiteral text) :
    (∀ character ∈ text, character.isDigit) ∨
      ∃ whole fraction, text = whole ++ '.' :: fraction ∧
        (∀ character ∈ whole, character.isDigit) ∧ ∀ character ∈ fraction, character.isDigit := by
  by_cases pointed : '.' ∈ text
  · obtain ⟨whole, fraction, rfl⟩ := List.append_of_mem pointed
    have single := literal.2.2
    simp only [List.count_append, List.count_cons_self] at single
    have wholePointless : '.' ∉ whole := List.count_eq_zero.mp (by omega)
    have fractionPointless : '.' ∉ fraction := List.count_eq_zero.mp (by omega)
    refine .inr ⟨whole, fraction, rfl, ?_, ?_⟩
    · apply literal.digits_of_not_mem _ wholePointless
      intro character member
      exact List.mem_append_left _ member
    · apply literal.digits_of_not_mem _ fractionPointless
      intro character member
      exact List.mem_append_right _ (List.mem_cons_of_mem _ member)
  · exact .inl (literal.digits_of_not_mem (fun _ => id) pointed)

namespace Token

/-- The token would take in the first character of the text if it stood right before it. -/
def RunsInto : Token → List Char → Prop
  | .number literal, first :: _ => first.isDigit ∨ first = '.' ∧ '.' ∉ literal.toList
  | .identifier _, first :: _ => first.isAlpha
  | _, _ => False

end Token

/-- A literal is read as a whole where it does not run into what follows it. -/
theorem Digits.span_literal {literal : String} {rest : List Char}
    (isLiteral : IsLiteral literal.toList) (apart : ¬(Token.number literal).RunsInto rest) :
    (span (literal.toList ++ rest)).1.text = literal.toList ∧
      (span (literal.toList ++ rest)).2 = rest := by
  have noDigit : ∀ character ∈ rest.head?, ¬character.isDigit := by
    cases rest with
    | nil => simp
    | cons first others => simp_all [Token.RunsInto]
  rcases isLiteral.digits_or_point with
    digits | ⟨whole, fraction, same, wholeDigits, fractionDigits⟩
  · obtain ⟨taken, dropped⟩ := takeWhile_run digits noDigit
    have noPoint : '.' ∉ literal.toList := by
      intro member
      exact absurd (digits '.' member) (by decide)
    unfold span
    rw [taken, dropped]
    split
    · simp [Token.RunsInto, noPoint] at apart
    · exact ⟨rfl, rfl⟩
  · have point : ∀ character ∈ ('.' :: (fraction ++ rest)).head?, ¬character.isDigit := by simp
    obtain ⟨wholeTaken, wholeDropped⟩ := takeWhile_run wholeDigits point
    obtain ⟨taken, dropped⟩ := takeWhile_run fractionDigits noDigit
    rw [same, List.append_assoc, List.cons_append]
    unfold span
    rw [wholeTaken, wholeDropped]
    simp only [text, taken, dropped, and_self]

namespace Token

/-- A well-formed token has a text. -/
theorem WellFormed.text_ne_nil {token : Token} (wellFormed : token.WellFormed) :
    token.text.toList ≠ [] := by
  cases token with
  | number literal => exact wellFormed.1
  | identifier name => exact wellFormed.1
  | operator sign => simp [text, Operator.text]
  | leftParenthesis | rightParenthesis | unknown _ => simp [text]

/-- No white space is part of a well-formed token. -/
theorem WellFormed.not_isWhiteSpace {token : Token} (wellFormed : token.WellFormed) :
    ∀ character ∈ token.text.toList, ¬isWhiteSpace character := by
  intro character member blank
  have limits := whiteSpace_range blank
  cases token with
  | number literal =>
      rcases wellFormed.2.1 character member with digit | rfl
      · have range := digit_range digit
        omega
      · simp at limits
  | identifier name =>
      have range := letter_range (wellFormed.2 character member)
      omega
  | operator sign =>
      obtain rfl : character = sign.symbol := by simpa [text, Operator.text] using member
      cases sign <;> simp [Operator.symbol] at limits
  | leftParenthesis | rightParenthesis =>
      obtain rfl := by simpa [text] using member
      simp at limits
  | unknown own =>
      obtain rfl : character = own := by simpa [text] using member
      exact wellFormed.1 blank

/-- The token starts with a character that no white space hides. -/
theorem WellFormed.visible {token : Token} (wellFormed : token.WellFormed) :
    ∃ first others, token.text.toList = first :: others ∧ ¬isWhiteSpace first := by
  obtain ⟨first, others, same⟩ := List.exists_cons_of_ne_nil wellFormed.text_ne_nil
  exact ⟨first, others, same, wellFormed.not_isWhiteSpace first (by simp [same])⟩

/-- A digit or a point starts a number. -/
theorem next_number {first : Char} (others : List Char) (visible : ¬isWhiteSpace first)
    (starts : first.isDigit ∨ first = '.') :
    next? (first :: others) =
      some (.number (String.ofList (Digits.span (first :: others)).1.text),
        (Digits.span (first :: others)).2) := by
  simp [next?, List.dropWhile_cons_of_neg visible, starts]

/-- A letter starts a name. -/
theorem next_identifier {first : Char} (others : List Char) (visible : ¬isWhiteSpace first)
    (letter : first.isAlpha) :
    next? (first :: others) =
      some (.identifier (String.ofList (first :: others.takeWhile Char.isAlpha)),
        others.dropWhile Char.isAlpha) := by
  have noNumber := not_digit_or_point_of_letter letter
  simp [next?, List.dropWhile_cons_of_neg visible, noNumber, letter]

/-- A character that starts no number and no name is the text of its token. -/
theorem next_ofCharacter {character : Char} (rest : List Char) (visible : ¬isWhiteSpace character)
    (noNumber : ¬(character.isDigit ∨ character = '.')) (noLetter : ¬character.isAlpha) :
    next? (character :: rest) = some (ofCharacter character, rest) := by
  simp [next?, List.dropWhile_cons_of_neg visible, noNumber, noLetter]

/-- White space before a token is passed over. -/
theorem next_blank {blank : List Char} (blanks : ∀ character ∈ blank, isWhiteSpace character)
    (text : List Char) : next? (blank ++ text) = next? text := by
  unfold next?
  rw [List.dropWhile_append_of_pos blanks]

/-- A well-formed token is read from its text where it does not run into what follows. -/
theorem WellFormed.next {token : Token} {rest : List Char} (wellFormed : token.WellFormed)
    (apart : ¬token.RunsInto rest) : next? (token.text.toList ++ rest) = some (token, rest) := by
  cases token with
  | number literal =>
      obtain ⟨first, others, same, visible⟩ := wellFormed.visible
      obtain ⟨read, remaining⟩ := Digits.span_literal wellFormed apart
      rw [text] at same ⊢
      have starts := wellFormed.2.1 first (by simp [same])
      rw [same, List.cons_append] at read remaining ⊢
      rw [next_number _ visible starts, read, remaining, ← same, String.ofList_toList]
  | identifier name =>
      obtain ⟨first, others, same, visible⟩ := wellFormed.visible
      rw [text] at same ⊢
      have letters := same ▸ wellFormed.2
      have stops : ∀ character ∈ rest.head?, ¬character.isAlpha := by
        cases rest with
        | nil => simp
        | cons following _ => simpa [RunsInto] using apart
      obtain ⟨taken, dropped⟩ :=
        takeWhile_run (fun character member => letters character (List.mem_cons_of_mem _ member))
          stops
      rw [same, List.cons_append, next_identifier _ visible (letters first List.mem_cons_self),
        taken, dropped, ← same, String.ofList_toList]
  | operator sign =>
      cases sign <;> exact next_ofCharacter rest (by decide) (by decide) (by decide)
  | leftParenthesis => exact next_ofCharacter rest (by decide) (by decide) (by decide)
  | rightParenthesis => exact next_ofCharacter rest (by decide) (by decide) (by decide)
  | unknown character =>
      obtain ⟨visible, noDigit, noLetter, plain, noSign⟩ := wellFormed
      simp only [List.mem_cons, List.not_mem_nil, or_false, not_or] at plain
      obtain ⟨noPoint, noLeft, noRight⟩ := plain
      have single : (unknown character).text.toList = [character] := by simp [text]
      rw [single, List.singleton_append,
        next_ofCharacter rest visible (not_or.mpr ⟨noDigit, noPoint⟩) noLetter]
      simp [ofCharacter, noSign]

/-- A token that is read is the first one, and the others are read from what remains. -/
theorem scan_of_next {text remaining : List Char} {token : Token}
    (read : next? text = some (token, remaining)) : scan text = token :: scan remaining := by
  rw [scan]
  split
  · next none => simp [none] at read
  · next other others found =>
      obtain ⟨rfl, rfl⟩ : other = token ∧ others = remaining := by simpa [read, eq_comm] using found
      rfl

/-- Where no token is read, none remains. -/
theorem scan_of_next_none {text : List Char} (nothing : next? text = none) : scan text = [] := by
  rw [scan]
  split
  · rfl
  · next token remaining found => simp [nothing] at found

/-- White space holds no token. -/
theorem scan_blank {blank : List Char} (blanks : ∀ character ∈ blank, isWhiteSpace character) :
    scan blank = [] := by
  apply scan_of_next_none
  rw [← List.append_nil blank, next_blank blanks]
  rfl

/-- The next token's text does not continue the token. -/
def Separate (left right : Token) : Prop := ¬left.RunsInto right.text.toList

/-- A token runs into a text as it runs into its beginning. -/
theorem runsInto_append {token : Token} {start : List Char} (rest : List Char)
    (started : start ≠ []) : token.RunsInto (start ++ rest) ↔ token.RunsInto start := by
  obtain ⟨first, others, rfl⟩ := List.exists_cons_of_ne_nil started
  cases token <;> rfl

/-- Nothing runs into white space. -/
theorem not_runsInto_blank (token : Token) {blank : List Char}
    (blanks : ∀ character ∈ blank, isWhiteSpace character) : ¬token.RunsInto blank := by
  cases blank with
  | nil => cases token <;> exact id
  | cons first others =>
      have limits := whiteSpace_range (blanks first List.mem_cons_self)
      intro runs
      cases token with
      | number literal =>
          rcases runs with digit | ⟨rfl, _⟩
          · have range := digit_range digit
            omega
          · simp at limits
      | identifier name =>
          have range := letter_range runs
          omega
      | operator _ | leftParenthesis | rightParenthesis | unknown _ => exact runs

/-- A token does not run into a text whose first token is separate from it. -/
theorem Spells.not_runsInto {token : Token} {tokens : List Token} {text : List Char}
    (spells : Spells tokens text) (wellFormed : ∀ other ∈ tokens, other.WellFormed)
    (separate : ∀ next ∈ tokens.head?, Separate token next) : ¬token.RunsInto text := by
  cases spells with
  | nil blanks => exact not_runsInto_blank token blanks
  | @cons blank rest next others blanks _ =>
      rw [List.append_assoc]
      by_cases gap : blank = []
      · subst gap
        obtain ⟨first, more, same, _⟩ := (wellFormed next List.mem_cons_self).visible
        rw [List.nil_append, runsInto_append rest (by simp [same])]
        exact separate next rfl
      · rw [runsInto_append _ gap]
        exact not_runsInto_blank token blanks

/-- The tokens that a text spells are read from it, where none runs into the next. -/
theorem Spells.scan {tokens : List Token} {text : List Char} (spells : Spells tokens text)
    (wellFormed : ∀ token ∈ tokens, token.WellFormed) (separate : tokens.IsChain Separate) :
    scan text = tokens := by
  induction spells with
  | nil blanks => exact scan_blank blanks
  | @cons blank text token tokens blanks spells ih =>
      have others : ∀ other ∈ tokens, other.WellFormed :=
        fun other member => wellFormed other (List.mem_cons_of_mem _ member)
      obtain ⟨following, rest⟩ := List.isChain_cons.mp separate
      have apart := spells.not_runsInto others following
      have read := (wellFormed token List.mem_cons_self).next apart
      rw [← next_blank blanks, ← List.append_assoc] at read
      rw [scan_of_next read, ih others rest]

/-- Operators and parentheses run into nothing. -/
def IsDelimiter : Token → Prop
  | .operator _ | .leftParenthesis | .rightParenthesis => True
  | _ => False

theorem IsDelimiter.separate_left {left : Token} (delimits : left.IsDelimiter) (right : Token) :
    Separate left right := by
  intro runs
  cases left <;> simp_all [IsDelimiter, RunsInto]

theorem IsDelimiter.separate_right {right : Token} (delimits : right.IsDelimiter) (left : Token) :
    Separate left right := by
  intro runs
  cases right with
  | operator sign =>
      cases sign <;> cases left <;>
        simp_all [RunsInto, text, Operator.text, Operator.symbol]
  | leftParenthesis => cases left <;> simp_all [RunsInto, text]
  | rightParenthesis => cases left <;> simp_all [RunsInto, text]
  | number _ | identifier _ | unknown _ => exact delimits

/-- A delimiter keeps the tokens on its sides separate. -/
theorem isChain_delimiter {left right : List Token} {delimiter : Token}
    (delimits : delimiter.IsDelimiter) (leftChain : left.IsChain Separate)
    (rightChain : right.IsChain Separate) :
    (left ++ [delimiter] ++ right).IsChain Separate := by
  rw [List.append_assoc]
  refine leftChain.append ((List.IsChain.singleton delimiter).append rightChain ?_) ?_
  · intro last same next _
    obtain rfl := Option.mem_some.mp same
    exact delimits.separate_left next
  · intro last _ next same
    obtain rfl := Option.mem_some.mp same
    exact delimits.separate_right last

end Token

end Reckoner
