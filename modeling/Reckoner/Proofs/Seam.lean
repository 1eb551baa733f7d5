/-
This file says where a text may be cut: the tokens of the two parts are those of the whole unless
the last token of the first part runs into the second one.
-/

import Reckoner.Proofs.Lexemes

namespace Reckoner

/-- A run of characters of a kind goes on as far as they do. -/
theorem not_of_mem_head_dropWhile {kind : Char → Bool} {text : List Char} :
    ∀ character ∈ (text.dropWhile kind).head?, ¬kind character := by
  intro character first
  have stops := List.head?_dropWhile_not kind text
  simp_all

/-- What follows a number starts with no digit, and with no point where the number has one. -/
theorem Digits.not_runsInto_span (text : List Char) :
    ¬(Token.number (String.ofList (span text).1.text)).RunsInto (span text).2 := by
  unfold span
  split
  · next rest _ =>
      have stops : ∀ character ∈ (rest.dropWhile Char.isDigit).head?, ¬character.isDigit :=
        not_of_mem_head_dropWhile
      cases remains : rest.dropWhile Char.isDigit with
      | nil => exact id
      | cons first others => simp_all [Token.RunsInto, Digits.text]
  · next noPoint =>
      have stops : ∀ character ∈ (text.dropWhile Char.isDigit).head?, ¬character.isDigit :=
        not_of_mem_head_dropWhile
      cases remains : text.dropWhile Char.isDigit with
      | nil => exact id
      | cons first others =>
          have other : first ≠ '.' := by
            rintro rfl
            exact noPoint others remains
          simp_all [Token.RunsInto]

namespace Token

/-- A token goes on as far as the text allows. -/
theorem not_runsInto_of_next {text remaining : List Char} {token : Token}
    (read : next? text = some (token, remaining)) : ¬token.RunsInto remaining := by
  unfold next? at read
  split at read
  · contradiction
  · next first rest start =>
      split at read
      · simp only [Option.some.injEq, Prod.mk.injEq] at read
        obtain ⟨rfl, rfl⟩ := read
        exact Digits.not_runsInto_span (first :: rest)
      · split at read <;> simp only [Option.some.injEq, Prod.mk.injEq] at read <;>
          obtain ⟨rfl, rfl⟩ := read
        · have stops : ∀ character ∈ (rest.dropWhile Char.isAlpha).head?, ¬character.isAlpha :=
            not_of_mem_head_dropWhile
          cases remains : rest.dropWhile Char.isAlpha with
          | nil => exact id
          | cons following others => simpa [RunsInto, remains] using stops
        · unfold ofCharacter
          split
          · exact id
          · exact id
          · split <;> exact id

/-- What remains behind a token is what stood there. -/
theorem WellFormed.remaining_eq {token : Token} {rest remaining : List Char}
    (wellFormed : token.WellFormed)
    (read : next? (token.text.toList ++ rest) = some (token, remaining)) : remaining = rest := by
  obtain ⟨blank, blanks, same⟩ := exists_blank_of_next read
  obtain ⟨first, others, text, visible⟩ := wellFormed.visible
  cases blank with
  | nil => simpa using same.symm
  | cons character more =>
      rw [text] at same
      obtain rfl : first = character := (List.cons.inj same).1
      exact absurd (blanks first List.mem_cons_self) visible

/-- A token is the next one before any rest that it does not run into, and before no other. -/
theorem WellFormed.next_iff {token : Token} {rest : List Char} (wellFormed : token.WellFormed) :
    (∃ remaining, next? (token.text.toList ++ rest) = some (token, remaining)) ↔
      ¬token.RunsInto rest := by
  constructor
  · rintro ⟨remaining, read⟩
    have apart := not_runsInto_of_next read
    rwa [wellFormed.remaining_eq read] at apart
  · intro apart
    exact ⟨rest, wellFormed.next apart⟩

/-- The token that the text ends with, where it does not end with white space. -/
def final? (text : List Char) : Option Token :=
  if text.getLast?.all isWhiteSpace then none else (scan text).getLast?

theorem all_getLast {blank : List Char} (blanks : ∀ character ∈ blank, isWhiteSpace character) :
    blank.getLast?.all isWhiteSpace := by
  rw [Option.all_eq_true]
  exact fun character last => blanks character (List.mem_of_getLast? last)

theorem final_blank {blank : List Char} (blanks : ∀ character ∈ blank, isWhiteSpace character) :
    final? blank = none :=
  if_pos (all_getLast blanks)

/-- The only token of a text that does not end with white space is its final one. -/
theorem final_of_next_nil {text : List Char} {token : Token}
    (read : next? text = some (token, [])) : final? text = some token := by
  obtain ⟨blank, _, same⟩ := exists_blank_of_next read
  have wellFormed := wellFormed_of_next read
  have visible : ¬text.getLast?.all isWhiteSpace := by
    intro hidden
    have some := wellFormed.text_ne_nil
    have last := (Option.all_eq_true _ _).mp hidden (token.text.toList.getLast some)
      (by simp [same, List.getLast?_append, List.getLast?_eq_some_getLast some])
    exact wellFormed.not_isWhiteSpace _ (List.getLast_mem some) last
  rw [final?, if_neg visible, scan_of_next read, scan_blank (List.forall_mem_nil _)]
  rfl

/-- What stands before a token does not change which token is the final one. -/
theorem final_of_next_cons {text others : List Char} {token : Token} {first : Char}
    (read : next? text = some (token, first :: others)) :
    final? text = final? (first :: others) := by
  obtain ⟨blank, _, same⟩ := exists_blank_of_next read
  have last : text.getLast? = (first :: others).getLast? := by
    rw [same, List.getLast?_append, List.getLast?_eq_some_getLast (List.cons_ne_nil first others)]
    rfl
  unfold final?
  rw [last, scan_of_next read]
  split
  · rfl
  · next visible =>
      cases scanned : scan (first :: others) with
      | nil =>
          exact absurd (all_getLast (isWhiteSpace_of_scan_nil scanned)) visible
      | cons next more => rfl

/-- The tokens of two texts are those of the whole exactly if none runs across the seam. -/
theorem scan_append_iff (text rest : List Char) :
    scan (text ++ rest) = scan text ++ scan rest ↔
      ∀ token ∈ final? text, ¬token.RunsInto rest := by
  fun_induction scan text with
  | case1 text nothing =>
      have blanks := isWhiteSpace_of_next_none nothing
      simp [scan_append_blank blanks, final_blank blanks]
  | case2 text token remaining read _ ih =>
      obtain ⟨blank, blanks, same⟩ := exists_blank_of_next read
      have wellFormed := wellFormed_of_next read
      have reread : next? (text ++ rest) = next? (token.text.toList ++ (remaining ++ rest)) := by
        rw [same, List.append_assoc, List.append_assoc, next_blank blanks]
      cases remaining with
      | nil =>
          -- The token stands at the seam, and is read again exactly if it stops there.
          rw [List.nil_append] at reread
          simp only [final_of_next_nil read, Option.mem_some_iff, forall_eq',
            scan_blank (List.forall_mem_nil _), List.singleton_append]
          rw [← wellFormed.next_iff, ← reread]
          constructor
          · intro whole
            cases found : next? (text ++ rest) with
            | none => simp [scan_of_next_none found] at whole
            | some result =>
                rw [scan_of_next found] at whole
                obtain ⟨rfl, _⟩ := List.cons.inj whole
                exact ⟨result.2, rfl⟩
          · rintro ⟨remaining, found⟩
            rw [scan_of_next found, wellFormed.remaining_eq (reread.symm.trans found)]
      | cons first others =>
          have apart : ¬token.RunsInto (first :: others ++ rest) := by
            rw [runsInto_append _ (List.cons_ne_nil first others)]
            exact not_runsInto_of_next read
          rw [final_of_next_cons read, ← ih, scan_of_next (reread.trans (wellFormed.next apart))]
          exact List.cons_inj_right token

/-- A text ends with the text of its final token. -/
theorem exists_append_of_final {text : List Char} {token : Token}
    (final : final? text = some token) :
    token.WellFormed ∧ ∃ before, text = before ++ token.text.toList := by
  fun_induction scan text with
  | case1 text nothing => simp [final_blank (isWhiteSpace_of_next_none nothing)] at final
  | case2 text other remaining read _ ih =>
      obtain ⟨blank, _, same⟩ := exists_blank_of_next read
      cases remaining with
      | nil =>
          obtain rfl : other = token := by simpa [final_of_next_nil read] using final
          exact ⟨wellFormed_of_next read, blank, by simpa using same⟩
      | cons first others =>
          rw [final_of_next_cons read] at final
          obtain ⟨wellFormed, before, rest⟩ := ih final
          exact ⟨wellFormed, blank ++ other.text.toList ++ before, by
            rw [same, rest, List.append_assoc _ before]⟩

/-- The final token is the last one. -/
theorem getLast_scan_of_final {text : List Char} {token : Token}
    (final : final? text = some token) : (scan text).getLast? = some token := by
  unfold final? at final
  split at final
  · contradiction
  · exact final

/-- White space stands at the end of a text that is not empty and has no final token. -/
theorem isWhiteSpace_of_final_none {text : List Char} (none : final? text = none) :
    ∀ character ∈ text.getLast?, isWhiteSpace character := by
  unfold final? at none
  split at none
  · next hidden => exact (Option.all_eq_true _ _).mp hidden
  · have blanks := isWhiteSpace_of_scan_nil (List.getLast?_eq_none_iff.mp none)
    exact fun character last => blanks character (List.mem_of_getLast? last)

/-- Whether a token runs into a text shows in the two characters at the seam. -/
theorem WellFormed.runsInto_iff {token : Token} (wellFormed : token.WellFormed) {last next : Char}
    (ends : token.text.toList.getLast? = some last) (rest : List Char) :
    token.RunsInto (next :: rest) ↔
      last.isAlpha ∧ next.isAlpha ∨
      (last.isDigit ∨ last = '.') ∧ next.isDigit ∨
      last.isDigit ∧ next = '.' ∧ '.' ∉ token.text.toList := by
  have member := List.mem_of_getLast? ends
  cases token with
  | number literal =>
      have part := wellFormed.2.1 last member
      have noLetter : ¬last.isAlpha := fun letter => not_digit_or_point_of_letter letter part
      constructor
      · rintro (digit | ⟨rfl, single⟩)
        · exact .inr (.inl ⟨part, digit⟩)
        · have noPoint : last ≠ '.' := fun point => single (point ▸ member)
          exact .inr (.inr ⟨part.resolve_right noPoint, rfl, single⟩)
      · rintro (⟨letter, _⟩ | ⟨_, digit⟩ | ⟨_, rfl, single⟩)
        · exact absurd letter noLetter
        · exact .inl digit
        · exact .inr ⟨rfl, single⟩
  | identifier name =>
      have letter := wellFormed.2 last member
      have noNumber := not_digit_or_point_of_letter letter
      simp_all [RunsInto]
  | operator sign =>
      obtain rfl : last = sign.symbol := by simpa [text, Operator.text] using member
      cases sign <;> simp [RunsInto, Operator.symbol]
  | leftParenthesis | rightParenthesis =>
      obtain rfl := by simpa [text] using member
      simp [RunsInto]
  | unknown character =>
      obtain rfl : last = character := by simpa [text] using member
      obtain ⟨_, noDigit, noLetter, plain, _⟩ := wellFormed
      simp_all [RunsInto]

end Token

/-- The last character of the first text and the first one of the second are of one token. -/
def Glue (first second : String) : Prop :=
  ∃ last ∈ first.toList.getLast?, ∃ next ∈ second.toList.head?,
    last.isAlpha ∧ next.isAlpha ∨
    (last.isDigit ∨ last = '.') ∧ next.isDigit ∨
    last.isDigit ∧ next = '.' ∧ ∀ token ∈ (tokenize first).getLast?, '.' ∉ token.text.toList

/-- Two texts glue where the final token of the first one runs into the second. -/
theorem glue_iff (first second : String) :
    Glue first second ↔
      ∃ token ∈ Token.final? first.toList, token.RunsInto second.toList := by
  unfold Glue
  cases final : Token.final? first.toList with
  | none =>
      have hidden := Token.isWhiteSpace_of_final_none final
      simp only [Option.mem_def, reduceCtorEq, false_and, exists_false, iff_false]
      rintro ⟨last, ends, next, _, glued⟩
      have limits := whiteSpace_range (hidden last ends)
      rcases glued with ⟨letter, _⟩ | ⟨digit | rfl, _⟩ | ⟨digit, _⟩
      · have range := letter_range letter
        omega
      · have range := digit_range digit
        omega
      · simp at limits
      · have range := digit_range digit
        omega
  | some token =>
      obtain ⟨wellFormed, before, same⟩ := Token.exists_append_of_final final
      have only : (tokenize first).getLast? = some token := Token.getLast_scan_of_final final
      obtain ⟨last, ends⟩ : ∃ last, token.text.toList.getLast? = some last :=
        ⟨_, List.getLast?_eq_some_getLast wellFormed.text_ne_nil⟩
      have whole : first.toList.getLast? = some last := by
        rw [same, List.getLast?_append, ends, Option.some_or]
      cases second.toList with
      | nil => simpa using Token.not_runsInto_blank token (List.forall_mem_nil _)
      | cons next rest =>
          simp only [whole, only, List.head?_cons, Option.mem_some_iff, exists_eq_left',
            forall_eq', wellFormed.runsInto_iff ends rest]

/-- The tokens of two texts are those of the whole exactly if the texts do not glue. White space
keeps any texts apart, and it changes nothing between texts that do not glue. -/
theorem tokenize_append_iff (first second : String) :
    (tokenize (first ++ second) = tokenize first ++ tokenize second ↔ ¬Glue first second) ∧
    ∀ blank, isWhiteSpace blank →
      tokenize (first ++ String.singleton blank ++ second) = tokenize first ++ tokenize second ∧
      (tokenize (first ++ String.singleton blank ++ second) = tokenize (first ++ second) ↔
        ¬Glue first second) := by
  have cut : tokenize (first ++ second) = tokenize first ++ tokenize second ↔
      ¬Glue first second := by
    simp only [glue_iff, tokenize, String.toList_append, Token.scan_append_iff, not_exists, not_and]
  refine ⟨cut, fun blank white => ?_⟩
  have blanks : ∀ character ∈ [blank], isWhiteSpace character :=
    List.forall_mem_singleton.mpr white
  have spaced : tokenize (first ++ String.singleton blank ++ second) =
      tokenize first ++ tokenize second := by
    have apart := (Token.scan_append_iff first.toList ([blank] ++ second.toList)).mpr
      fun token _ => by
        rw [Token.runsInto_append _ (List.cons_ne_nil blank [])]
        exact Token.not_runsInto_blank token blanks
    rw [Token.scan_append_blank blanks, ← List.append_assoc] at apart
    simpa [tokenize] using apart
  exact ⟨spaced, by rw [spaced, eq_comm, cut]⟩

theorem tokenize_append_points :
    isWhiteSpace '\u3000' ∧ ¬Glue "1.2" ".3" ∧
      tokenize ("1.2" ++ ".3") = tokenize "1.2" ++ tokenize ".3" ∧
      tokenize ("1.2" ++ String.singleton '\u3000' ++ ".3") = tokenize ("1.2" ++ ".3") := by
  have white : isWhiteSpace '\u3000' := by decide
  have read : tokenize "1.2" = [.number "1.2"] := by decide +kernel
  have apart : ¬Glue "1.2" ".3" := by
    simp [Glue, read, Token.text]
  obtain ⟨cut, spaced⟩ := tokenize_append_iff "1.2" ".3"
  exact ⟨white, apart, cut.mpr apart, (spaced '\u3000' white).2.mpr apart⟩

end Reckoner
