/-
This file shows that a text is spelled by its tokens, so that nothing of it is lost but white space.
-/

import Reckoner.Proofs.Printing

namespace Reckoner

namespace Token

/-- A character that is part of no number and no name stays as it is. -/
theorem text_ofCharacter (character : Char) :
    (ofCharacter character).text = String.singleton character := by
  unfold ofCharacter
  split
  · rfl
  · rfl
  · split
    · next sign found =>
        rw [text, Operator.text, Operator.symbol_of_ofSymbol found]
    · rfl

/-- A token is read behind white space, and nothing between it and what remains is passed over. -/
theorem exists_blank_of_next {text remaining : List Char} {token : Token}
    (read : next? text = some (token, remaining)) :
    ∃ blank, (∀ character ∈ blank, isWhiteSpace character) ∧
      text = blank ++ token.text.toList ++ remaining := by
  have whole := List.takeWhile_append_dropWhile (p := isWhiteSpace) (l := text)
  refine ⟨text.takeWhile isWhiteSpace, fun character => List.mem_takeWhile_imp, ?_⟩
  unfold next? at read
  split at read
  · contradiction
  · next first rest start =>
      rw [start] at whole
      split at read
      · simp only [Option.some.injEq, Prod.mk.injEq] at read
        obtain ⟨rfl, rfl⟩ := read
        rw [Token.text, String.toList_ofList, List.append_assoc, Digits.text_append_span, whole]
      · split at read <;> simp only [Option.some.injEq, Prod.mk.injEq] at read <;>
          obtain ⟨rfl, rfl⟩ := read
        · rw [Token.text, String.toList_ofList, List.append_assoc, List.cons_append,
            List.takeWhile_append_dropWhile, whole]
        · rw [text_ofCharacter, String.toList_singleton, List.append_assoc, List.singleton_append,
            whole]

/-- Where no token is read, there is only white space. -/
theorem isWhiteSpace_of_next_none {text : List Char} (nothing : next? text = none) :
    ∀ character ∈ text, isWhiteSpace character := by
  unfold next? at nothing
  split at nothing
  · next all => exact List.dropWhile_eq_nil_iff.mp all
  · split at nothing
    · contradiction
    · split at nothing <;> contradiction

/-- Each text is spelled by the tokens that are read from it. -/
theorem spells_scan (text : List Char) : Spells (scan text) text := by
  fun_induction scan text with
  | case1 text nothing => exact .nil (isWhiteSpace_of_next_none nothing)
  | case2 text token remaining read _ ih =>
      obtain ⟨blank, blanks, same⟩ := exists_blank_of_next read
      rw [same]
      exact .cons blanks ih

/-- A text without tokens is white space. -/
theorem isWhiteSpace_of_scan_nil {text : List Char} (none : scan text = []) :
    ∀ character ∈ text, isWhiteSpace character := by
  have spells := spells_scan text
  rw [none] at spells
  obtain ⟨blanks⟩ := spells
  exact blanks

/-- The visible characters of a text are those of the tokens that it spells. -/
theorem Spells.filter_visible {tokens : List Token} {text : List Char} (spells : Spells tokens text)
    (wellFormed : ∀ token ∈ tokens, token.WellFormed) :
    text.filter (fun character => !isWhiteSpace character) =
      tokens.flatMap fun token => token.text.toList := by
  have hidden {blank : List Char} (blanks : ∀ character ∈ blank, isWhiteSpace character) :
      blank.filter (fun character => !isWhiteSpace character) = [] := by
    simpa using blanks
  induction spells with
  | nil blanks => exact hidden blanks
  | @cons blank text token tokens blanks _ ih =>
      obtain ⟨here, others⟩ := List.forall_mem_cons.mp wellFormed
      have shown : token.text.toList.filter (fun character => !isWhiteSpace character) =
          token.text.toList := by
        simpa using here.not_isWhiteSpace
      rw [List.filter_append, List.filter_append, hidden blanks, ih others, shown]
      rfl

end Token

/-- The texts of the tokens hold the visible characters of the source in their order, and each of
them holds at least one character and no white space. -/
theorem tokenize_keeps_visible (source : String) :
    String.join ((tokenize source).map Token.text) =
      String.ofList (source.toList.filter fun character => !isWhiteSpace character) ∧
    ∀ token ∈ tokenize source, token.text ≠ "" ∧
      ∀ character ∈ token.text.toList, ¬isWhiteSpace character := by
  have wellFormed := Token.wellFormed_of_mem_scan source.toList
  constructor
  · have visible := (Token.spells_scan source.toList).filter_visible wellFormed
    rw [← String.toList_inj, String.toList_join, String.toList_ofList, visible, List.flatMap_map]
    rfl
  · intro token member
    have here := wellFormed token member
    refine ⟨fun empty => here.text_ne_nil ?_, here.not_isWhiteSpace⟩
    rw [empty]
    rfl

end Reckoner
