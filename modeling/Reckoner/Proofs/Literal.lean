/-
This file shows that a literal has a value unless it is a point alone.
-/

import Reckoner.Arithmetic
import Reckoner.Proofs.Spelling

namespace Reckoner

namespace IsLiteral

/-- A literal has no characters but digits and its point. -/
theorem not_mem {text : List Char} (literal : IsLiteral text) {character : Char}
    (noDigit : ¬character.isDigit) (noPoint : character ≠ '.') : character ∉ text := by
  intro member
  exact (literal.2.1 character member).elim noDigit noPoint

/-- No character of a literal has two cases. -/
theorem map_toLower {text : List Char} (literal : IsLiteral text) :
    text.map Char.toLower = text := by
  refine (List.map_congr_left fun character member => ?_).trans (List.map_id text)
  unfold Char.toLower
  split
  · next upper =>
      have range : 65 ≤ character.toNat := UInt32.le_iff_toNat_le.mp upper.1
      rcases literal.2.1 character member with digit | rfl
      · have limits := digit_range digit
        omega
      · simp at range
  · rfl

/-- A literal is a decimal number unless it is a point alone. -/
theorem readDecimal {literal : String} (isLiteral : IsLiteral literal.toList)
    (digits : literal.toList ≠ ['.']) :
    ∃ decimal, Decimal.readDecimal? literal.toList = some decimal := by
  have apart : ¬(Token.number literal).RunsInto [] := id
  obtain ⟨whole, rest⟩ := Digits.span_literal isLiteral apart
  rw [List.append_nil] at whole rest
  have someDigit : ¬((Digits.span literal.toList).1.whole = [] ∧
      (Digits.span literal.toList).1.fraction = []) := by
    intro none
    obtain ⟨noWhole, noFraction⟩ := none
    unfold Digits.text at whole
    split at whole
    · exact isLiteral.1 (whole.symm.trans noWhole)
    · next fraction pointed =>
        simp only [Digits.fraction, pointed, Option.getD_some] at noFraction
        rw [noWhole, noFraction] at whole
        exact digits whole.symm
  simp only [Decimal.readDecimal?, someDigit, ↓reduceIte, rest, Decimal.readExponent?,
    Option.map_some]
  exact ⟨_, rfl⟩

end IsLiteral

/-- A literal is read as a decimal number, since it is no name. -/
theorem readUnsigned_of_isLiteral {text : List Char} (isLiteral : IsLiteral text) :
    Decimal.readUnsigned? text = (Decimal.readDecimal? text).map Decimal.toFloat := by
  have noName : ∀ name : List Char, 'n' ∈ name → text ≠ name := by
    intro name member same
    exact isLiteral.not_mem (by decide) (by decide) (same ▸ member)
  simp only [Decimal.readUnsigned?, isLiteral.map_toLower, noName "inf".toList (by decide),
    noName "infinity".toList (by decide), noName "nan".toList (by decide), or_self, ↓reduceIte]

/-- A literal has no sign either. -/
theorem readFloat_of_isLiteral {literal : String} (isLiteral : IsLiteral literal.toList) :
    Decimal.readFloat? literal =
      (Decimal.readDecimal? literal.toList).map Decimal.toFloat := by
  unfold Decimal.readFloat?
  split
  · next rest signed =>
      exact absurd (signed ▸ List.mem_cons_self) (isLiteral.not_mem (by decide) (by decide))
  · next rest signed =>
      exact absurd (signed ▸ List.mem_cons_self) (isLiteral.not_mem (by decide) (by decide))
  · exact readUnsigned_of_isLiteral isLiteral

/-- Only the point alone is malformed among the literals. -/
theorem numberValue_of_isLiteral {literal : String} (isLiteral : IsLiteral literal.toList) :
    if literal = "." then numberValue literal = .error (.malformedNumber ".")
    else ∃ value, numberValue literal = .ok value := by
  split
  · next point =>
      subst point
      rfl
  · next digits =>
      have text : literal.toList ≠ ['.'] := by
        intro same
        exact digits (String.toList_inj.mp same)
      obtain ⟨decimal, read⟩ := isLiteral.readDecimal text
      exact ⟨decimal.toFloat, by simp [numberValue, readFloat_of_isLiteral isLiteral, read]⟩

end Reckoner
