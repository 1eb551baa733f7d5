/-
This file shows that the shortest text of a finite double is read as this double.
-/

import Reckoner.Decimal.Shortest
import Reckoner.Proofs.Literal
import Reckoner.Proofs.Printing
import Reckoner.Proofs.Sign

namespace Reckoner

open Float.Model (UnpackedFloat)

/-- Digits are read as a whole where nothing follows them. -/
theorem Digits.span_text {digits : Digits} (whole : ∀ character ∈ digits.whole, character.isDigit)
    (fraction : ∀ character ∈ digits.fraction, character.isDigit) :
    span digits.text = (digits, []) := by
  obtain ⟨wholePart, fractionPart⟩ := digits
  unfold span
  cases fractionPart with
  | none =>
      obtain ⟨taken, dropped⟩ := @takeWhile_run _ _ [] whole (by simp)
      rw [List.append_nil] at taken dropped
      simp only [text, taken, dropped]
  | some places =>
      obtain ⟨wholeTaken, wholeDropped⟩ :=
        @takeWhile_run _ _ ('.' :: places) whole (by simp)
      obtain ⟨taken, dropped⟩ := @takeWhile_run _ _ [] fraction (by simp)
      simp only [Digits.fraction, Option.getD_some, List.append_nil] at taken dropped
      simp only [text, wholeTaken, wholeDropped, taken, dropped]

namespace FixedPoint

/-- A digit stands before the places, if only a zero. -/
def padded (number : FixedPoint) : List Char :=
  List.replicate (number.places + 1 - number.digits.length) '0' ++ number.digits

/-- The digits on either side of the point, if there is one. -/
def parts (number : FixedPoint) : Digits :=
  if number.places = 0 then ⟨number.digits, none⟩
  else
    let whole := number.padded.length - number.places
    ⟨number.padded.take whole, some (number.padded.drop whole)⟩

/-- The text joins the parts with a point. -/
theorem text_parts (number : FixedPoint) : number.parts.text = number.text := by
  unfold parts text
  split <;> rfl

theorem isDigit_of_mem_digits {number : FixedPoint} :
    ∀ character ∈ number.digits, character.isDigit := by
  intro character member
  exact Nat.isDigit_of_mem_toDigits (by decide) (by decide) member

theorem isDigit_of_mem_padded {number : FixedPoint} :
    ∀ character ∈ number.padded, character.isDigit := by
  intro character member
  rcases List.mem_append.mp member with padding | digit
  · rw [List.eq_of_mem_replicate padding]
    rfl
  · exact isDigit_of_mem_digits character digit

theorem ofDigits_digits (number : FixedPoint) :
    Decimal.ofDigits number.digits = number.coefficient :=
  Nat.ofDigitChars_ten_toDigits

/-- Zeros in front do not count. -/
theorem ofDigits_padded (number : FixedPoint) :
    Decimal.ofDigits number.padded = number.coefficient := by
  change Nat.ofDigitChars 10 number.padded 0 = _
  rw [padded, Nat.ofDigitChars_append, Nat.ofDigitChars_replicate_zero, Nat.mul_zero]
  exact number.ofDigits_digits

theorem places_lt_length_padded (number : FixedPoint) : number.places < number.padded.length := by
  simp only [padded, List.length_append, List.length_replicate]
  omega

/-- The digits are those of the number, with its places behind the point. -/
structure Splits (number : FixedPoint) (digits : Digits) : Prop where
  whole : ∀ character ∈ digits.whole, character.isDigit
  fraction : ∀ character ∈ digits.fraction, character.isDigit
  some : digits.whole ≠ []
  coefficient : Decimal.ofDigits (digits.whole ++ digits.fraction) = number.coefficient
  places : digits.fraction.length = number.places

theorem splits_parts (number : FixedPoint) : number.Splits number.parts := by
  have places := number.places_lt_length_padded
  unfold parts
  split
  · next none =>
      exact {
        whole := isDigit_of_mem_digits
        fraction := by simp [Digits.fraction]
        some := Nat.toDigits_ne_nil
        coefficient := by simp [Digits.fraction, ofDigits_digits]
        places := none.symm }
  · exact {
      whole := fun character member => isDigit_of_mem_padded character (List.mem_of_mem_take member)
      fraction := fun character member =>
        isDigit_of_mem_padded character (List.mem_of_mem_drop member)
      some := by
        rw [← List.length_pos_iff, List.length_take]
        omega
      coefficient := by
        simp only [Digits.fraction, Option.getD_some, List.take_append_drop, ofDigits_padded]
      places := by
        simp only [Digits.fraction, Option.getD_some, List.length_drop]
        omega }

theorem isLiteral_text (number : FixedPoint) : IsLiteral number.text := by
  have splits := number.splits_parts
  rw [← text_parts]
  apply Digits.isLiteral_text splits.whole splits.fraction
  unfold Digits.text
  split <;> simp [splits.some]

/-- The text of a number is read as the number. -/
theorem readDecimal_text (number : FixedPoint) :
    Decimal.readDecimal? number.text = some number.toDecimal := by
  have splits := number.splits_parts
  simp only [← text_parts, Decimal.readDecimal?, Digits.span_text splits.whole splits.fraction,
    splits.some, false_and, ↓reduceIte, Decimal.readExponent?, Option.map_some,
    splits.coefficient, splits.places, toDecimal, zero_sub]

theorem readFloat_text (number : FixedPoint) :
    Decimal.readFloat? (String.ofList number.text) = some number.toDecimal.toFloat := by
  have literal : IsLiteral (String.ofList number.text).toList := by
    rw [String.toList_ofList]
    exact number.isLiteral_text
  rw [readFloat_of_isLiteral literal, String.toList_ofList, readDecimal_text, Option.map_some]

/-- A minus sign in front changes the sign of what is read. -/
theorem readFloat_minus_text (number : FixedPoint) :
    Decimal.readFloat? ("-" ++ String.ofList number.text) = some (-number.toDecimal.toFloat) := by
  have same : ("-" ++ String.ofList number.text).toList = '-' :: number.text := by simp
  rw [Decimal.readFloat?, same]
  simp only [readUnsigned_of_isLiteral number.isLiteral_text, readDecimal_text, Option.map_some]

/-- No digit of the mantissa times the power of two is lost. -/
theorem value_ofBinary (mantissa : Nat) (exponent : Int) :
    ((ofBinary mantissa exponent).toDecimal.coefficient : ℚ) *
        10 ^ (ofBinary mantissa exponent).toDecimal.exponent = mantissa * 2 ^ exponent := by
  unfold ofBinary
  split
  · next whole =>
      obtain ⟨shift, rfl⟩ := Int.eq_ofNat_of_zero_le whole
      simp [toDecimal, Nat.shiftLeft_eq]
  · next fractional =>
      obtain ⟨places, rfl⟩ : ∃ places : Nat, exponent = -places := ⟨exponent.natAbs, by omega⟩
      have ten : (10 : ℚ) = 5 * 2 := by norm_num
      simp only [toDecimal, neg_neg, Int.toNat_natCast, Nat.cast_mul, Nat.pow_eq, Nat.cast_pow,
        Nat.cast_ofNat, zpow_neg, zpow_natCast, ten, mul_pow, mul_inv]
      field_simp

/-- All digits of a positive double are read as this double. -/
theorem toFloat_ofBinary {x : Float} {mantissa : Nat} {exponent : Int} {positive : 0 < mantissa}
    (read : x.toModel.unpack = .finite .positive mantissa exponent positive) :
    (ofBinary mantissa exponent).toDecimal.toFloat = x := by
  have value := value_ofBinary mantissa exponent
  apply Decimal.toFloat_eq
  · apply Nat.pos_of_ne_zero
    intro none
    have some : (0 : ℚ) < mantissa * 2 ^ exponent := by positivity
    rw [← value, none, Nat.cast_zero, zero_mul] at some
    exact lt_irrefl _ some
  · rw [value, Binary64.fraction?, read]

/-- Fewer digits are kept only where the double is read from them. -/
theorem toFloat_shortest {number : FixedPoint} {x : Float}
    (some : ∀ sign, x.toModel.unpack ≠ .zero sign)
    (exact : number.toDecimal.toFloat = x) : (number.shortest x).toDecimal.toFloat = x := by
  unfold shortest
  extract_lets count readBack
  cases found : readBack with
  | none => exact exact
  | some candidate =>
      obtain ⟨index, _, kept⟩ := List.exists_of_findSome?_eq_some found
      have same := List.find?_some kept
      -- The zeros of both signs compare as equal, and the double is neither of them.
      rcases Float.beq_iff_ne_nan_and_eq.mp same with ⟨_, _, same | ⟨_, zero⟩ | ⟨_, zero⟩⟩
      · exact same
      · exact absurd (zero ▸ rfl) (some .negative)
      · exact absurd (zero ▸ rfl) (some .positive)

end FixedPoint

open Binary64

/-- The shortest text of a finite double is read as this double. -/
theorem readFloat_shortestText {x : Float} (finite : x.isFinite) :
    Decimal.readFloat? (shortestText x) = some x := by
  change x.toModel.unpack.isFinite = true at finite
  unfold shortestText
  cases read : x.toModel.unpack with
  | notANumber | infinity sign => simp [read, UnpackedFloat.isFinite] at finite
  | zero sign =>
      cases sign with
      | positive =>
          obtain rfl : x = 0.0 := eq_of_unpack read
          rfl
      | negative =>
          obtain rfl : x = -0.0 := eq_of_unpack read
          rfl
  | finite sign mantissa exponent positive =>
      have magnitude := unpack_magnitude read
      have exact := FixedPoint.toFloat_ofBinary magnitude
      have shortest := FixedPoint.toFloat_shortest (by simp [magnitude]) exact
      cases sign with
      | positive =>
          have same : Scalar.magnitude x = x := eq_of_unpack (magnitude.trans read.symm)
          change Decimal.readFloat? ("" ++ _) = _
          rw [String.empty_append, FixedPoint.readFloat_text, shortest, same]
      | negative =>
          have same : -Scalar.magnitude x = x :=
            eq_of_unpack ((unpack_neg magnitude).trans read.symm)
          change Decimal.readFloat? ("-" ++ _) = _
          rw [FixedPoint.readFloat_minus_text, shortest, same]

/-- Without a minus sign the shortest text is a literal. -/
theorem isLiteral_shortestText {x : Float} (finite : x.isFinite) (unsigned : IsUnsigned x) :
    IsLiteral (shortestText x).toList := by
  change x.toModel.unpack.isFinite = true at finite
  unfold IsUnsigned at unsigned
  unfold shortestText
  cases read : x.toModel.unpack with
  | notANumber | infinity sign => simp [read, UnpackedFloat.isFinite] at finite
  | zero sign =>
      obtain rfl : sign = .positive := by simpa [read, sign?] using unsigned
      have zero : ("" ++ "0").toList = FixedPoint.text ⟨0, 0⟩ := by decide
      change IsLiteral ("" ++ "0").toList
      rw [zero]
      exact FixedPoint.isLiteral_text ⟨0, 0⟩
  | finite sign mantissa exponent positive =>
      obtain rfl : sign = .positive := by simpa [read, sign?] using unsigned
      change IsLiteral ("" ++ _).toList
      rw [String.empty_append, String.toList_ofList]
      exact FixedPoint.isLiteral_text _

end Reckoner
