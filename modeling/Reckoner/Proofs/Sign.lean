/-
This file shows that no decimal number is read as a double with a minus sign.
-/

import Reckoner.Proofs.Exactness

namespace Reckoner.Binary64

open Float.Model (UnpackedFloat Format)
open Float.Model.UnpackedFloat

/-- Nothing but a number has a sign. -/
def sign? : UnpackedFloat → Option Sign
  | .notANumber => none
  | .infinity sign | .zero sign | .finite sign _ _ _ => some sign

/-- The bits keep the sign. -/
theorem sign_unpack_pack (number : UnpackedFloat) :
    sign? (Float.Model.pack number).unpack = sign? number := by
  have kept (sign : Sign) {biased : BitVec 11} (fits : biased ≠ -1#11) (fraction : BitVec 52) :
      sign? (unpack Format.binary64 (packComponents Format.binary64 sign biased fraction)) =
        some sign := by
    rw [unpack_packComponents, if_neg fits]
    split
    · split <;> rfl
    · rfl
  change sign? (unpack Format.binary64 (pack Format.binary64 number)) = _
  cases number with
  | notANumber => rw [pack, unpack_packedNaN]
  | zero sign => rw [pack, unpack_packedZero]
  | infinity sign => cases sign <;> rfl
  | finite sign mantissa exponent positive =>
      simp only [pack]
      split
      · cases sign <;> rfl
      · next below =>
          split
          · exact kept sign (ofNat_ne_allOnes below) _
          · exact kept sign (by decide) _

/-- A number keeps its sign even where it is rounded to zero or overflows. -/
theorem sign_roundWithAccuracy (spec : Format) (sign : Sign) (mantissa : Nat) (exponent : Int)
    (accuracy : Accuracy) :
    sign? (roundWithAccuracy spec sign mantissa exponent accuracy) = some sign := by
  simp only [roundWithAccuracy]
  split <;> rfl

variable {number : UnpackedFloat} {mantissa : Nat} {exponent : Int}

/-- A number keeps its sign when it is divided by a positive one. -/
theorem sign_div {sign : Sign} (signed : sign? number = some sign) (positive : 0 < mantissa) :
    sign? (div Format.binary64 number (.finite .positive mantissa exponent positive)) =
      some sign := by
  cases number with
  | notANumber => contradiction
  | zero own | infinity own =>
      obtain rfl := Option.some.inj signed
      cases own <;> rfl
  | finite own dividend high some =>
      obtain rfl := Option.some.inj signed
      rw [div, sign_roundWithAccuracy]
      cases own <;> rfl

theorem sign_mul {sign : Sign} (signed : sign? number = some sign) (positive : 0 < mantissa) :
    sign? (mul Format.binary64 number (.finite .positive mantissa exponent positive)) =
      some sign := by
  cases number with
  | notANumber => contradiction
  | zero own | infinity own =>
      obtain rfl := Option.some.inj signed
      cases own <;> rfl
  | finite own factor high some =>
      obtain rfl := Option.some.inj signed
      rw [mul, sign_roundWithAccuracy]
      cases own <;> rfl

/-- Neither a product with a power of ten nor a quotient has a minus sign. -/
theorem sign_ofScientific (coefficient : Nat) (power : Int) :
    sign? (UnpackedFloat.ofScientific Format.binary64 coefficient power) = some .positive := by
  unfold UnpackedFloat.ofScientific
  split
  · rfl
  split
  · rfl
  split
  · rfl
  split
  · exact sign_mul rfl _
  · exact sign_div rfl _

/-- A double without a minus sign, which a zero may have too. -/
def IsUnsigned (x : Float) : Prop := sign? x.toModel.unpack = some .positive

/-- The sign is the first bit. -/
theorem unpackSign_eq (bits : BitVec 64) :
    @unpackSign Format.binary64 bits = BitVec.ofBool bits.msb := by
  apply BitVec.eq_of_getLsbD_eq
  intro index below
  obtain rfl : index = 0 := by omega
  simp [unpackSign, BitVec.msb_eq_getLsbD_last]
  rfl

/-- Whatever number the bits are, they have its sign. -/
theorem sign_unpack {bits : BitVec 64} (number : (unpack Format.binary64 bits).isNaN = false) :
    sign? (unpack Format.binary64 bits) =
      some (.ofBitVec (@unpackSign Format.binary64 bits)) := by
  revert number
  unfold unpack
  extract_lets fraction biased exponent signBit sign
  split
  · split
    · exact fun _ => rfl
    · exact fun notNumber => absurd notNumber (by decide)
  · split
    · split <;> exact fun _ => rfl
    · exact fun _ => rfl

/-- A double has no minus sign exactly if its first bit is not set. -/
theorem isUnsigned_iff_msb {x : Float} (number : x.isNaN = false) :
    IsUnsigned x ↔ x.toBits.toBitVec.msb = false := by
  have sign : sign? x.toModel.unpack =
      some (.ofBitVec (@unpackSign Format.binary64 x.toBits.toBitVec)) :=
    sign_unpack number
  rw [IsUnsigned, sign, unpackSign_eq]
  cases x.toBits.toBitVec.msb <;> simp [Sign.ofBitVec]

/-- No whole number gets a minus sign. -/
theorem isUnsigned_toFloat (word : UInt64) : IsUnsigned word.toFloat := by
  change sign? (Float.Model.pack (UnpackedFloat.ofUInt64 Format.binary64 word)).unpack = _
  rw [sign_unpack_pack]
  simp only [UnpackedFloat.ofUInt64, UnpackedFloat.ofNat, UnpackedFloat.ofInt,
    UnpackedFloat.normalize]
  split
  · next less =>
      rw [Int.compare_eq_lt] at less
      omega
  · rfl
  · exact sign_roundWithAccuracy _ _ _ _ _

/-- A positive factor changes no sign. -/
theorem isUnsigned_mul {x y : Float} {value : ℚ} (unsigned : IsUnsigned x)
    (fraction : fraction? y = some value) (positive : 0 < value) : IsUnsigned (x * y) := by
  obtain ⟨_, _, ⟨_, read⟩, _⟩ := exists_isPositive fraction positive
  change sign? (Float.Model.pack (mul Format.binary64 x.toModel.unpack y.toModel.unpack)).unpack = _
  rw [sign_unpack_pack, read, sign_mul unsigned]

theorem isUnsigned_div {x y : Float} {value : ℚ} (unsigned : IsUnsigned x)
    (fraction : fraction? y = some value) (positive : 0 < value) : IsUnsigned (x / y) := by
  obtain ⟨_, _, ⟨_, read⟩, _⟩ := exists_isPositive fraction positive
  change sign? (Float.Model.pack (div Format.binary64 x.toModel.unpack y.toModel.unpack)).unpack = _
  rw [sign_unpack_pack, read, sign_div unsigned]

/-- The short way for few digits makes no minus sign either. -/
theorem isUnsigned_ofScientific (coefficient places : Nat) (negative : Bool) :
    IsUnsigned (Float.ofScientific coefficient negative places) := by
  unfold Float.ofScientific
  split
  · next small =>
      have digits := isUnsigned_toFloat coefficient.toUInt64
      have power := fraction_powers ⟨places, by omega⟩
      have positive : (0 : ℚ) < 10 ^ places := by positivity
      cases negative with
      | false => exact isUnsigned_mul digits power positive
      | true => exact isUnsigned_div digits power positive
  · change sign? (Float.Model.pack (UnpackedFloat.ofScientific Format.binary64 _ _)).unpack = _
    rw [sign_unpack_pack, sign_ofScientific]

theorem not_isNaN_of_isFinite {x : Float} (finite : x.isFinite) : x.isNaN = false := by
  change x.toModel.unpack.isFinite = true at finite
  change x.toModel.unpack.isNaN = false
  cases read : x.toModel.unpack with
  | notANumber => simp [read, UnpackedFloat.isFinite] at finite
  | zero sign | infinity sign | finite sign _ _ _ => rfl

theorem IsUnsigned.not_isNaN {x : Float} (unsigned : IsUnsigned x) : x.isNaN = false := by
  change x.toModel.unpack.isNaN = false
  unfold IsUnsigned at unsigned
  cases read : x.toModel.unpack with
  | notANumber => simp [read, sign?] at unsigned
  | zero sign | infinity sign | finite sign _ _ _ => rfl

/-- A double without a minus sign is a number from zero up. -/
theorem IsUnsigned.zero_le {x : Float} (unsigned : IsUnsigned x) : 0.0 ≤ x := by
  have zero : (0.0 : Float).toModel.unpack = .zero .positive := rfl
  change decide ((0.0 : Float).toModel.unpack.le x.toModel.unpack = true) = true
  rw [zero, decide_eq_true_eq]
  unfold IsUnsigned at unsigned
  cases read : x.toModel.unpack with
  | notANumber => simp [read, sign?] at unsigned
  | zero sign => rfl
  | infinity sign | finite sign _ _ _ =>
      obtain rfl : sign = .positive := by simpa [read, sign?] using unsigned
      rfl

end Reckoner.Binary64

namespace Reckoner.Decimal

open Binary64

/-- A decimal number has no sign, and it is read as a double without one. -/
theorem isUnsigned_toFloat (decimal : Decimal) : IsUnsigned decimal.toFloat := by
  unfold toFloat
  split
  · rfl
  split
  · rfl
  split
  · rfl
  · exact isUnsigned_ofScientific _ _ _

end Reckoner.Decimal
