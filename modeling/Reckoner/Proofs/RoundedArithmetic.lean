/-
This file says what each operation on finite doubles returns: the exact result, rounded once.
-/

import Reckoner.Proofs.Nearest

namespace Reckoner.Binary64

open Float.Model (UnpackedFloat Format totalExponent)
open Float.Model.UnpackedFloat

/-- The double is a zero, or has the sign, the mantissa and the exponent of the fraction. -/
theorem exists_unpack {x : Float} {value : ℚ} (fraction : fraction? x = some value) :
    (∃ sign, x.toModel.unpack = .zero sign ∧ value = 0) ∨
      ∃ sign mantissa exponent positive,
        x.toModel.unpack = .finite sign mantissa exponent positive ∧
          value = signed sign (mantissa * 2 ^ exponent) := by
  unfold fraction? at fraction
  split at fraction
  · next mantissa exponent positive read =>
      exact .inr ⟨.positive, mantissa, exponent, positive, read, (Option.some.inj fraction).symm⟩
  · next mantissa exponent positive read =>
      exact .inr ⟨.negative, mantissa, exponent, positive, read, (Option.some.inj fraction).symm⟩
  · next sign read => exact .inl ⟨sign, read, (Option.some.inj fraction).symm⟩
  · contradiction
  · contradiction

/-- The fraction of a double is read off its sign, its mantissa and its exponent. -/
theorem fraction_finite {x : Float} {sign : Sign} {mantissa : Nat} {exponent : Int}
    {positive : 0 < mantissa} (read : x.toModel.unpack = .finite sign mantissa exponent positive) :
    fraction? x = some (signed sign (mantissa * 2 ^ exponent)) := by
  cases sign <;> rw [fraction?, read] <;> rfl

variable {x y : Float} {first second value : ℚ}

/-- A double is its own fraction, rounded. -/
theorem rounds_of_fraction (fraction : fraction? x = some value) : Rounds x value :=
  ⟨value, fraction, by rw [sub_self, abs_zero]; positivity⟩

/-- The opposite sign makes the opposite number. -/
theorem signed_neg (sign : Sign) (magnitude : ℚ) :
    signed (-sign) magnitude = -signed sign magnitude := by
  cases sign with
  | positive => rfl
  | negative => exact (neg_neg magnitude).symm

/-- The opposite double has the opposite fraction. -/
theorem fraction_neg (fraction : fraction? x = some value) : fraction? (-x) = some (-value) := by
  rcases exists_unpack fraction with ⟨sign, read, rfl⟩ |
    ⟨sign, mantissa, exponent, positive, read, rfl⟩
  · change fraction? (.ofModel (.pack x.toModel.unpack.neg)) = _
    rw [read, neg_zero]
    exact fraction_pack_zero (-sign)
  · rw [fraction_finite (unpack_neg read), signed_neg]

/-- A number with a sign is a whole multiple of any lower power of two. -/
theorem signed_eq (sign : Sign) (mantissa : Nat) {exponent lower : Int} (below : lower ≤ exponent) :
    signed sign (mantissa * 2 ^ exponent) =
      (sign.apply (mantissa <<< (exponent - lower).toNat : Nat) : ℚ) * 2 ^ lower := by
  obtain ⟨shift, rfl⟩ := Int.le.dest below
  rw [add_sub_cancel_left, Int.toNat_natCast, zpow_add₀ two_ne_zero, zpow_natCast,
    Nat.shiftLeft_eq]
  cases sign <;> simp only [signed, Sign.apply] <;> push_cast <;> ring

/-- A sum is rounded where no term is zero. -/
theorem exists_add (firstFraction : fraction? x = some first)
    (secondFraction : fraction? y = some second) :
    fraction? (x + y) = some (first + second) ∨ ∃ (number : Int) (exponent : Int),
      -1074 ≤ exponent ∧ first + second = number * 2 ^ exponent ∧
      x + y = .ofModel (.pack (normalize Format.binary64 number exponent .positive)) := by
  have sum : x + y =
    .ofModel (.pack (add Format.binary64 x.toModel.unpack y.toModel.unpack)) := rfl
  rcases exists_unpack firstFraction with ⟨sign, read, rfl⟩ |
    ⟨sign, mantissa, exponent, positive, read, rfl⟩ <;>
  rcases exists_unpack secondFraction with ⟨otherSign, otherRead, rfl⟩ |
    ⟨otherSign, otherMantissa, otherExponent, otherPositive, otherRead, rfl⟩
  · rw [sum, read, otherRead, add_zero]
    simp only [add]
    split <;> exact .inl (fraction_pack_zero _)
  · have same : add Format.binary64 (.zero sign) y.toModel.unpack = y.toModel.unpack := by
      rw [otherRead]
      rfl
    rw [sum, read, zero_add, same, ofModel_pack rfl]
    exact .inl secondFraction
  · have same : add Format.binary64 x.toModel.unpack (.zero otherSign) = x.toModel.unpack := by
      rw [read]
      rfl
    rw [sum, otherRead, add_zero, same, ofModel_pack rfl]
    exact .inl firstFraction
  · have least := (fits_of_unpack read).log2.2.1
    have otherLeast := (fits_of_unpack otherRead).log2.2.1
    rw [signed_eq sign mantissa (min_le_left exponent otherExponent),
      signed_eq otherSign otherMantissa (min_le_right exponent otherExponent), ← add_mul,
      ← Int.cast_add, sum, read, otherRead]
    exact .inr ⟨_, _, le_min least otherLeast, rfl, rfl⟩

/-- A sum is the exact one, rounded once. -/
theorem rounds_add (firstFraction : fraction? x = some first)
    (secondFraction : fraction? y = some second) (bounded : |first + second| < overflow) :
    Rounds (x + y) (first + second) := by
  rcases exists_add firstFraction secondFraction with exact |
    ⟨number, exponent, least, value, rounded⟩
  · exact rounds_of_fraction exact
  · rw [value] at bounded ⊢
    rw [abs_mul, abs_of_pos (by positivity : (0 : ℚ) < 2 ^ exponent)] at bounded
    rw [rounded]
    exact rounds_normalize least bounded .positive

/-- The opposite of a zero is the zero with the other sign. -/
theorem unpack_neg_zero {sign : Sign} (read : x.toModel.unpack = .zero sign) :
    (-x).toModel.unpack = .zero (-sign) := by
  change (Float.Model.pack x.toModel.unpack.neg).unpack = _
  rw [read]
  cases sign <;> rfl

theorem apply_neg (sign : Sign) (number : Int) : (-sign).apply number = -sign.apply number := by
  cases sign with
  | positive => rfl
  | negative => exact (Int.neg_neg number).symm

/-- Subtraction adds the opposite number. -/
theorem sub_eq_add_neg_of_fraction (secondFraction : fraction? y = some second) :
    x - y = x + -y := by
  change Float.ofModel (.pack (sub Format.binary64 x.toModel.unpack y.toModel.unpack)) =
    Float.ofModel (.pack (add Format.binary64 x.toModel.unpack (-y).toModel.unpack))
  rcases exists_unpack secondFraction with ⟨sign, read, rfl⟩ |
    ⟨sign, mantissa, exponent, positive, read, rfl⟩
  · rw [read, unpack_neg_zero read]
    cases x.toModel.unpack <;> rfl
  · rw [read, unpack_neg read]
    cases x.toModel.unpack with
    | finite => simp only [sub, add, apply_neg, Int.sub_eq_add_neg]
    | _ => rfl

/-- A difference is the exact one, rounded once. -/
theorem rounds_sub (firstFraction : fraction? x = some first)
    (secondFraction : fraction? y = some second) (bounded : |first - second| < overflow) :
    Rounds (x - y) (first - second) := by
  rw [sub_eq_add_neg_of_fraction secondFraction, sub_eq_add_neg]
  rw [sub_eq_add_neg] at bounded
  exact rounds_add firstFraction (fraction_neg secondFraction) bounded

/-- The sign of a product is the product of the signs. -/
theorem signed_mul (sign otherSign : Sign) (first second : ℚ) :
    signed sign first * signed otherSign second = signed (sign * otherSign) (first * second) := by
  cases sign <;> cases otherSign
  · exact neg_mul_neg first second
  · exact neg_mul first second
  · exact mul_neg first second
  · rfl

/-- The result is zero or has room for all bits of a mantissa. -/
def IsNormal (value : ℚ) : Prop := value ≠ 0 → leastNormal ≤ |value| ∧ |value| < overflow

theorem IsNormal.of_pos {sign : Sign} (normal : IsNormal (signed sign value))
    (positive : 0 < value) : leastNormal ≤ value ∧ value < overflow := by
  have some : signed sign value ≠ 0 := by
    rw [← abs_pos, abs_signed]
    exact abs_pos.mpr positive.ne'
  have both := normal some
  rwa [abs_signed, abs_of_pos positive] at both

/-- A product has at least as many bits as the factors together, less one. -/
theorem log2_mul {mantissa otherMantissa : Nat} (positive : 0 < mantissa)
    (otherPositive : 0 < otherMantissa) :
    mantissa.log2 + otherMantissa.log2 ≤ (mantissa * otherMantissa).log2 := by
  rw [Nat.le_log2 (Nat.mul_pos positive otherPositive).ne', Nat.pow_add]
  exact Nat.mul_le_mul (Nat.log2_self_le positive.ne') (Nat.log2_self_le otherPositive.ne')

/-- A product is rounded where no factor is zero, and has all of its bits before that. -/
theorem exists_mul (firstFraction : fraction? x = some first)
    (secondFraction : fraction? y = some second) :
    fraction? (x * y) = some (first * second) ∨ ∃ sign mantissa exponent, 0 < mantissa ∧
      exponent ≤ Format.binary64.targetExponent (totalExponent mantissa exponent) ∧
      first * second = signed sign (mantissa * 2 ^ exponent) ∧
      x * y = .ofModel (.pack
        (roundWithAccuracy Format.binary64 sign mantissa exponent .exact)) := by
  have product : x * y =
    .ofModel (.pack (mul Format.binary64 x.toModel.unpack y.toModel.unpack)) := rfl
  rcases exists_unpack firstFraction with ⟨sign, read, rfl⟩ |
    ⟨sign, mantissa, exponent, positive, read, rfl⟩ <;>
  rcases exists_unpack secondFraction with ⟨otherSign, otherRead, rfl⟩ |
    ⟨otherSign, otherMantissa, otherExponent, otherPositive, otherRead, rfl⟩
  · rw [product, read, otherRead, zero_mul]
    exact .inl (fraction_pack_zero _)
  · rw [product, read, otherRead, zero_mul]
    exact .inl (fraction_pack_zero _)
  · rw [product, read, otherRead, mul_zero]
    exact .inl (fraction_pack_zero _)
  · have bits := log2_mul positive otherPositive
    have sizes := (fits_of_unpack read).log2
    have otherSizes := (fits_of_unpack otherRead).log2
    have value : (mantissa * 2 ^ exponent * (otherMantissa * 2 ^ otherExponent) : ℚ) =
        (mantissa * otherMantissa : Nat) * 2 ^ (exponent + otherExponent) := by
      rw [zpow_add₀ two_ne_zero]
      push_cast
      ring
    have below : exponent + otherExponent ≤ Format.binary64.targetExponent
        (totalExponent (mantissa * otherMantissa) (exponent + otherExponent)) := by
      rw [targetExponent_eq, totalExponent]
      omega
    rw [signed_mul, value, product, read, otherRead]
    exact .inr ⟨_, _, _, Nat.mul_pos positive otherPositive, below, rfl, rfl⟩

/-- A product is the exact one, rounded once, where it has room for all bits of a mantissa. -/
theorem rounds_mul (firstFraction : fraction? x = some first)
    (secondFraction : fraction? y = some second) (normal : IsNormal (first * second)) :
    Rounds (x * y) (first * second) := by
  rcases exists_mul firstFraction secondFraction with exact |
    ⟨sign, mantissa, exponent, positive, below, value, rounded⟩
  · exact rounds_of_fraction exact
  · rw [value] at normal ⊢
    obtain ⟨least, bounded⟩ := normal.of_pos (by positivity)
    rw [rounded]
    exact rounds_roundWithAccuracy (.inl positive) (holds_exact _) below least bounded _

/-- The sign of a quotient is the quotient of the signs. -/
theorem signed_div (sign otherSign : Sign) (first second : ℚ) :
    signed sign first / signed otherSign second = signed (sign / otherSign) (first / second) := by
  cases sign <;> cases otherSign
  · exact neg_div_neg_eq first second
  · exact neg_div second first
  · exact div_neg first
  · rfl

section Quotient

variable {mantissa otherMantissa : Nat} {exponent otherExponent : Int}

/-- The quotient has enough bits for a mantissa above the exponent that its size gives it, unless
that is as low as the exponents of doubles are. -/
theorem zpow_le_quotient (positive : 0 < mantissa) (otherPositive : 0 < otherMantissa)
    {target : Int}
    (room : target ≤ Format.binary64.targetExponent
      (totalExponent mantissa exponent - totalExponent otherMantissa otherExponent)) :
    (2 : ℚ) ^ (52 + target) ≤ mantissa * 2 ^ exponent / (otherMantissa * 2 ^ otherExponent) ∨
      target ≤ -1074 := by
  rw [targetExponent_eq, le_max_iff] at room
  refine room.imp_left fun few => ?_
  have divisor : (0 : ℚ) < otherMantissa * 2 ^ otherExponent := by positivity
  rw [le_div_iff₀ divisor]
  calc
    _ ≤ (2 : ℚ) ^ (52 + target) * 2 ^ totalExponent otherMantissa otherExponent := by
      gcongr
      exact (value_lt_zpow otherPositive otherExponent).le
    _ ≤ 2 ^ (mantissa.log2 + exponent : Int) := by
      rw [← zpow_add₀ two_ne_zero]
      apply zpow_le_zpow_right₀ one_le_two
      rw [totalExponent] at few
      omega
    _ ≤ _ := zpow_le_value positive exponent

/-- The quotient of the mantissas has enough bits for one, unless it is below all doubles. -/
theorem exists_divCore (exponent otherExponent : Int) (positive : 0 < mantissa)
    (otherPositive : 0 < otherMantissa) :
    ∃ quotient target accuracy exact,
      divCore Format.binary64 mantissa exponent otherMantissa otherExponent =
        (quotient, target, accuracy) ∧
      (2 ^ 52 ≤ quotient ∨ target ≤ -1074) ∧
      Holds (.ofMantissaAndAccuracy quotient accuracy) exact ∧
      exact * 2 ^ target = mantissa * 2 ^ exponent / (otherMantissa * 2 ^ otherExponent) := by
  have below := min_le_left (exponent - otherExponent) (Format.binary64.targetExponent
    (totalExponent mantissa exponent - totalExponent otherMantissa otherExponent))
  have room := min_le_right (exponent - otherExponent) (Format.binary64.targetExponent
    (totalExponent mantissa exponent - totalExponent otherMantissa otherExponent))
  simp only [divCore]
  generalize min (exponent - otherExponent) _ = target at *
  obtain ⟨shift, same⟩ := Int.le.dest below
  obtain rfl : exponent = otherExponent + target + shift := by omega
  have amount : (otherExponent + target + shift - otherExponent - target).toNat = shift := by omega
  have value : (mantissa * 2 ^ (otherExponent + target + shift) /
      (otherMantissa * 2 ^ otherExponent) : ℚ) =
        (mantissa * 2 ^ shift : Nat) / otherMantissa * 2 ^ target := by
    rw [zpow_add₀ two_ne_zero, zpow_add₀ two_ne_zero, zpow_natCast]
    push_cast
    field_simp
  rw [amount, Nat.shiftLeft_eq]
  have holds := holds_div (mantissa * 2 ^ shift) otherPositive
  refine ⟨_, target, _, _, rfl, ?_, holds, value.symm⟩
  have most := holds.most
  rw [mantissa_ofMantissaAndAccuracy] at most
  refine (zpow_le_quotient positive otherPositive room).imp_left fun size => ?_
  have large : (2 ^ 52 : ℚ) ≤ (mantissa * 2 ^ shift : Nat) / otherMantissa := by
    apply le_of_mul_le_mul_right _ (by positivity : (0 : ℚ) < 2 ^ target)
    rw [← value]
    exact (zpow_add₀ two_ne_zero 52 target).symm.trans_le size
  have next := large.trans_lt most
  exact Nat.le_of_lt_succ (by exact_mod_cast next)

end Quotient

/-- A quotient is rounded where the dividend is not zero. -/
theorem exists_div (firstFraction : fraction? x = some first)
    (secondFraction : fraction? y = some second) (nonzero : second ≠ 0) :
    fraction? (x / y) = some (first / second) ∨ ∃ sign mantissa exponent accuracy exact,
      (0 < mantissa ∨ exponent ≤ -1074) ∧
      exponent ≤ Format.binary64.targetExponent (totalExponent mantissa exponent) ∧
      Holds (.ofMantissaAndAccuracy mantissa accuracy) exact ∧
      first / second = signed sign (exact * 2 ^ exponent) ∧ 0 < exact ∧
      x / y = .ofModel (.pack
        (roundWithAccuracy Format.binary64 sign mantissa exponent accuracy)) := by
  have division : x / y =
    .ofModel (.pack (div Format.binary64 x.toModel.unpack y.toModel.unpack)) := rfl
  rcases exists_unpack secondFraction with ⟨otherSign, otherRead, rfl⟩ |
    ⟨otherSign, otherMantissa, otherExponent, otherPositive, otherRead, rfl⟩
  · contradiction
  rcases exists_unpack firstFraction with ⟨sign, read, rfl⟩ |
    ⟨sign, mantissa, exponent, positive, read, rfl⟩
  · rw [division, read, otherRead, zero_div]
    exact .inl (fraction_pack_zero _)
  · obtain ⟨quotient, target, accuracy, exact, core, large, holds, value⟩ :=
      exists_divCore exponent otherExponent positive otherPositive
    have size : 0 < quotient ∨ target ≤ -1074 := large.imp_left fun large => by omega
    have below : target ≤ Format.binary64.targetExponent (totalExponent quotient target) := by
      rw [targetExponent_eq, totalExponent]
      rcases large with large | low
      · have log2 : 52 ≤ quotient.log2 := (Nat.le_log2 (by omega)).mpr large
        omega
      · omega
    have above : 0 < exact := by
      apply pos_of_mul_pos_left _ (by positivity : (0 : ℚ) ≤ 2 ^ target)
      rw [value]
      positivity
    rw [signed_div, ← value, division, read, otherRead]
    refine .inr ⟨_, quotient, target, accuracy, exact, size, below, holds, rfl, above, ?_⟩
    simp only [div, core]

/-- A quotient is the exact one, rounded once, where it has room for all bits of a mantissa. -/
theorem rounds_div (firstFraction : fraction? x = some first)
    (secondFraction : fraction? y = some second) (some : second ≠ 0)
    (normal : IsNormal (first / second)) : Rounds (x / y) (first / second) := by
  rcases exists_div firstFraction secondFraction some with exact |
    ⟨sign, mantissa, exponent, accuracy, exact, size, below, holds, value, above, rounded⟩
  · exact rounds_of_fraction exact
  · rw [value] at normal ⊢
    obtain ⟨least, bounded⟩ := normal.of_pos (by positivity)
    rw [rounded]
    exact rounds_roundWithAccuracy size holds below least bounded _

end Reckoner.Binary64
