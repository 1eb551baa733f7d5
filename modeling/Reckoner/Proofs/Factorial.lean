/-
This file says what the factorial of a machine word is: the last 64 bits of the factorial of the
number. They are the whole factorial up to 20, and zero from 66 on.
-/

import Mathlib
import Reckoner.Factorial

namespace Reckoner.Factorial

open scoped Nat

section Whole

variable {n : Nat}

/-- The factor one can be left out. -/
theorem ascFactorial_two (n : Nat) : Nat.ascFactorial 2 (n - 1) = n ! := by
  cases n with
  | zero => rfl
  | succ n => rw [Nat.add_sub_cancel, Nat.add_comm n, ← Nat.factorial_mul_ascFactorial,
      Nat.factorial_one, Nat.one_mul]

/-- Exactly the factorials up to that of 20 fit in a word with a sign. -/
theorem factorial_lt_iff : n ! < 2 ^ 63 ↔ n ≤ 20 := by
  refine ⟨fun less => ?_, fun few => ?_⟩
  · by_contra many
    have most : 21 ! ≤ n ! := Nat.factorial_le (Nat.lt_of_not_le many)
    exact absurd (most.trans_lt less) (by decide)
  · have least : n ! ≤ 20 ! := Nat.factorial_le few
    exact least.trans_lt (by decide)

/-- The factor two occurs 63 times in the factorial of 65, and once more in the next one. -/
theorem two_pow_dvd_factorial_iff : 2 ^ 64 ∣ n ! ↔ 66 ≤ n := by
  refine ⟨fun divides => ?_, fun many => ?_⟩
  · by_contra few
    have within : n ! ∣ 65 ! := Nat.factorial_dvd_factorial (by omega)
    exact absurd (divides.trans within) (by decide)
  · have divides : 2 ^ 64 ∣ 66 ! := by decide
    exact divides.trans (Nat.factorial_dvd_factorial many)

end Whole

theorem ofNat_add_one (factor : Nat) : (.ofNat factor + 1 : Int64) = .ofNat (factor + 1) :=
  (Int64.ofNat_add factor 1).symm

/-- The product is that of all factors, since it stays zero once it is zero. -/
theorem extend_eq_foldl (product : Int64) (factor count : Nat) :
    extend product (.ofNat factor) count =
      ((List.range' factor count).map .ofNat).foldl (· * ·) product := by
  induction count generalizing product factor with
  | zero => rfl
  | succ count ih =>
      rw [extend, ofNat_add_one, ih, List.range'_succ, List.map_cons, List.foldl_cons]
      split
      · next gone => rw [gone, Int64.zero_mul, List.foldl_fixed' fun _ => Int64.zero_mul]
      · rfl

variable {n : Int64}

/-- The factorial is the wrapping product of the numbers from two up to its own. -/
theorem compute_eq_foldl (nonneg : 0 ≤ n) :
    compute n = ((List.range' 2 (n.toNatClampNeg - 1)).map .ofNat).foldl (· * ·) 1 := by
  rw [compute, if_neg (Int64.not_lt.mpr nonneg)]
  exact extend_eq_foldl 1 2 _

/-- The factors are whole numbers, of which the words keep the last bits. -/
theorem extend_ofNat (product factor count : Nat) :
    extend (.ofNat product) (.ofNat factor) count =
      .ofNat (product * factor.ascFactorial count) := by
  induction count generalizing product factor with
  | zero => rw [extend, Nat.ascFactorial_zero, Nat.mul_one]
  | succ count ih =>
      rw [extend]
      split
      · next gone => rw [Int64.ofNat_mul, gone, Int64.zero_mul]
      · rw [ofNat_add_one, ← Int64.ofNat_mul, ih, Nat.ascFactorial_succ, ← Nat.succ_ascFactorial,
          Nat.mul_assoc]

/-- Negative numbers give zero. -/
theorem compute_of_neg (negative : n < 0) : compute n = 0 := by
  rw [compute, if_pos negative]

/-- The factorial of a word is the word of the whole factorial. -/
theorem compute_of_nonneg (nonneg : 0 ≤ n) : compute n = .ofNat n.toNatClampNeg ! := by
  rw [compute, if_neg (Int64.not_lt.mpr nonneg)]
  refine (extend_ofNat 1 2 _).trans ?_
  rw [Nat.one_mul, ascFactorial_two]

/-- The word stands for the remainder that lies nearest to zero. -/
theorem toInt_compute (nonneg : 0 ≤ n) :
    (compute n).toInt = Int.bmod n.toNatClampNeg ! (2 ^ 64) := by
  rw [compute_of_nonneg nonneg]
  exact Int64.toInt_ofNat'

/-- The word stands for the whole factorial exactly where that fits. -/
theorem toInt_compute_eq_iff (nonneg : 0 ≤ n) :
    (compute n).toInt = n.toNatClampNeg ! ↔ n.toNatClampNeg ≤ 20 := by
  rw [← factorial_lt_iff]
  refine ⟨fun same => ?_, fun less => ?_⟩
  · have most := (compute n).toInt_lt
    rw [same] at most
    exact_mod_cast most
  · rw [compute_of_nonneg nonneg, Int64.toInt_ofNat_of_lt less]

/-- The word is zero exactly where the factorial has 64 factors of two. -/
theorem compute_eq_zero_iff_of_nonneg (nonneg : 0 ≤ n) :
    compute n = 0 ↔ 66 ≤ n.toNatClampNeg := by
  rw [← two_pow_dvd_factorial_iff, ← Int64.toInt_inj, toInt_compute nonneg, Int64.toInt_zero,
    ← Int.dvd_iff_bmod_eq_zero, Int.natCast_dvd_natCast]

/-- A word from zero up is read alike as a number with a sign and without. -/
theorem toInt_of_nonneg (nonneg : 0 ≤ n) : n.toInt = n.toNatClampNeg :=
  (Int.toNat_of_nonneg (Int64.le_iff_toInt_le.mp nonneg)).symm

/-- Of the factorial of a number from zero up the last 64 bits are kept, as a word with a sign. The
word is the whole factorial exactly up to 20, and zero exactly below zero and from 66 on. -/
theorem compute_modEq_factorial (n : Int64) :
    (0 ≤ n → (compute n).toInt ≡ n.toNatClampNeg ! [ZMOD 2 ^ 64] ∧
      ((compute n).toInt = n.toNatClampNeg ! ↔ n ≤ 20)) ∧
    (compute n = 0 ↔ n < 0 ∨ 66 ≤ n) := by
  refine ⟨fun nonneg => ⟨?_, ?_⟩, ?_⟩
  · rw [toInt_compute nonneg]
    exact Int.bmod_emod
  · rw [toInt_compute_eq_iff nonneg, Int64.le_iff_toInt_le, toInt_of_nonneg nonneg]
    exact Int.ofNat_le.symm
  · rcases Int64.lt_or_le n 0 with negative | nonneg
    · exact iff_of_true (compute_of_neg negative) (.inl negative)
    · have notNegative : ¬n < 0 := Int64.not_lt.mpr nonneg
      rw [compute_eq_zero_iff_of_nonneg nonneg, or_iff_right notNegative, Int64.le_iff_toInt_le,
        toInt_of_nonneg nonneg]
      exact Int.ofNat_le.symm

/-- The factorial of 21 is the first that is cut off, and that of 65 the last with a bit left. -/
theorem compute_modEq_factorial_cut :
    (0 : Int64) ≤ 21 ∧ (compute 21).toInt = -4249290049419214848 ∧
      (-4249290049419214848 ≡ 21 ! [ZMOD 2 ^ 64]) ∧ (-4249290049419214848 : ℤ) ≠ 21 ! ∧
      compute 65 ≠ 0 ∧ compute 66 = 0 := by
  have nonneg : (0 : Int64) ≤ 21 := by decide
  have value : (compute 21).toInt = -4249290049419214848 := by decide
  obtain ⟨congruent, whole⟩ := (compute_modEq_factorial 21).1 nonneg
  rw [value] at congruent whole
  refine ⟨nonneg, value, congruent, mt whole.mp (by decide), ?_, ?_⟩
  · exact mt (compute_modEq_factorial 65).2.mp (by decide)
  · exact (compute_modEq_factorial 66).2.mpr (by decide)

end Reckoner.Factorial
