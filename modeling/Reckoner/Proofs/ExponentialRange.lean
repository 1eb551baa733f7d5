/-
This file says in which range the exponentials lie. All terms are at least zero, infinite ones
included, and an infinite term never meets a factor that is zero, so that each sum is a number and
not below the one before it.
-/

import Reckoner.Proofs.Cutoff
import Reckoner.Proofs.OrderedRounding

namespace Reckoner

namespace Binary64

/-- The least double above zero. -/
theorem fraction_least : fraction? 5e-324 = some (2 ^ (-1074 : Int)) := by
  decide +kernel

theorem fraction_wordSize : fraction? 18446744073709551616.0 = some (2 ^ 64) := by
  decide +kernel

/-- A count that a word holds is rounded, but neither to less than one nor to more than there are
words. -/
theorem exists_fraction_count {count : Nat} (positive : 0 < count) (few : count < 2 ^ 64) :
    ∃ value, fraction? (count : Float) = some value ∧ 1 ≤ value ∧ value ≤ 2 ^ 64 :=
  (keepsOrder_natCast positive).exists_fraction fraction_one fraction_wordSize
    (by exact_mod_cast positive) (by exact_mod_cast few.le)

end Binary64

namespace Exponential

open Binary64

section Terms

variable {x : Float} {value : ℚ}

/-- The quotient of a finite number by a count is no larger than the number, and it is not rounded
down to zero where the number is at least one. -/
theorem exists_fraction_quotient (fraction : fraction? x = some value) (nonneg : 0 ≤ value)
    {count : Nat} (positive : 0 < count) (few : count < 2 ^ 64) :
    ∃ quotient, fraction? (x / (count : Float)) = some quotient ∧ 0 ≤ quotient ∧
      quotient ≤ value ∧ (1 ≤ value → 0 < quotient) := by
  obtain ⟨divisor, divisorFraction, least, most⟩ := exists_fraction_count positive few
  have divisorPositive : 0 < divisor := one_pos.trans_le least
  have keeps := keepsOrder_div fraction divisorFraction divisorPositive.ne'
  have below : value / divisor ≤ value := div_le_self nonneg least
  obtain ⟨quotient, read, low, high⟩ := keeps.exists_fraction fraction_zero fraction
    (div_nonneg nonneg divisorPositive.le) below
  refine ⟨quotient, read, low, high, fun large => ?_⟩
  have above : (2 ^ (-1074 : Int) : ℚ) ≤ value / divisor := by
    calc
      _ ≤ (2 : ℚ) ^ (-64 : Int) := zpow_le_zpow_right₀ one_le_two (by norm_num)
      _ = 1 / 2 ^ 64 := by norm_num
      _ ≤ value / divisor := by gcongr
  have passed := (le_iff fraction_least read).mp (keeps.least fraction_least above)
  exact (by positivity : (0 : ℚ) < 2 ^ (-1074 : Int)).trans_le passed

/-- No term is below zero, and none above one where the number is not. -/
theorem computedTerm_bounds (fraction : fraction? x = some value) (nonneg : 0 ≤ value)
    {count : Nat} (few : count < 2 ^ 64) :
    0.0 ≤ computedTerm x count ∧ (value ≤ 1 → computedTerm x count ≤ 1.0) := by
  induction count with
  | zero => exact ⟨zero_le_one_double, fun _ => (le_iff fraction_one fraction_one).mpr le_rfl⟩
  | succ count ih =>
      obtain ⟨below, above⟩ := ih (by omega)
      obtain ⟨quotient, read, low, high, positive⟩ :=
        exists_fraction_quotient fraction nonneg count.succ_pos few
      change 0.0 ≤ computedTerm x count * (x / ((count + 1 : Nat) : Float)) ∧
        (value ≤ 1 → computedTerm x count * (x / ((count + 1 : Nat) : Float)) ≤ 1.0)
      -- A small number keeps the terms finite, and a large one keeps the factors above zero.
      rcases le_or_gt value 1 with small | large
      · obtain ⟨term, termRead, termLow, termHigh⟩ :=
          exists_fraction_between fraction_zero fraction_one below (above small)
        have keeps := keepsOrder_mul termRead read
        exact ⟨keeps.least fraction_zero (mul_nonneg termLow low),
          fun _ => keeps.most fraction_one (mul_le_one₀ termHigh low (high.trans small))⟩
      · exact ⟨zero_le_mul below read (positive large.le), fun small => absurd small large.not_ge⟩

/-- All terms behind the first are infinite where the number is. -/
theorem computedTerm_infinity {count : Nat} (few : count + 1 < 2 ^ 64) :
    computedTerm infinity (count + 1) = infinity := by
  have quotient {count : Nat} (few : count + 1 < 2 ^ 64) :
      infinity / ((count + 1 : Nat) : Float) = infinity := by
    obtain ⟨divisor, divisorFraction, least, _⟩ := exists_fraction_count count.succ_pos few
    exact infinity_div divisorFraction (one_pos.trans_le least)
  induction count with
  | zero =>
      change 1.0 * (infinity / ((0 + 1 : Nat) : Float)) = infinity
      rw [quotient few]
      exact Float.toBits_inj.mp (by decide)
  | succ count ih =>
      change computedTerm infinity (count + 1) * (infinity / ((count + 1 + 1 : Nat) : Float)) = _
      rw [ih (by omega), quotient few]
      exact Float.toBits_inj.mp (by decide)

theorem zero_le_computedTerm (nonneg : 0.0 ≤ x) {count : Nat} (few : count < 2 ^ 64) :
    0.0 ≤ computedTerm x count := by
  rcases infinity_or_fraction_of_zero_le nonneg with rfl | ⟨value, fraction, least⟩
  · cases count with
    | zero => exact zero_le_one_double
    | succ count =>
        rw [computedTerm_infinity few]
        exact nonneg
  · exact (computedTerm_bounds fraction least few).1

theorem computedSum_le_succ (nonneg : 0.0 ≤ x) {count : Nat} (few : count + 1 < 2 ^ 64)
    (least : 1.0 ≤ computedSum x count) : computedSum x count ≤ computedSum x (count + 1) := by
  have sum := le_trans_number zero_le_one_double least
  exact le_add_of_zero_le sum (zero_le_computedTerm nonneg few)

/-- A sum is a number, and no smaller than one. -/
theorem one_le_computedSum (nonneg : 0.0 ≤ x) {count : Nat} (few : count < 2 ^ 64) :
    1.0 ≤ computedSum x count := by
  induction count with
  | zero => exact (le_iff fraction_one fraction_one).mpr le_rfl
  | succ count ih =>
      have least := ih (by omega)
      exact le_trans_number least (computedSum_le_succ nonneg few least)

/-- Further terms do not make a sum smaller. -/
theorem computedSum_mono (nonneg : 0.0 ≤ x) {count more : Nat} (le : count ≤ more)
    (few : more < 2 ^ 64) : computedSum x count ≤ computedSum x more := by
  induction more, le using Nat.le_induction with
  | base => exact le_refl_of_isNaN (isNaN_of_le (one_le_computedSum nonneg few))
  | succ more _ ih =>
      exact le_trans_number (ih (by omega))
        (computedSum_le_succ nonneg few (one_le_computedSum nonneg (by omega)))

end Terms

section Sums

variable {α : Type} [Scalar α]

/-- The sum has a number of terms that does not fall when the limit is raised. -/
theorem exists_count (x tolerance : α) (limit : Nat) :
    ∃ count ≤ limit, (sum ⟨tolerance, limit⟩ x).value = computedSum x count ∧
      ∀ more, limit ≤ more → ∃ later, count ≤ later ∧ later ≤ more ∧
        (sum ⟨tolerance, more⟩ x).value = computedSum x later := by
  have value {limit round : Nat} (isEnd : Run.IsEnd
      (fun round => Scalar.magnitude (computedTerm x (round + 1)) ≤ tolerance) limit round) :
      (sum ⟨tolerance, limit⟩ x).value = computedSum x (min (round + 1) limit) := by
    rw [sum_of_isEnd isEnd]
    split
    · next early => rw [Nat.min_eq_left early]; rfl
    · next late => rw [Nat.min_eq_right (by omega)]
  obtain ⟨round, isEnd⟩ := Run.exists_isEnd _ limit
  refine ⟨_, Nat.min_le_right _ _, value isEnd, fun more le => ?_⟩
  obtain ⟨other, otherEnd⟩ := Run.exists_isEnd _ more
  have later : round ≤ other := isEnd.le_of_le otherEnd le fun _ => id
  exact ⟨_, by omega, Nat.min_le_right _ _, value otherEnd⟩

end Sums

section Values

/-- The reciprocal of a number from one up, which may be infinite, lies between zero and one. -/
theorem one_div_bounds {sum : Float} (large : 1.0 ≤ sum) : 0.0 ≤ 1 / sum ∧ 1 / sum ≤ 1.0 := by
  have nonneg := le_trans_number zero_le_one_double large
  rcases infinity_or_fraction_of_zero_le nonneg with rfl | ⟨value, fraction, _⟩
  · decide
  · have least : 1 ≤ value := (le_iff fraction_one fraction).mp large
    have positive : 0 < value := one_pos.trans_le least
    have keeps := keepsOrder_div fraction_one fraction positive.ne'
    exact ⟨keeps.least fraction_zero (div_nonneg zero_le_one positive.le),
      keeps.most fraction_one ((div_le_one positive).mpr least)⟩

/-- An exponential is a number whatever the tolerance and the limit are. It is at least one where
the argument is not negative, and does not fall when the limit is raised. The exponential of a
negative number lies between zero and one. The limit is a machine word. -/
theorem approximate_range {x : Float} (number : x.isNaN = false) (tolerance : Float) {limit : Nat}
    (few : limit < 2 ^ 64) :
    (approximate ⟨tolerance, limit⟩ x).value.isNaN = false ∧
    (0.0 ≤ x → 1.0 ≤ (approximate ⟨tolerance, limit⟩ x).value ∧
      ∀ more, limit ≤ more → more < 2 ^ 64 →
        (approximate ⟨tolerance, limit⟩ x).value ≤ (approximate ⟨tolerance, more⟩ x).value) ∧
    (x < 0.0 → 0.0 ≤ (approximate ⟨tolerance, limit⟩ x).value ∧
      (approximate ⟨tolerance, limit⟩ x).value ≤ 1.0) := by
  have nonneg := zero_le_magnitude number
  obtain ⟨count, most, value, later⟩ := exists_count (Scalar.magnitude x) tolerance limit
  have approximated (limit : Nat) : (approximate ⟨tolerance, limit⟩ x).value =
      ofSum x (sum ⟨tolerance, limit⟩ (Scalar.magnitude x)).value := by
    rw [approximate_eq_map ((isNumber_iff x).mpr number)]
    rfl
  have large := one_le_computedSum nonneg (most.trans_lt few)
  have fromZero (le : 0.0 ≤ x) (sum : Float) : ofSum x sum = sum :=
    if_neg (not_lt_zero_of_zero_le le)
  have belowZero (negative : x < 0.0) (sum : Float) : ofSum x sum = 1 / sum := if_pos negative
  rw [approximated limit, value]
  refine ⟨?_, fun le => ⟨?_, fun more leMore fewMore => ?_⟩, fun negative => ?_⟩
  · rcases lt_zero_or_zero_le number with negative | le
    · rw [belowZero negative]
      exact isNaN_of_le (one_div_bounds large).1
    · rw [fromZero le]
      exact isNaN_of_le large
  · rw [fromZero le]
    exact large
  · obtain ⟨countLater, leLater, mostLater, valueLater⟩ := later more leMore
    rw [approximated more, valueLater, fromZero le, fromZero le]
    exact computedSum_mono nonneg leLater (mostLater.trans_lt fewMore)
  · rw [belowZero negative]
    exact one_div_bounds large

/-- Neither a tolerance that is no number nor an infinite argument leads to a result that is no
number. -/
theorem approximate_range_nan :
    (infinity.isNaN = false ∧ 0.0 ≤ infinity ∧ 3 < 2 ^ 64 ∧ 5 < 2 ^ 64 ∧
      (approximate ⟨nan, 3⟩ infinity).value.isNaN = false ∧
      1.0 ≤ (approximate ⟨nan, 3⟩ infinity).value ∧
      (approximate ⟨nan, 3⟩ infinity).value ≤ (approximate ⟨nan, 5⟩ infinity).value) ∧
    ((-800 : Float).isNaN = false ∧ (-800 : Float) < 0.0 ∧
      0.0 ≤ (approximate ⟨nan, 3⟩ (-800)).value ∧ (approximate ⟨nan, 3⟩ (-800)).value ≤ 1.0) := by
  have number : infinity.isNaN = false := by decide +kernel
  have nonneg : 0.0 ≤ infinity := by decide +kernel
  have otherNumber : (-800 : Float).isNaN = false := by decide +kernel
  have negative : (-800 : Float) < 0.0 := by decide +kernel
  obtain ⟨value, fromZero, _⟩ := approximate_range number nan (by decide : 3 < 2 ^ 64)
  obtain ⟨_, _, belowZero⟩ := approximate_range otherNumber nan (by decide : 3 < 2 ^ 64)
  obtain ⟨least, grows⟩ := fromZero nonneg
  exact ⟨⟨number, nonneg, by decide, by decide, value, least, grows 5 (by decide) (by decide)⟩,
    otherNumber, negative, belowZero negative⟩

end Values

end Exponential

end Reckoner
