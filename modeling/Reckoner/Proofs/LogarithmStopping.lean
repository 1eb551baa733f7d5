/-
This file says where the sum of a logarithm ends. The loop tests the power of the ratio and not the
term that is made of it, so that it may go on behind a term within the tolerance.
-/

import Reckoner.Proofs.Cutoff
import Reckoner.Proofs.OrderedRounding

namespace Reckoner

namespace Binary64

variable {x y : Float} {value exact : ℚ}

/-- A number whose exact value is no larger than a double is finite and no larger either. -/
theorem KeepsOrder.exists_fraction_of_abs_le (keeps : KeepsOrder x exact)
    (fraction : fraction? y = some value) (within : |exact| ≤ value) :
    ∃ rounded, fraction? x = some rounded ∧ |rounded| ≤ value := by
  obtain ⟨low, high⟩ := abs_le.mp within
  obtain ⟨rounded, read, least, most⟩ :=
    keeps.exists_fraction (fraction_neg fraction) fraction low high
  exact ⟨rounded, read, abs_le.mpr ⟨least, most⟩⟩

theorem fraction_div_infinity (fraction : fraction? x = some value) :
    fraction? (x / infinity) = some 0 := by
  change fraction? (.ofModel (.pack (.div .binary64 x.toModel.unpack infinity.toModel.unpack))) = _
  rw [unpack_infinity]
  rcases exists_unpack fraction with ⟨_, read, _⟩ | ⟨_, _, _, _, read, _⟩ <;> rw [read] <;>
  exact fraction_pack_zero _

/-- A quotient by a count is no larger than the dividend, however large the count is. -/
theorem exists_fraction_div_count (fraction : fraction? x = some value) {count : Nat}
    (positive : 0 < count) :
    ∃ quotient, fraction? (x / (count : Float)) = some quotient ∧ |quotient| ≤ |value| := by
  have one : (1 : ℚ) ≤ count := by exact_mod_cast positive
  have least : 1.0 ≤ (count : Float) := (keepsOrder_natCast positive).least fraction_one one
  rcases infinity_or_fraction_of_zero_le (le_trans_number zero_le_one_double least) with
    infinite | ⟨divisor, divisorFraction, _⟩
  · rw [infinite]
    exact ⟨0, fraction_div_infinity fraction, by rw [abs_zero]; exact abs_nonneg value⟩
  · have large : 1 ≤ divisor := (le_iff fraction_one divisorFraction).mp least
    have keeps := keepsOrder_div fraction divisorFraction (one_pos.trans_le large).ne'
    apply keeps.exists_fraction_of_abs_le (fraction_magnitude fraction)
    rw [abs_div, abs_of_pos (one_pos.trans_le large)]
    exact div_le_self (abs_nonneg value) large

end Binary64

namespace Logarithm

open Binary64

section Terms

variable {α : Type} [Scalar α]

/-- The terms of the series, which are the powers divided by their exponents. -/
def computedTerm (ratio : α) (index : Nat) : α :=
  computedPower ratio index / ((2 * index + 1 : Nat) : α)

theorem computedSum_eq_runningSum (ratio : α) :
    computedSum ratio = runningSum 0 (computedTerm ratio) := rfl

end Terms

variable {x : Float} {value : ℚ}

/-- The ratio is rounded to no more than one. -/
theorem exists_fraction_ratio (fraction : fraction? x = some value) (positive : 0 < value) :
    ∃ rounded, fraction? (ratio x) = some rounded ∧ |rounded| ≤ 1 := by
  have most := abs_add_one_lt_overflow fraction
  rw [abs_of_pos positive] at most
  have below : KeepsOrder (x - 1.0) (value - 1) := by
    rw [sub_eq_add_neg_of_fraction fraction_one, sub_eq_add_neg]
    exact keepsOrder_add fraction (fraction_neg fraction_one)
  have above := keepsOrder_add fraction fraction_one
  obtain ⟨lower, lowerFraction, lowerLeast, lowerMost⟩ :=
    below.exists_fraction (fraction_neg fraction_one) fraction (by linarith) (by linarith)
  obtain ⟨upper, upperFraction, _⟩ :=
    rounds_add fraction fraction_one (abs_lt.mpr ⟨by linarith, by linarith⟩)
  have one : 1 ≤ upper :=
    (le_iff fraction_one upperFraction).mp (above.least fraction_one (by linarith))
  have more : value ≤ upper :=
    (le_iff fraction upperFraction).mp (above.least fraction (by linarith))
  have upperPositive : 0 < upper := by linarith
  apply (keepsOrder_div lowerFraction upperFraction upperPositive.ne').exists_fraction_of_abs_le
    fraction_one
  rw [abs_div, abs_of_pos upperPositive, div_le_one upperPositive]
  exact abs_le.mpr ⟨by linarith, by linarith⟩

theorem exists_fraction_mul_of_abs_le_one {first second : Float} {left right : ℚ}
    (firstFraction : fraction? first = some left) (firstSmall : |left| ≤ 1)
    (secondFraction : fraction? second = some right) (secondSmall : |right| ≤ 1) :
    ∃ rounded, fraction? (first * second) = some rounded ∧ |rounded| ≤ 1 := by
  apply (keepsOrder_mul firstFraction secondFraction).exists_fraction_of_abs_le fraction_one
  rw [abs_mul]
  exact mul_le_one₀ firstSmall (abs_nonneg right) secondSmall

/-- All powers are finite. -/
theorem exists_fraction_computedPower (fraction : fraction? x = some value) (positive : 0 < value)
    (index : Nat) :
    ∃ power, fraction? (computedPower (ratio x) index) = some power ∧ |power| ≤ 1 := by
  obtain ⟨rounded, read, small⟩ := exists_fraction_ratio fraction positive
  obtain ⟨square, squareRead, squareSmall⟩ :=
    exists_fraction_mul_of_abs_le_one read small read small
  induction index with
  | zero => exact ⟨rounded, read, small⟩
  | succ index ih =>
      obtain ⟨power, powerRead, powerSmall⟩ := ih
      exact exists_fraction_mul_of_abs_le_one powerRead powerSmall squareRead squareSmall

/-- A term is no larger than its power. -/
theorem magnitude_computedTerm_le (fraction : fraction? x = some value) (positive : 0 < value)
    (index : Nat) :
    Scalar.magnitude (computedTerm (ratio x) index) ≤
      Scalar.magnitude (computedPower (ratio x) index) := by
  obtain ⟨power, read, _⟩ := exists_fraction_computedPower fraction positive index
  obtain ⟨term, termRead, small⟩ :=
    exists_fraction_div_count read (Nat.zero_lt_succ (2 * index))
  exact (le_iff (fraction_magnitude termRead) (fraction_magnitude read)).mpr small

/-- The logarithm with so many terms. A notice comes with it if no term was left out before the
limit. -/
def endedAfter (x : Float) (limit count : Nat) : Approximation Float :=
  ⟨2 * runningSum 0 (computedTerm (ratio x)) count,
    if count < limit then [] else [⟨.logarithm, x, limit⟩]⟩

theorem endedAfter_eq_iff {limit count more : Nat} (le : count ≤ more) (within : more ≤ limit) :
    endedAfter x limit more = endedAfter x limit count ↔
      count = more ∨ more < limit ∧ (2 : Float) * runningSum 0 (computedTerm (ratio x)) count =
        2 * runningSum 0 (computedTerm (ratio x)) more := by
  constructor
  · intro same
    obtain ⟨sums, notices⟩ := Approximation.mk.inj same
    rcases within.lt_or_eq with early | rfl
    · exact .inr ⟨early, sums.symm⟩
    · refine .inl (le.antisymm (not_lt.mp fun less => ?_))
      rw [if_neg (lt_irrefl more), if_pos less] at notices
      contradiction
  · rintro (rfl | ⟨early, sums⟩)
    · rfl
    · rw [endedAfter, endedAfter, sums, if_pos early, if_pos (le.trans_lt early)]

theorem approximate_eq_endedAfter (entered : 0.0 < x ∧ x.isFinite) {tolerance : Float}
    {limit count : Nat}
    (isEnd : Run.IsEnd (fun index => Scalar.magnitude (computedPower (ratio x) index) ≤ tolerance)
      limit count) :
    approximate ⟨tolerance, limit⟩ x = .ok (endedAfter x limit count) := by
  rw [approximate_of_isEnd (entered_of_pos entered).2 entered.2 isEnd, computedSum_eq_runningSum,
    endedAfter]
  split
  · rfl
  · next late =>
      obtain rfl : count = limit := isEnd.within.antisymm (not_lt.mp late)
      rfl

/-- The sum ends before the first term within the tolerance, and there is a notice if none of the
terms below the limit is. -/
def EndsBeforeSmallTerm (series : Series Float) (x : Float) : Prop :=
  ∃ count, Run.IsEnd
      (fun index => Scalar.magnitude (computedTerm (ratio x) index) ≤ series.tolerance)
      series.limit count ∧
    approximate series x = .ok (endedAfter x series.limit count)

/-- The sum ends before the first term whose power is within the tolerance, and not earlier than
before the first term that is so itself. It ends right there if the two are the same, or if those
from the one to the other do not change the sum and the limit is not reached. -/
theorem approximate_ends_before_small_power (positive : 0.0 < x) (finite : x.isFinite)
    (series : Series Float) :
    ∃ terms powers,
      Run.IsEnd (fun index => Scalar.magnitude (computedTerm (ratio x) index) ≤ series.tolerance)
        series.limit terms ∧
      Run.IsEnd (fun index => Scalar.magnitude (computedPower (ratio x) index) ≤ series.tolerance)
        series.limit powers ∧
      terms ≤ powers ∧ approximate series x = .ok (endedAfter x series.limit powers) ∧
      (EndsBeforeSmallTerm series x ↔
        terms = powers ∨ powers < series.limit ∧
          (2 : Float) * runningSum 0 (computedTerm (ratio x)) terms =
            2 * runningSum 0 (computedTerm (ratio x)) powers) := by
  obtain ⟨value, fraction⟩ := exists_fraction finite
  have above : 0 < value := (lt_iff fraction_zero fraction).mp positive
  obtain ⟨terms, termsEnd⟩ := Run.exists_isEnd
    (fun index => Scalar.magnitude (computedTerm (ratio x) index) ≤ series.tolerance) series.limit
  obtain ⟨powers, powersEnd⟩ := Run.exists_isEnd
    (fun index => Scalar.magnitude (computedPower (ratio x) index) ≤ series.tolerance) series.limit
  have notEarlier : terms ≤ powers := termsEnd.le_of_imp powersEnd fun index small =>
    le_trans_number (magnitude_computedTerm_le fraction above index) small
  have approximated : approximate series x = .ok (endedAfter x series.limit powers) :=
    approximate_eq_endedAfter ⟨positive, finite⟩ powersEnd
  refine ⟨terms, powers, termsEnd, powersEnd, notEarlier, approximated, ?_⟩
  rw [← endedAfter_eq_iff notEarlier powersEnd.within]
  constructor
  · rintro ⟨count, isEnd, same⟩
    rw [← isEnd.unique termsEnd]
    exact Except.ok.inj (approximated.symm.trans same)
  · intro same
    exact ⟨terms, termsEnd, approximated.trans (congrArg Except.ok same)⟩

set_option maxRecDepth 1024 in
/-- The second term and its power are both within the tolerance, so that the sum is the first
term. -/
theorem approximate_ends_before_small_power_three :
    (0.0 : Float) < 3.0 ∧ (3.0 : Float).isFinite ∧
      approximate ⟨0.3, 1000⟩ (3.0 : Float) = .ok ⟨1.0, []⟩ ∧
      EndsBeforeSmallTerm ⟨0.3, 1000⟩ 3.0 := by
  have positive : (0.0 : Float) < 3.0 := by decide
  have finite : (3.0 : Float).isFinite := by decide
  have first : ¬Scalar.magnitude (computedTerm (ratio 3.0) 0) ≤ (0.3 : Float) := by decide
  have second : Scalar.magnitude (computedTerm (ratio 3.0) 1) ≤ (0.3 : Float) := by decide
  have firstPower : ¬Scalar.magnitude (computedPower (ratio 3.0) 0) ≤ (0.3 : Float) := by decide
  have secondPower : Scalar.magnitude (computedPower (ratio 3.0) 1) ≤ (0.3 : Float) := by decide
  have summed : endedAfter 3.0 1000 1 = ⟨1.0, []⟩ := by
    rw [endedAfter, if_pos (by decide)]
    exact congrArg (Approximation.mk · []) (Float.toBits_inj.mp (by decide))
  obtain ⟨terms, powers, termsEnd, powersEnd, _, approximated, documented⟩ :=
    approximate_ends_before_small_power positive finite ⟨0.3, 1000⟩
  obtain rfl : terms = 1 :=
    termsEnd.unique (Run.IsEnd.succ (Run.isEnd_zero second) first)
  obtain rfl : powers = 1 :=
    powersEnd.unique (Run.IsEnd.succ (Run.isEnd_zero secondPower) firstPower)
  exact ⟨positive, finite, summed ▸ approximated, documented.mpr (.inl rfl)⟩

set_option maxRecDepth 1024 in
/-- The second term is within the tolerance but its power is not, so that it is added and the limit
is reached. -/
theorem not_endsBeforeSmallTerm :
    (0.0 : Float) < 3.0 ∧ (3.0 : Float).isFinite ∧
      Scalar.magnitude (computedTerm (ratio 3.0) 1) ≤ (0.1 : Float) ∧
      approximate ⟨0.1, 2⟩ (3.0 : Float) =
        .ok ⟨1.0833333333333333, [⟨.logarithm, 3.0, 2⟩]⟩ ∧
      endedAfter 3.0 2 1 = ⟨1.0, []⟩ ∧ ¬EndsBeforeSmallTerm ⟨0.1, 2⟩ 3.0 := by
  have positive : (0.0 : Float) < 3.0 := by decide
  have finite : (3.0 : Float).isFinite := by decide
  have first : ¬Scalar.magnitude (computedTerm (ratio 3.0) 0) ≤ (0.1 : Float) := by decide
  have second : Scalar.magnitude (computedTerm (ratio 3.0) 1) ≤ (0.1 : Float) := by decide
  have firstPower : ¬Scalar.magnitude (computedPower (ratio 3.0) 0) ≤ (0.1 : Float) := by decide
  have secondPower : ¬Scalar.magnitude (computedPower (ratio 3.0) 1) ≤ (0.1 : Float) := by decide
  have documented : endedAfter 3.0 2 1 = ⟨1.0, []⟩ := by
    rw [endedAfter, if_pos (by decide)]
    exact congrArg (Approximation.mk · []) (Float.toBits_inj.mp (by decide))
  have reached : endedAfter 3.0 2 2 = ⟨1.0833333333333333, [⟨.logarithm, 3.0, 2⟩]⟩ := by
    rw [endedAfter, if_neg (by decide)]
    exact congrArg (Approximation.mk · _) (Float.toBits_inj.mp (by decide))
  have powersEnd : Run.IsEnd
      (fun index => Scalar.magnitude (computedPower (ratio 3.0) index) ≤ (0.1 : Float)) 2 2 :=
    .succ (.succ (Run.isEnd_zero_limit _) secondPower) firstPower
  have approximated := approximate_eq_endedAfter ⟨positive, finite⟩ powersEnd
  rw [reached] at approximated
  refine ⟨positive, finite, second, approximated, documented, ?_⟩
  rintro ⟨count, isEnd, same⟩
  obtain rfl : count = 1 := isEnd.unique (Run.IsEnd.succ (Run.isEnd_zero second) first)
  rw [approximated, documented] at same
  exact List.cons_ne_nil _ _ (Approximation.mk.inj (Except.ok.inj same)).2

end Logarithm

end Reckoner
