/-
This file says what the tolerance and the limit make of a series. They choose where its loop ends
and nothing else, which takes no law of arithmetic.
-/

import Reckoner.Approximation.Exponential
import Reckoner.Approximation.Logarithm
import Reckoner.Approximation.SquareRoot
import Reckoner.Approximation.Trigonometry
import Reckoner.Proofs.Comparison
import Reckoner.Proofs.Iteration
import Reckoner.Proofs.Negation

namespace Reckoner

/-- The rounds of a loop have numbers from zero on, and the first that passes the test ends it. A
limit above this round makes no difference, and where all rounds below the limit fail, the loop is
cut off. Where it is not entered nothing depends on the series. -/
structure IsCutOff {β : Type} (entered : Prop) (passes : Float → Nat → Prop) (ended cut : Nat → β)
    (result : Series Float → β) : Prop where
  ends : entered → ∀ tolerance limit round, round < limit → passes tolerance round →
    (∀ earlier < round, ¬passes tolerance earlier) → result ⟨tolerance, limit⟩ = ended round
  agrees : entered → ∀ tolerance limit more, limit ≤ more →
    (∃ round < limit, passes tolerance round) →
      result ⟨tolerance, more⟩ = result ⟨tolerance, limit⟩
  cuts : entered → ∀ tolerance limit, (∀ round < limit, ¬passes tolerance round) →
    result ⟨tolerance, limit⟩ = cut limit
  skips : ¬entered → ∀ series other, result series = result other

section CutOff

variable {β : Type} {entered : Prop} {passes : Float → Nat → Prop} {ended cut : Nat → β}
  {result : Series Float → β}

/-- It is enough to know where the loop ends, of which there is one place for each limit. -/
theorem IsCutOff.of_isEnd
    (ends : entered → ∀ tolerance limit round, Run.IsEnd (passes tolerance) limit round →
      result ⟨tolerance, limit⟩ = if round < limit then ended round else cut limit)
    (skips : ¬entered → ∀ series other, result series = result other) :
    IsCutOff entered passes ended cut result where
  ends enter tolerance limit round early passed earlier := by
    rw [ends enter tolerance limit round ⟨early.le, fun _ => passed, earlier⟩, if_pos early]
  agrees enter tolerance limit more le passing := by
    classical
    obtain ⟨early, passed⟩ := Nat.find_spec passing
    have isEnd : Run.IsEnd (passes tolerance) limit (Nat.find passing) :=
      ⟨early.le, fun _ => passed, fun index less passes =>
        Nat.find_min passing less ⟨less.trans early, passes⟩⟩
    rw [ends enter tolerance limit _ isEnd, ends enter tolerance more _ (isEnd.of_lt early le),
      if_pos early, if_pos (early.trans_le le)]
  cuts enter tolerance limit failed := by
    have isEnd : Run.IsEnd (passes tolerance) limit limit :=
      ⟨le_rfl, fun less => absurd less (lt_irrefl limit), failed⟩
    rw [ends enter tolerance limit limit isEnd, if_neg (lt_irrefl limit)]
  skips := skips

/-- What is made of the results changes nothing about where they come from. -/
theorem IsCutOff.map {γ : Type} (f : β → γ) (cutOff : IsCutOff entered passes ended cut result) :
    IsCutOff entered passes (fun round => f (ended round)) (fun limit => f (cut limit))
      fun series => f (result series) where
  ends enter tolerance limit round early passed earlier :=
    congrArg f (cutOff.ends enter tolerance limit round early passed earlier)
  agrees enter tolerance limit more le passing :=
    congrArg f (cutOff.agrees enter tolerance limit more le passing)
  cuts enter tolerance limit failed := congrArg f (cutOff.cuts enter tolerance limit failed)
  skips skipped series other := congrArg f (cutOff.skips skipped series other)

end CutOff

section Sequences

variable {α : Type} [Scalar α]

/-- The terms are added one by one, in their order, to what is there at first. -/
def runningSum (start : α) (terms : Nat → α) : Nat → α
  | 0 => start
  | count + 1 => runningSum start terms count + terms count

/-- The factors are multiplied one by one, in their order, with what is there at first. -/
def runningProduct (start : α) (factors : Nat → α) : Nat → α
  | 0 => start
  | count + 1 => runningProduct start factors count * factors count

theorem isEnd_decide {test : Nat → Prop} [DecidablePred test] {limit count : Nat}
    (isEnd : Run.IsEnd test limit count) :
    Run.IsEnd (fun index => decide (test index) = true) limit count := by
  simpa only [decide_eq_true_iff] using isEnd

end Sequences

namespace Binary64

variable {x : Float}

/-- A finite double above zero passes the guards in front of a loop, and no other does. -/
theorem entered_of_pos (entered : 0.0 < x ∧ x.isFinite) : ¬x < 0 ∧ ¬x ≤ 0 := by
  obtain ⟨value, fraction⟩ := exists_fraction entered.2
  have positive : 0 < value := (lt_iff fraction_zero fraction).mp entered.1
  exact ⟨mt (lt_iff fraction fraction_zero).mp positive.not_gt,
    mt (le_iff fraction fraction_zero).mp positive.not_ge⟩

/-- A double that does not enter a loop is stopped by one of the guards. -/
theorem skipped_of_not_pos (skipped : ¬(0.0 < x ∧ x.isFinite)) : x ≤ 0 ∨ x.isFinite = false := by
  by_cases finite : x.isFinite
  · obtain ⟨value, fraction⟩ := exists_fraction finite
    have nonpos : ¬0 < value := fun positive =>
      skipped ⟨(lt_iff fraction_zero fraction).mpr positive, finite⟩
    exact .inl ((le_iff fraction fraction_zero).mpr (not_lt.mp nonpos))
  · exact .inr (eq_false_of_ne_true finite)

end Binary64

namespace SquareRoot

section Guesses

variable {α : Type} [Scalar α] {x tolerance : α} {limit round : Nat}

/-- The number itself is the first guess, and each next one is the mean of the guess before it and
the quotient by that guess. -/
def guess (x : α) : Nat → α
  | 0 => x
  | count + 1 => (guess x count + x / guess x count) / (2 : Nat)

/-- The step of the loop leads from each guess to the next. -/
theorem improve_guess (x : α) (count : Nat) : improve x (guess x count) = guess x (count + 1) := rfl

/-- The loop returns the guess after the one that passes the test, or the last one with a notice. -/
theorem approximate_of_isEnd (nonneg : ¬x < 0) (above : ¬x ≤ 0) (finite : Scalar.isFinite x)
    (isEnd : Run.IsEnd
      (fun round => Scalar.magnitude (guess x round - guess x (round + 1)) < tolerance)
      limit round) :
    approximate ⟨tolerance, limit⟩ x =
      if round < limit then .ok (.exact (guess x (round + 1)))
      else .ok ⟨guess x limit, [⟨.squareRoot, x, limit⟩]⟩ := by
  have run : Run.untilClose (fun guess next => Scalar.magnitude (guess - next) < tolerance)
      (fun _ guess => improve x guess) limit 0 x =
        if round < limit then ⟨guess x (round + 1), true⟩ else ⟨guess x limit, false⟩ :=
    Run.untilClose_of_isEnd _ (guess x) (improve_guess x) (isEnd_decide isEnd)
  have entered : ¬(decide (x ≤ 0) || !Scalar.isFinite x) = true := by simp [above, finite]
  simp only [approximate, if_neg nonneg, if_neg entered, run]
  split <;> rfl

/-- Zero and what is not finite are their own roots. -/
theorem approximate_of_skipped (skipped : x ≤ 0 ∨ Scalar.isFinite x = false) (series : Series α) :
    approximate series x = if x < 0 then .error .negativeRadicand else .ok (.exact x) := by
  have exact : (decide (x ≤ 0) || !Scalar.isFinite x) = true := by simpa using skipped
  unfold approximate
  rw [if_pos exact]

end Guesses

open Binary64

/-- The guesses of a square root are cut off by its tolerance and its limit. -/
theorem isCutOff (x : Float) :
    IsCutOff (0.0 < x ∧ x.isFinite)
      (fun tolerance round => Scalar.magnitude (guess x round - guess x (round + 1)) < tolerance)
      (fun round => .ok (.exact (guess x (round + 1))))
      (fun limit => .ok ⟨guess x limit, [⟨.squareRoot, x, limit⟩]⟩)
      (approximate · x) := by
  refine .of_isEnd (fun entered tolerance limit round isEnd => ?_) fun skipped series other => ?_
  · obtain ⟨nonneg, above⟩ := entered_of_pos entered
    exact approximate_of_isEnd nonneg above entered.2 isEnd
  · have exact := approximate_of_skipped (skipped_of_not_pos skipped)
    rw [exact, exact]

end SquareRoot

namespace Exponential

section Sums

variable {α : Type} [Scalar α] {x tolerance : α} {limit round : Nat}

/-- The leading term has the index zero. -/
def computedTerm (x : α) : Nat → α :=
  runningProduct 1 fun index => x / ((index + 1 : Nat) : α)

/-- The sum of so many terms after the leading one. -/
def computedSum (x : α) : Nat → α :=
  runningSum 1 fun index => computedTerm x (index + 1)

def computed (x : α) (count : Nat) : PartialSum α := ⟨computedSum x count, computedTerm x count⟩

/-- The rounds of the loop have numbers from one on. -/
theorem addTerm_computed (x : α) (index : Nat) :
    addTerm x (1 + index) (computed x index) = computed x (index + 1) := by
  rw [Nat.add_comm]
  rfl

/-- The loop adds the term that passes the test, and leaves a notice if there is none. -/
theorem sum_of_isEnd
    (isEnd : Run.IsEnd (fun round => Scalar.magnitude (computedTerm x (round + 1)) ≤ tolerance)
      limit round) :
    sum ⟨tolerance, limit⟩ x =
      if round < limit then .exact (computedSum x (round + 1))
      else ⟨computedSum x limit, [⟨.exponential, x, limit⟩]⟩ := by
  have run : Run.untilClose (fun _ next => Scalar.magnitude next.term ≤ tolerance) (addTerm x)
      limit 1 ⟨1, 1⟩ =
        if round < limit then ⟨computed x (round + 1), true⟩ else ⟨computed x limit, false⟩ :=
    Run.untilClose_of_isEnd _ (computed x) (addTerm_computed x) (isEnd_decide isEnd)
  simp only [sum, run]
  split <;> rfl

/-- A negative number has the reciprocal of the sum of its opposite. -/
def ofSum (x sum : α) : α := if x < 0 then 1 / sum else sum

/-- The sign of a number is left to the end. -/
theorem approximate_eq_map (number : Scalar.isNumber x) (series : Series α) :
    approximate series x = (sum series (Scalar.magnitude x)).map (ofSum x) := by
  have entered : ¬(!Scalar.isNumber x) = true := by
    rw [number]
    exact Bool.false_ne_true
  refine (if_neg entered).trans ?_
  unfold Scalar.magnitude ofSum
  split <;> rfl

end Sums

open Binary64

/-- The sums of an exponential are cut off by its tolerance and its limit. -/
theorem isCutOff (x : Float) :
    IsCutOff (x.isNaN = false)
      (fun tolerance round =>
        Scalar.magnitude (computedTerm (Scalar.magnitude x) (round + 1)) ≤ tolerance)
      (fun round => .exact (ofSum x (computedSum (Scalar.magnitude x) (round + 1))))
      (fun limit => ⟨ofSum x (computedSum (Scalar.magnitude x) limit),
        [⟨.exponential, Scalar.magnitude x, limit⟩]⟩)
      (approximate · x) := by
  refine .of_isEnd (fun number tolerance limit round isEnd => ?_) fun skipped series other => ?_
  · rw [approximate_eq_map ((isNumber_iff x).mpr number), sum_of_isEnd isEnd]
    split <;> rfl
  · have undefined : (!Scalar.isNumber x) = true := by
      rw [Bool.not_eq_true', ← Bool.not_eq_true]
      exact mt (isNumber_iff x).mp skipped
    have exact (series : Series Float) : approximate series x = .exact x := if_pos undefined
    rw [exact, exact]

end Exponential

namespace Logarithm

section Sums

variable {α : Type} [Scalar α] {x tolerance : α} {limit round : Nat}

/-- The odd powers of the ratio. -/
def computedPower (ratio : α) : Nat → α := runningProduct ratio fun _ => ratio * ratio

/-- The sum of so many terms. -/
def computedSum (ratio : α) : Nat → α :=
  runningSum 0 fun index => computedPower ratio index / ((2 * index + 1 : Nat) : α)

def computed (ratio : α) (count : Nat) : PartialSum α :=
  ⟨computedSum ratio count, computedPower ratio count⟩

/-- The rounds of the loop have numbers from zero on. -/
theorem addTerm_computed (ratio : α) (index : Nat) :
    addTerm (ratio * ratio) (0 + index) (computed ratio index) = computed ratio (index + 1) := by
  rw [Nat.zero_add]
  rfl

/-- The loop returns the sum of the powers before the one that passes the test, or the last sum with
a notice. -/
theorem approximate_of_isEnd (above : ¬x ≤ 0) (finite : Scalar.isFinite x)
    (isEnd : Run.IsEnd (fun round => Scalar.magnitude (computedPower (ratio x) round) ≤ tolerance)
      limit round) :
    approximate ⟨tolerance, limit⟩ x =
      if round < limit then .ok (.exact (((2 : Nat) : α) * computedSum (ratio x) round))
      else .ok ⟨((2 : Nat) : α) * computedSum (ratio x) limit, [⟨.logarithm, x, limit⟩]⟩ := by
  have run : Run.untilSettled (fun reached => Scalar.magnitude reached.term ≤ tolerance)
      (addTerm (ratio x * ratio x)) limit 0 ⟨0, ratio x⟩ =
        ⟨computed (ratio x) round, decide (round < limit)⟩ :=
    Run.untilSettled_of_isEnd _ (computed (ratio x)) (addTerm_computed _) (isEnd_decide isEnd)
  simp only [approximate, if_neg above, finite, run]
  by_cases early : round < limit
  · rw [if_pos early, decide_eq_true early]
    rfl
  · obtain rfl : round = limit := isEnd.within.antisymm (not_lt.mp early)
    rw [if_neg early, decide_eq_false early]
    rfl

/-- What is not finite is its own logarithm. -/
theorem approximate_of_skipped (skipped : x ≤ 0 ∨ Scalar.isFinite x = false) (series : Series α) :
    approximate series x = if x ≤ 0 then .error .nonPositiveLogarithm else .ok (.exact x) := by
  unfold approximate
  split
  · rfl
  · next above =>
    rw [skipped.resolve_left above]
    rfl

end Sums

open Binary64

/-- The sums of a logarithm are cut off by its tolerance and its limit. -/
theorem isCutOff (x : Float) :
    IsCutOff (0.0 < x ∧ x.isFinite)
      (fun tolerance round => Scalar.magnitude (computedPower (ratio x) round) ≤ tolerance)
      (fun round => .ok (.exact (2 * computedSum (ratio x) round)))
      (fun limit => .ok ⟨2 * computedSum (ratio x) limit, [⟨.logarithm, x, limit⟩]⟩)
      (approximate · x) := by
  refine .of_isEnd (fun entered tolerance limit round isEnd => ?_) fun skipped series other => ?_
  · exact approximate_of_isEnd (entered_of_pos entered).2 entered.2 isEnd
  · have exact := approximate_of_skipped (skipped_of_not_pos skipped)
    rw [exact, exact]

end Logarithm

/-- An angle that passes all three tests is not turned at all. -/
theorem Angle.reduce?_of_within {α : Type} [Scalar α] {x : α}
    (near : ¬Angle.halfTurn < Scalar.magnitude x) (most : ¬Angle.halfTurn < x)
    (least : ¬x < -Angle.halfTurn) : Angle.reduce? x = some x := by
  rw [reduce?, nearby, if_neg near, lower?, if_neg most, Option.bind_some, raise?, if_neg least]

namespace Trigonometry

section Sums

variable {α : Type} [Scalar α] {tolerance start : α} {factor : Nat → α} {first limit round : Nat}

/-- A term is made from the one before it by a factor. The factors have numbers from `first` on. -/
def computedTerm (factor : Nat → α) (first : Nat) (start : α) : Nat → α :=
  runningProduct start fun index => factor (first + index)

/-- The sum of so many terms. -/
def computedSum (factor : Nat → α) (first : Nat) (start : α) : Nat → α :=
  runningSum 0 (computedTerm factor first start)

def computed (factor : Nat → α) (first : Nat) (start : α) (count : Nat) : PartialSum α :=
  ⟨computedSum factor first start count, computedTerm factor first start count⟩

/-- The loop leaves out the term that passes the test. -/
theorem sum_of_isEnd
    (isEnd : Run.IsEnd
      (fun round => Scalar.magnitude (computedTerm factor first start round) ≤ tolerance)
      limit round) :
    sum ⟨tolerance, limit⟩ factor first start =
      ⟨computed factor first start round, decide (round < limit)⟩ :=
  Run.untilSettled_of_isEnd _ (computed factor first start) (fun _ => rfl) (isEnd_decide isEnd)

theorem sum_state_of_isEnd
    (isEnd : Run.IsEnd
      (fun round => Scalar.magnitude (computedTerm factor first start round) ≤ tolerance)
      limit round) :
    (sum ⟨tolerance, limit⟩ factor first start).state.sum =
      if round < limit then computedSum factor first start round
      else computedSum factor first start limit := by
  rw [sum_of_isEnd isEnd]
  split
  · rfl
  · next late =>
      obtain rfl : round = limit := isEnd.within.antisymm (not_lt.mp late)
      rfl

end Sums

section Terms

variable {α : Type} [Scalar α]

/-- The terms of a sine. Their factors have numbers from one on. -/
def sineTerm (angle : α) : Nat → α :=
  runningProduct angle fun index =>
    -angle * angle / ((2 : Nat) * ((index + 1 : Nat) : α) *
      ((2 : Nat) * ((index + 1 : Nat) : α) + 1))

/-- The terms of a cosine. Their factors have numbers from zero on. -/
def cosineTerm (angle : α) : Nat → α :=
  runningProduct 1 fun index =>
    -angle * angle / (((2 : Nat) * (index : α) + 1) * ((2 : Nat) * (index : α) + (2 : Nat)))

/-- The terms of the loop are those of the sine. -/
theorem computedTerm_sine (angle : α) :
    computedTerm (sineFactor angle) 1 angle = sineTerm angle := by
  unfold computedTerm sineTerm
  congr 1
  funext index
  rw [sineFactor, Nat.add_comm]

/-- The terms of the loop are those of the cosine. -/
theorem computedTerm_cosine (angle : α) :
    computedTerm (cosineFactor angle) 0 1 = cosineTerm angle := by
  unfold computedTerm cosineTerm
  congr 1
  funext index
  rw [cosineFactor, Nat.zero_add]

end Terms

variable {x angle : Float}

/-- A function of the reduced angle has its value there, unless the angle was not finite. -/
theorem getD_of_reduce (reduced : Angle.reduce? x = some angle) (f : Float → Float) :
    (if x.isFinite then (Angle.reduce? x).map f else none).getD Binary64.nan =
      if x.isFinite then f angle else Binary64.nan := by
  rw [reduced]
  split <;> rfl

theorem sine_of_reduce (reduced : Angle.reduce? x = some angle) (series : Series Float) :
    sine series x =
      if x.isFinite then (sum series (sineFactor angle) 1 angle).state.sum else Binary64.nan :=
  getD_of_reduce reduced fun angle => (sum series (sineFactor angle) 1 angle).state.sum

theorem cosine_of_reduce (reduced : Angle.reduce? x = some angle) (series : Series Float) :
    cosine series x =
      if x.isFinite then (sum series (cosineFactor angle) 0 1).state.sum else Binary64.nan :=
  getD_of_reduce reduced fun angle => (sum series (cosineFactor angle) 0 1).state.sum

/-- What a sine and a cosine have in common is the loop, for any factors, any number of the first
of them and any first term. -/
theorem isCutOff_sum {factor : Nat → Float} {first : Nat} {start : Float} {terms : Nat → Float}
    {result : Series Float → Float} (computed : computedTerm factor first start = terms)
    (same : ∀ series, result series =
      if x.isFinite then (sum series factor first start).state.sum else Binary64.nan) :
    IsCutOff x.isFinite (fun tolerance round => Scalar.magnitude (terms round) ≤ tolerance)
      (fun round => .exact (runningSum 0 terms round))
      (fun limit => .exact (runningSum 0 terms limit))
      (fun series => Approximation.exact (result series)) := by
  subst computed
  refine .map Approximation.exact (.of_isEnd (fun finite tolerance limit round isEnd => ?_)
    fun skipped series other => ?_)
  · rw [same, if_pos finite]
    exact sum_state_of_isEnd isEnd
  · rw [same, same, if_neg skipped, if_neg skipped]

end Trigonometry

/-- The tolerance and the limit of an approximation choose where its loop ends, and the values there
form a sequence that neither of them changes. A root, an exponential and a logarithm that are cut
off come with one notice, and a sine and a cosine with none. -/
theorem isCutOff_approximations (x : Float) :
    IsCutOff (0.0 < x ∧ x.isFinite)
      (fun tolerance round => Scalar.magnitude
        (SquareRoot.guess x round - SquareRoot.guess x (round + 1)) < tolerance)
      (fun round => .ok (.exact (SquareRoot.guess x (round + 1))))
      (fun limit => .ok ⟨SquareRoot.guess x limit, [⟨.squareRoot, x, limit⟩]⟩)
      (SquareRoot.approximate · x) ∧
    IsCutOff (x.isNaN = false)
      (fun tolerance round => Scalar.magnitude
        (Exponential.computedTerm (Scalar.magnitude x) (round + 1)) ≤ tolerance)
      (fun round => .exact
        (Exponential.ofSum x (Exponential.computedSum (Scalar.magnitude x) (round + 1))))
      (fun limit => ⟨Exponential.ofSum x (Exponential.computedSum (Scalar.magnitude x) limit),
        [⟨.exponential, Scalar.magnitude x, limit⟩]⟩)
      (Exponential.approximate · x) ∧
    IsCutOff (0.0 < x ∧ x.isFinite)
      (fun tolerance round => Scalar.magnitude
        (Logarithm.computedPower ((x - 1) / (x + 1)) round) ≤ tolerance)
      (fun round => .ok (.exact (2 * Logarithm.computedSum ((x - 1) / (x + 1)) round)))
      (fun limit => .ok ⟨2 * Logarithm.computedSum ((x - 1) / (x + 1)) limit,
        [⟨.logarithm, x, limit⟩]⟩)
      (Logarithm.approximate · x) ∧
    ∀ angle, Angle.reduce? x = some angle →
      IsCutOff x.isFinite
        (fun tolerance round => Scalar.magnitude (Trigonometry.sineTerm angle round) ≤ tolerance)
        (fun round => .exact (runningSum 0 (Trigonometry.sineTerm angle) round))
        (fun limit => .exact (runningSum 0 (Trigonometry.sineTerm angle) limit))
        (fun series => Approximation.exact (Trigonometry.sine series x)) ∧
      IsCutOff x.isFinite
        (fun tolerance round => Scalar.magnitude (Trigonometry.cosineTerm angle round) ≤ tolerance)
        (fun round => .exact (runningSum 0 (Trigonometry.cosineTerm angle) round))
        (fun limit => .exact (runningSum 0 (Trigonometry.cosineTerm angle) limit))
        (fun series => Approximation.exact (Trigonometry.cosine series x)) :=
  ⟨SquareRoot.isCutOff x, Exponential.isCutOff x, Logarithm.isCutOff x, fun angle reduced =>
    ⟨Trigonometry.isCutOff_sum (Trigonometry.computedTerm_sine angle)
        (Trigonometry.sine_of_reduce reduced),
      Trigonometry.isCutOff_sum (Trigonometry.computedTerm_cosine angle)
        (Trigonometry.cosine_of_reduce reduced)⟩⟩

/-- The guess after one step, the first term of a logarithm and the first term of a sine are cut
off. The other sums are ended by their second term, which only the exponential takes with it. -/
theorem isCutOff_approximations_half :
    Angle.reduce? (0.5 : Float) = some 0.5 ∧
      SquareRoot.approximate ⟨1e-10, 1⟩ (0.5 : Float) = .ok ⟨0.75, [⟨.squareRoot, 0.5, 1⟩]⟩ ∧
      (∀ limit, 1 ≤ limit → Exponential.approximate ⟨1.0, limit⟩ (0.5 : Float) = .exact 1.5) ∧
      Logarithm.approximate ⟨1e-15, 1⟩ (0.5 : Float) =
        .ok ⟨-0.6666666666666666, [⟨.logarithm, 0.5, 1⟩]⟩ ∧
      (∀ limit, 2 ≤ limit →
        Logarithm.approximate ⟨0.1, limit⟩ (0.5 : Float) = .ok (.exact (-0.6666666666666666))) ∧
      Trigonometry.sine ⟨1e-15, 1⟩ 0.5 = 0.5 ∧
      (∀ more, 2 ≤ more → Trigonometry.sine ⟨0.1, more⟩ 0.5 = Trigonometry.sine ⟨0.1, 2⟩ 0.5) ∧
      ∀ limit, 2 ≤ limit → Trigonometry.cosine ⟨0.2, limit⟩ 0.5 = 1.0 := by
  have reduced : Angle.reduce? (0.5 : Float) = some 0.5 :=
    Angle.reduce?_of_within (by decide +kernel) (by decide +kernel) (by decide +kernel)
  obtain ⟨root, exponential, logarithm, trigonometric⟩ := isCutOff_approximations 0.5
  obtain ⟨sine, cosine⟩ := trigonometric 0.5 reduced
  have finite : (0.5 : Float).isFinite := by decide +kernel
  have entered : (0.0 : Float) < 0.5 ∧ (0.5 : Float).isFinite := ⟨by decide +kernel, finite⟩
  have guess : SquareRoot.guess (0.5 : Float) 1 = 0.75 := Float.toBits_inj.mp (by decide +kernel)
  have summed : Exponential.ofSum 0.5 (Exponential.computedSum (Scalar.magnitude 0.5) 1) =
      (1.5 : Float) := Float.toBits_inj.mp (by decide +kernel)
  have doubled : 2 * Logarithm.computedSum ((0.5 - 1) / (0.5 + 1)) 1 =
      (-0.6666666666666666 : Float) := Float.toBits_inj.mp (by decide +kernel)
  have first : runningSum 0 (Trigonometry.sineTerm 0.5) 1 = (0.5 : Float) :=
    Float.toBits_inj.mp (by decide +kernel)
  have one : runningSum 0 (Trigonometry.cosineTerm 0.5) 1 = (1.0 : Float) :=
    Float.toBits_inj.mp (by decide +kernel)
  refine ⟨reduced, ?_, fun limit some => ?_, ?_, fun limit some => ?_, ?_, fun more le => ?_,
    fun limit some => ?_⟩
  · rw [← guess]
    refine root.cuts entered _ 1 fun round early => ?_
    obtain rfl := Nat.lt_one_iff.mp early
    decide +kernel
  · rw [← summed]
    exact exponential.ends (by decide +kernel) _ limit 0 some (by decide +kernel)
      fun earlier less => absurd less (Nat.not_lt_zero earlier)
  · rw [← doubled]
    refine logarithm.cuts entered _ 1 fun round early => ?_
    obtain rfl := Nat.lt_one_iff.mp early
    decide +kernel
  · rw [← doubled]
    refine logarithm.ends entered _ limit 1 some (by decide +kernel) fun earlier less => ?_
    obtain rfl := Nat.lt_one_iff.mp less
    decide +kernel
  · rw [← first]
    refine congrArg Approximation.value (sine.cuts finite _ 1 fun round early => ?_)
    obtain rfl := Nat.lt_one_iff.mp early
    decide +kernel
  · exact congrArg Approximation.value
      (sine.agrees finite _ 2 more le ⟨1, Nat.one_lt_two, by decide +kernel⟩)
  · rw [← one]
    refine congrArg Approximation.value
      (cosine.ends finite _ limit 1 some (by decide +kernel) fun earlier less => ?_)
    obtain rfl := Nat.lt_one_iff.mp less
    decide +kernel

end Reckoner
