/-
This file shows that an evaluation goes on where that of its first tokens ends. The calls of the
others come after theirs, unless a failure has come first.
-/

import Mathlib.Control.Monad.Writer
import Reckoner.Proofs.Accounting

namespace Reckoner

/-- An evaluation that reaches its end tells how many values it is left with there. -/
def leftover? : Except EvaluationError Float → Option Nat
  | .ok _ => some 1
  | .error (.invalidExpression .empty) => some 0
  | .error (.invalidExpression (.leftoverValues count)) => some count
  | .error _ => none

@[simp] theorem leftover?_finish (values : List Float) :
    leftover? (ReversePolish.finish values) = some values.length := by
  match values with
  | [] | [_] | _ :: _ :: _ => rfl

section

variable {m : Type → Type} [MonadAttach m] {context : Context m}

/-- No call of the context fails as an evaluation does that reaches its end. -/
def Context.NeverUnfinished (context : Context m) : Prop :=
  ∀ function argument error,
    Ends (context.call function argument) (.error error) → leftover? (.error error) = none

theorem Context.NeverInvalid.neverUnfinished (sound : context.NeverInvalid) :
    context.NeverUnfinished := by
  intro function argument error ends
  cases error with
  | invalidExpression defect => exact absurd ends (sound function argument defect)
  | domain _ | divisionByZero | malformedNumber _ => rfl

/-- A token that fails keeps the evaluation from its end. -/
theorem ReversePolish.StepEnds.leftover?_eq_none (sound : context.NeverUnfinished)
    {values : List Float} {token : Token} {error : EvaluationError}
    (ends : StepEnds context values token (.error error)) : leftover? (.error error) = none := by
  cases ends with
  | malformed failed =>
      obtain rfl := error_of_numberValue failed
      rfl
  | refused failed => exact sound _ _ _ failed
  | inapplicable failed =>
      rcases Operator.error_of_apply failed with rfl | ⟨cause, rfl⟩ <;> rfl
  | missingArgument _ | unknownFunction _ | missingOperand _ | parenthesis _
  | unknownCharacter _ => rfl

end

namespace ReversePolish

variable {m : Type → Type} [Monad m] [MonadRecord m]

/-- The evaluation starts with these values. -/
def evaluateFrom (context : Context m) (values : List Float) (tokens : List Token) :
    ExceptT EvaluationError m Float := do
  liftExcept (finish (← tokens.foldlM (step context) values))

@[simp] theorem evaluateFrom_nil (context : Context m) (tokens : List Token) :
    evaluateFrom context [] tokens = evaluate context tokens := rfl

/-- The evaluation goes on with the values that the first tokens leave. -/
theorem evaluateFrom_append [LawfulMonad m] (context : Context m) (values : List Float)
    (first second : List Token) :
    evaluateFrom context values (first ++ second) =
      first.foldlM (step context) values >>= fun reached =>
        evaluateFrom context reached second := by
  simp only [evaluateFrom, List.foldlM_append, bind_assoc]

end ReversePolish

/-- A context is asked for the value of a function. -/
structure Call where
  function : ElementaryFunction
  argument : Float

section

variable {m : Type → Type} [Monad m] {α β : Type}

/-- The context answers as before, and the calls are listed in their order. -/
def Context.listing (context : Context m) : Context (WriterT (List Call) m) where
  call function argument :=
    .mk (.mk ((fun answer => (answer, [⟨function, argument⟩])) <$>
      (context.call function argument).run))

/-- The same computation without the list of calls. -/
def unlisted (computation : ExceptT EvaluationError (WriterT (List Call) m) α) :
    ExceptT EvaluationError m α :=
  .mk (Prod.fst <$> computation.run.run)

variable [LawfulMonad m]

instance : LawfulMonad (WriterT (List Call) m) := by
  refine LawfulMonad.mk' _ ?_ ?_ ?_ (by intros; rfl) (by intros; rfl) (by intros; rfl) ?_
    (by intros; rfl)
  all_goals
    intros
    apply WriterT.ext
    simp

@[simp] theorem unlisted_pure (value : α) : unlisted (m := m) (pure value) = pure value :=
  ExceptT.ext (map_pure _ _)

@[simp] theorem unlisted_throw (error : EvaluationError) :
    unlisted (m := m) (throw error : ExceptT _ _ α) = throw error :=
  ExceptT.ext (map_pure _ _)

@[simp] theorem unlisted_liftExcept (result : Except EvaluationError α) :
    unlisted (m := m) (liftExcept result) = liftExcept result := by
  cases result with
  | error error => exact unlisted_throw error
  | ok value => exact unlisted_pure value

@[simp] theorem unlisted_bind (computation : ExceptT EvaluationError (WriterT (List Call) m) α)
    (next : α → ExceptT EvaluationError (WriterT (List Call) m) β) :
    unlisted (computation >>= next) =
      unlisted computation >>= fun value => unlisted (next value) := by
  apply ExceptT.ext
  change Prod.fst <$> (computation.run >>= ExceptT.bindCont next).run =
    Prod.fst <$> computation.run.run >>= ExceptT.bindCont fun value => unlisted (next value)
  rw [WriterT.run_bind, map_bind, bind_map_left]
  refine bind_congr fun ⟨outcome, calls⟩ => ?_
  cases outcome with
  | error error => simp [ExceptT.bindCont]
  | ok value => exact Functor.map_map _ _ _

@[simp] theorem unlisted_map (f : α → β)
    (computation : ExceptT EvaluationError (WriterT (List Call) m) α) :
    unlisted (f <$> computation) = f <$> unlisted computation := by
  simp only [map_eq_pure_bind, unlisted_bind, unlisted_pure]

@[simp] theorem unlisted_call (context : Context m) (function : ElementaryFunction) (argument : Float) :
    unlisted (context.listing.call function argument) = context.call function argument := by
  apply ExceptT.ext
  simp [unlisted, Context.listing]

variable [MonadRecord m]

@[simp] theorem unlisted_record (item : Record) : unlisted (m := m) (record item) = record item := by
  apply ExceptT.ext
  simp [unlisted, record, liftM, monadLift, MonadLift.monadLift, ExceptT.lift]

@[simp] theorem unlisted_publish (approximated : Except EvaluationError (Approximation Float)) :
    unlisted (m := m) (publish approximated) = publish approximated := by
  have records (notices : List (Notice Float)) :
      unlisted (m := m) (notices.forM fun notice => record (.stopped notice)) =
        notices.forM fun notice => record (.stopped notice) := by
    induction notices with
    | nil => exact unlisted_pure _
    | cons notice rest ih =>
        refine (unlisted_bind _ _).trans ?_
        rw [unlisted_record, ih]
        rfl
  simp only [publish, unlisted_bind, unlisted_liftExcept, records, unlisted_pure]

namespace ReversePolish

@[simp] theorem unlisted_step (context : Context m) (values : List Float) (token : Token) :
    unlisted (step context.listing values token) = step context values token := by
  cases token with
  | number literal => simp [step]
  | identifier name =>
      simp only [step]
      split
      · exact unlisted_throw _
      · exact unlisted_throw _
      · simp
  | operator sign =>
      simp only [step]
      split
      · simp only [unlisted_bind, unlisted_publish, unlisted_pure]
      · exact unlisted_throw _
  | leftParenthesis | rightParenthesis | unknown _ => exact unlisted_throw _

/-- The calls can be listed without a change to anything else. -/
@[simp] theorem unlisted_foldlM_step (context : Context m) (values : List Float) (tokens : List Token) :
    unlisted (tokens.foldlM (step context.listing) values) =
      tokens.foldlM (step context) values := by
  induction tokens generalizing values with
  | nil => exact unlisted_pure values
  | cons token rest ih =>
      rw [List.foldlM_cons, List.foldlM_cons, unlisted_bind, unlisted_step]
      exact bind_congr ih

theorem unlisted_evaluateFrom (context : Context m) (values : List Float) (tokens : List Token) :
    unlisted (evaluateFrom context.listing values tokens) =
      evaluateFrom context values tokens := by
  simp [evaluateFrom]

end ReversePolish

end

/-- A computation comes to its outcome, the context has been asked these calls by then, and the
world is left in this state. -/
structure Course (σ α : Type) where
  outcome : Except EvaluationError α
  calls : List Call
  world : σ

namespace Course

variable {σ α β : Type}

/-- These calls have come first. -/
def after (calls : List Call) (later : Course σ α) : Course σ α :=
  { later with calls := calls ++ later.calls }

/-- A failure is final, and a value is passed on. -/
def andThen (next : α → σ → Course σ β) : Course σ α → Course σ β
  | ⟨.error error, calls, world⟩ => ⟨.error error, calls, world⟩
  | ⟨.ok value, calls, world⟩ => (next value world).after calls

/-- A sequence that succeeds has been through the value of its first part. -/
theorem of_andThen_ok {earlier : Course σ α} {next : α → σ → Course σ β} {value : β}
    {calls : List Call} {world : σ} (succeeded : earlier.andThen next = ⟨.ok value, calls, world⟩) :
    ∃ middle, earlier.outcome = .ok middle ∧ earlier.calls <+: calls := by
  rcases earlier with ⟨_ | middle, called, reached⟩
  · cases congrArg Course.outcome succeeded
  · exact ⟨middle, rfl, _, congrArg Course.calls succeeded⟩

end Course

variable {σ α β : Type}

/-- What the computation does in a world of this state. -/
def course (computation : ExceptT EvaluationError (WriterT (List Call) (StateM σ)) α)
    (world : σ) : Course σ α :=
  let ((outcome, calls), reached) := computation.run.run.run world
  ⟨outcome, calls, reached⟩

theorem course_liftExcept (result : Except EvaluationError α) (world : σ) :
    course (liftExcept result) world = ⟨result, [], world⟩ := by
  cases result <;> rfl

theorem course_bind (computation : ExceptT EvaluationError (WriterT (List Call) (StateM σ)) α)
    (next : α → ExceptT EvaluationError (WriterT (List Call) (StateM σ)) β) (world : σ) :
    course (computation >>= next) world =
      (course computation world).andThen fun value => course (next value) := by
  have bound : course (computation >>= next) world =
      (let ⟨outcome, calls, reached⟩ := course computation world
       (course (.mk (ExceptT.bindCont next outcome)) reached).after calls) := rfl
  rw [bound]
  rcases course computation world with ⟨outcome, calls, reached⟩
  cases outcome with
  | error error =>
      have failed : course (.mk (ExceptT.bindCont next (.error error))) reached =
          ⟨.error error, [], reached⟩ := rfl
      simp [failed, Course.andThen, Course.after]
  | ok value => rfl

/-- Without its list of calls the computation comes to the same outcome and state. -/
theorem run_unlisted (computation : ExceptT EvaluationError (WriterT (List Call) (StateM σ)) α)
    (world : σ) : (unlisted computation).run.run world =
      ((course computation world).outcome, (course computation world).world) :=
  rfl

namespace ReversePolish

variable [MonadRecord (StateM σ)]

/-- The tokens leave values behind, with the calls that are made for them. -/
def runCourse (context : Context (StateM σ)) (values : List Float) (tokens : List Token)
    (world : σ) : Course σ (List Float) :=
  course (tokens.foldlM (step context.listing) values) world

/-- The tokens are evaluated, with the calls that are made for them. -/
def evaluationCourse (context : Context (StateM σ)) (values : List Float) (tokens : List Token)
    (world : σ) : Course σ Float :=
  course (evaluateFrom context.listing values tokens) world

variable {context : Context (StateM σ)} {values middle : List Float} {first second : List Token}
variable {world reached : σ} {calls : List Call}

theorem runCourse_append (context : Context (StateM σ)) (values : List Float)
    (first second : List Token) (world : σ) :
    runCourse context values (first ++ second) world =
      (runCourse context values first world).andThen fun middle =>
        runCourse context middle second := by
  rw [runCourse, List.foldlM_append, course_bind]
  rfl

theorem evaluationCourse_append (context : Context (StateM σ)) (values : List Float)
    (first second : List Token) (world : σ) :
    evaluationCourse context values (first ++ second) world =
      (runCourse context values first world).andThen fun middle =>
        evaluationCourse context middle second := by
  rw [evaluationCourse, evaluateFrom_append, course_bind]
  rfl

theorem evaluationCourse_nil (context : Context (StateM σ)) (values : List Float) (world : σ) :
    evaluationCourse context values [] world = ⟨finish values, [], world⟩ := by
  rw [evaluationCourse, evaluateFrom, List.foldlM_nil, pure_bind, course_liftExcept]

/-- No token comes to its turn after a failure. -/
theorem evaluationCourse_of_error {error : EvaluationError}
    (failed : runCourse context values first world = ⟨.error error, calls, reached⟩)
    (second : List Token) :
    evaluationCourse context values (first ++ second) world = ⟨.error error, calls, reached⟩ := by
  rw [evaluationCourse_append, failed]
  rfl

/-- The tokens that follow find the values that the first ones leave. -/
theorem evaluationCourse_of_ok
    (run : runCourse context values first world = ⟨.ok middle, calls, reached⟩)
    (second : List Token) :
    evaluationCourse context values (first ++ second) world =
      (evaluationCourse context middle second reached).after calls := by
  rw [evaluationCourse_append, run]
  rfl

theorem ends_of_runCourse (context : Context (StateM σ)) (values : List Float)
    (tokens : List Token) (world : σ) :
    Ends (tokens.foldlM (step context) values)
      (runCourse context values tokens world).outcome := by
  rw [← unlisted_foldlM_step]
  exact ⟨world, (runCourse context values tokens world).world, rfl⟩

/-- A run that leaves values has left some after each first part, whose numbers exceed its
operators by as many. -/
theorem exists_runCourse_of_prefix
    (run : runCourse context [] first world = ⟨.ok middle, calls, reached⟩) {part : List Token}
    (starts : part <+: first) :
    ∃ values : List Float, (runCourse context [] part world).outcome = .ok values ∧
      (runCourse context [] part world).calls <+: calls ∧
      values.length + part.countP Token.isOperator = part.countP Token.isNumber := by
  obtain ⟨rest, rfl⟩ := starts
  rw [runCourse_append] at run
  obtain ⟨values, succeeded, earlier⟩ := Course.of_andThen_ok run
  have ends := ends_of_runCourse context [] part world
  rw [succeeded] at ends
  have count := length_of_foldlM_step ends
  rw [List.length_nil, Nat.zero_add] at count
  exact ⟨values, succeeded, earlier, count⟩

/-- The first failure of an evaluation is final, whatever tokens follow. An evaluation that reaches
its end goes on with the values that it is left with, after the same calls, and the numbers of each
first part exceed its operators by the values that the part leaves. -/
theorem evaluationCourse_continues (context : Context (StateM σ)) (first second : List Token)
    (world : σ) :
    let alone := evaluationCourse context [] first world
    (evaluate context first).run.run world = (alone.outcome, alone.world) ∧
      (leftover? alone.outcome = none →
        evaluationCourse context [] (first ++ second) world = alone) ∧
      (context.NeverUnfinished → ∀ count, leftover? alone.outcome = some count →
        ∃ values : List Float, values.length = count ∧
          runCourse context [] first world = ⟨.ok values, alone.calls, alone.world⟩ ∧
          evaluationCourse context [] (first ++ second) world =
            (evaluationCourse context values second alone.world).after alone.calls ∧
          ∀ part, part <+: first → ∃ reached : List Float,
            (runCourse context [] part world).outcome = .ok reached ∧
              (runCourse context [] part world).calls <+: alone.calls ∧
              reached.length + part.countP Token.isOperator = part.countP Token.isNumber) := by
  intro alone
  refine ⟨?_, ?_⟩
  · have same := run_unlisted (evaluateFrom context.listing [] first) world
    rw [unlisted_evaluateFrom, evaluateFrom_nil] at same
    exact same
  -- The first tokens fail whatever follows, or their values are there for what follows.
  have ends := ends_of_runCourse context [] first world
  rcases run : runCourse context [] first world with ⟨error | values, calls, reached⟩
  · have failed : alone = ⟨.error error, calls, reached⟩ := by
      have complete := evaluationCourse_of_error run []
      rw [List.append_nil] at complete
      exact complete
    rw [run] at ends
    rw [failed]
    refine ⟨fun _ => evaluationCourse_of_error run second, fun sound count left => ?_⟩
    obtain ⟨token, _, _, stopped⟩ := exists_of_foldlM_step_error ends
    rw [stopped.leftover?_eq_none sound] at left
    contradiction
  · have finished : alone = ⟨finish values, calls, reached⟩ := by
      have complete := evaluationCourse_of_ok run []
      rw [List.append_nil, evaluationCourse_nil, Course.after, List.append_nil] at complete
      exact complete
    rw [finished, leftover?_finish]
    refine ⟨fun none => by contradiction, fun _ count left => ?_⟩
    exact ⟨values, Option.some.inj left, rfl, evaluationCourse_of_ok run second,
      fun part starts => exists_runCourse_of_prefix run starts⟩

theorem evaluationCourse_continues_builtins :
    let context : Context Journal := builtins .radians
    let logarithm : List Token := [.number "0", .call .logarithm]
    let roots : List Token := [.number "0", .call .squareRoot, .number "1"]
    let left := evaluationCourse context [] roots #[]
    leftover? (evaluationCourse context [] logarithm #[]).outcome = none ∧
      evaluationCourse context [] (logarithm ++ [.operator .plus]) #[] =
        evaluationCourse context [] logarithm #[] ∧
      context.NeverUnfinished ∧ leftover? left.outcome = some 2 ∧
      [Token.number "0", .call .squareRoot] <+: roots ∧
      ∃ values reached : List Float, values.length = 2 ∧
        evaluationCourse context [] (roots ++ [.operator .plus]) #[] =
          (evaluationCourse context values [.operator .plus] left.world).after left.calls ∧
        (runCourse context [] [.number "0", .call .squareRoot] #[]).outcome = .ok reached ∧
        reached.length + 0 = 1 := by
  intro context logarithm roots left
  have failed : leftover? (evaluationCourse context [] logarithm #[]).outcome = none := by decide
  have sound : context.NeverUnfinished := (builtins_neverInvalid .radians).neverUnfinished
  have counted : leftover? left.outcome = some 2 := by decide
  have starts : [Token.number "0", .call .squareRoot] <+: roots := ⟨[.number "1"], rfl⟩
  obtain ⟨_, final, _⟩ := evaluationCourse_continues context logarithm [.operator .plus] #[]
  obtain ⟨_, _, continued⟩ := evaluationCourse_continues context roots [.operator .plus] #[]
  obtain ⟨values, two, _, later, parts⟩ := continued sound 2 counted
  obtain ⟨reached, succeeded, _, one⟩ := parts _ starts
  exact ⟨failed, final failed, sound, counted, starts, values, reached, two, later, succeeded, one⟩

end ReversePolish

end Reckoner
