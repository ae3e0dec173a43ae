import HttpLws.Lib.Runs

/-!
# The worker and its shutdown

The worker's loop and the shutdown share two variables without a lock. Their
atomic steps are interleaved in any order: the worker reads the flag, tests the
context, enters `lws_service` and leaves it; the shutdown tests the context,
destroys it, clears the variable and clears the flag. Either the game thread
runs the shutdown, or a handler runs it inside a callback.
-/

namespace HttpLws

/-- Who runs `Stop`. -/
inductive Stopper
  /-- The destructor on the game thread. -/
  | gameThread
  /-- A handler inside a callback, on the worker itself. -/
  | handler
  deriving DecidableEq

/-- Where the worker is. -/
inductive WorkerStep
  /-- Before `Init`. -/
  | notStarted
  /-- About to read `bStartThread`. -/
  | atLoop
  /-- About to test `Context`. -/
  | atTest
  /-- The test has passed and the call of `lws_service` comes next. -/
  | passed
  /-- Inside `lws_service`. -/
  | inService
  /-- `Run` has returned. -/
  | left
  deriving DecidableEq

/-- Where the shutdown is. -/
inductive StopStep
  /-- Before `Stop`. -/
  | notCalled
  /-- The test has passed and `lws_context_destroy` comes next. -/
  | atDestroy
  /-- The context is destroyed and `Context` still points to it. -/
  | destroyed
  /-- About to clear `bStartThread`. -/
  | atFlag
  /-- `Stop` has returned; `Kill(true)` waits for the worker. -/
  | waiting
  deriving DecidableEq

/-- The shared variables and the two program counters. -/
structure ThreadState where
  /-- The worker. -/
  worker : WorkerStep
  /-- The shutdown. -/
  stop : StopStep
  /-- `Context` is not null. -/
  context : Bool
  /-- The library's context exists. -/
  contextAlive : Bool
  /-- `bStartThread` -/
  bStartThread : Bool
  deriving DecidableEq

/-- The atomic steps. -/
inductive ThreadEvent
  /-- `Init`, with the outcome of `lws_create_context`. -/
  | init (created : Bool)
  /-- The worker reads `bStartThread`. -/
  | readFlag
  /-- The worker tests `Context`. -/
  | testContext
  /-- The worker enters `lws_service` on `Context`. -/
  | enterService
  /-- Handlers run inside `lws_service`. -/
  | runHandlers
  /-- The worker leaves `lws_service`. -/
  | leaveService
  /-- `HTTP_Stop` tests `Context`. -/
  | stopTest
  /-- `lws_context_destroy` -/
  | destroyContext
  /-- `Context = NULL` -/
  | setNull
  /-- `bStartThread = false` -/
  | clearFlag
  deriving DecidableEq

namespace ThreadState

/-- The thread object before its worker starts. -/
def initial : ThreadState := ⟨.notStarted, .notCalled, false, false, false⟩

/-- One atomic step, if it is enabled. While a handler runs `Stop` and the wait that
follows it, the worker cannot leave `lws_service`. -/
def step (stopper : Stopper) (s : ThreadState) : ThreadEvent → Option ThreadState
  | .init created =>
      if s.worker = .notStarted then
        some { s with
          worker := .atLoop, context := created, contextAlive := created, bStartThread := true }
      else none
  | .readFlag =>
      if s.worker = .atLoop then
        some { s with worker := if s.bStartThread then .atTest else .left }
      else none
  | .testContext =>
      if s.worker = .atTest then
        some { s with worker := if s.context then .passed else .atLoop }
      else none
  | .enterService => if s.worker = .passed then some { s with worker := .inService } else none
  | .runHandlers =>
      if s.worker = .inService ∧ (stopper = .handler → s.stop = .notCalled) then some s else none
  | .leaveService =>
      if s.worker = .inService ∧ (stopper = .handler → s.stop = .notCalled) then
        some { s with worker := .atLoop }
      else none
  | .stopTest =>
      if s.stop = .notCalled ∧ (stopper = .handler → s.worker = .inService) then
        some { s with stop := if s.context then .atDestroy else .atFlag }
      else none
  | .destroyContext =>
      if s.stop = .atDestroy then some { s with stop := .destroyed, contextAlive := false }
      else none
  | .setNull =>
      if s.stop = .destroyed then some { s with stop := .atFlag, context := false } else none
  | .clearFlag =>
      if s.stop = .atFlag then some { s with stop := .waiting, bStartThread := false } else none

/-- The rule for one step: the context is not destroyed while it is in service, and
service is not entered without a living context. -/
def ServiceRule (s : ThreadState) (e : ThreadEvent) (_ : ThreadState) : Prop :=
  match e with
  | .destroyContext => s.worker ≠ .inService
  | .enterService => s.context = true ∧ s.contextAlive = true
  | _ => True

/-- The condition for one step: the context is destroyed only while the worker is
neither in service nor on its way from the test into it, and the worker does not
test the context between its destruction and the clearing of the variable. -/
def Apart (s : ThreadState) (e : ThreadEvent) (_ : ThreadState) : Prop :=
  match e with
  | .destroyContext => s.worker ≠ .passed ∧ s.worker ≠ .inService
  | .testContext => s.stop ≠ .destroyed
  | _ => True

instance (s : ThreadState) : (e : ThreadEvent) → (t : ThreadState) → Decidable (ServiceRule s e t)
  | .destroyContext, _ => inferInstanceAs (Decidable (s.worker ≠ .inService))
  | .enterService, _ => inferInstanceAs (Decidable (s.context = true ∧ s.contextAlive = true))
  | .init _, _ | .readFlag, _ | .testContext, _ | .runHandlers, _ | .leaveService, _
  | .stopTest, _ | .setNull, _ | .clearFlag, _ => .isTrue trivial

instance (s : ThreadState) : (e : ThreadEvent) → (t : ThreadState) → Decidable (Apart s e t)
  | .destroyContext, _ =>
      inferInstanceAs (Decidable (s.worker ≠ .passed ∧ s.worker ≠ .inService))
  | .testContext, _ => inferInstanceAs (Decidable (s.stop ≠ .destroyed))
  | .init _, _ | .readFlag, _ | .enterService, _ | .runHandlers, _ | .leaveService, _
  | .stopTest, _ | .setNull, _ | .clearFlag, _ => .isTrue trivial

/-- What holds between the steps of a run that meets the condition. -/
structure Consistent (s : ThreadState) : Prop where
  /-- Past the test there is a living context. -/
  passed : s.worker = .passed → s.context = true ∧ s.contextAlive = true
  /-- Except between destruction and clearing, `Context` points to a living context. -/
  living : s.context = true → s.stop ≠ .destroyed → s.contextAlive = true
  /-- Until the variable is cleared, it points to the destroyed context. -/
  pointing : s.stop = .atDestroy ∨ s.stop = .destroyed → s.context = true
  /-- A destroyed context is not alive. -/
  dead : s.stop = .destroyed → s.contextAlive = false
  /-- There is no context before `Init`. -/
  unborn : s.worker = .notStarted → s.context = false

/-- The steps of the worker keep the state consistent when the test of the context
does not fall between its destruction and the clearing of the variable. -/
theorem consistent_worker {stopper : Stopper} {s t : ThreadState} (hs : Consistent s)
    {e : ThreadEvent} (he : e = .readFlag ∨ e = .testContext ∨ e = .enterService ∨
      e = .runHandlers ∨ e = .leaveService)
    (hstep : s.step stopper e = some t) (hapart : Apart s e t) : Consistent t := by
  rcases he with rfl | rfl | rfl | rfl | rfl <;>
    simp only [step, Option.ite_none_right_eq_some, Option.some.injEq] at hstep <;>
    obtain ⟨henabled, rfl⟩ := hstep
  · refine ⟨fun h => ?_, hs.living, hs.pointing, hs.dead, fun h => ?_⟩
    · split_ifs at h
    · split_ifs at h
  · refine ⟨fun h => ?_, hs.living, hs.pointing, hs.dead, fun h => ?_⟩
    · split_ifs at h with hcontext
      exact ⟨hcontext, hs.living hcontext hapart⟩
    · split_ifs at h
  · exact ⟨by simp, hs.living, hs.pointing, hs.dead, by simp⟩
  · exact hs
  · exact ⟨by simp, hs.living, hs.pointing, hs.dead, by simp⟩

/-- The steps of the shutdown keep the state consistent when the context is not
destroyed under a worker that has passed its test. -/
theorem consistent_stop {stopper : Stopper} {s t : ThreadState} (hs : Consistent s)
    {e : ThreadEvent} (he : e = .stopTest ∨ e = .destroyContext ∨ e = .setNull ∨ e = .clearFlag)
    (hstep : s.step stopper e = some t) (hapart : Apart s e t) : Consistent t := by
  rcases he with rfl | rfl | rfl | rfl <;>
    simp only [step, Option.ite_none_right_eq_some, Option.some.injEq] at hstep <;>
    obtain ⟨henabled, rfl⟩ := hstep
  · have hbefore : s.stop ≠ .destroyed := by
      rw [henabled.1]
      decide
    refine ⟨hs.passed, fun h _ => hs.living h hbefore, fun h => ?_, fun h => ?_, hs.unborn⟩
    · by_contra hcontext
      simp [hcontext] at h
    · split_ifs at h
  · exact ⟨fun h => absurd h hapart.1, fun _ h => absurd rfl h,
      fun _ => hs.pointing (Or.inl henabled), fun _ => rfl, hs.unborn⟩
  · refine ⟨fun h => ?_, by simp, by simp, by simp, fun _ => rfl⟩
    have halive := (hs.passed h).2
    rw [hs.dead henabled] at halive
    exact absurd halive (by decide)
  · have hbefore : s.stop ≠ .destroyed := by
      rw [henabled]
      decide
    exact ⟨hs.passed, fun h _ => hs.living h hbefore, by simp, by simp, hs.unborn⟩

/-- Every step under the condition keeps the state consistent. -/
theorem consistent_step {stopper : Stopper} {s t : ThreadState} {e : ThreadEvent}
    (hs : Consistent s) (hstep : s.step stopper e = some t) (hapart : Apart s e t) :
    Consistent t := by
  cases e with
  | init created =>
    simp only [step, Option.ite_none_right_eq_some, Option.some.injEq] at hstep
    obtain ⟨henabled, rfl⟩ := hstep
    have hidle : ¬(s.stop = .atDestroy ∨ s.stop = .destroyed) := fun h => by
      have hcontext := hs.pointing h
      rw [hs.unborn henabled] at hcontext
      exact absurd hcontext (by decide)
    exact ⟨by simp, fun h _ => h, fun h => absurd h hidle, fun h => absurd (Or.inr h) hidle,
      by simp⟩
  | readFlag | testContext | enterService | runHandlers | leaveService =>
    exact consistent_worker hs (by simp) hstep hapart
  | stopTest | destroyContext | setNull | clearFlag =>
    exact consistent_stop hs (by simp) hstep hapart

/-- In a consistent state, a step under the condition follows the rule. -/
theorem serviceRule_of_apart {stopper : Stopper} {s t : ThreadState} {e : ThreadEvent}
    (hs : Consistent s) (hstep : s.step stopper e = some t) (hapart : Apart s e t) :
    ServiceRule s e t := by
  cases e with
  | destroyContext => exact hapart.2
  | enterService =>
    simp only [step, Option.ite_none_right_eq_some] at hstep
    exact hs.passed hstep.1
  | _ => trivial

/-- The thread object is consistent before its worker starts. -/
theorem consistent_initial : Consistent initial :=
  ⟨by simp [initial], by simp [initial], by simp [initial], by simp [initial], fun _ => rfl⟩

/-- From a step against the condition, at most one further step breaks the rule. -/
theorem exists_violation_of_not_apart {stopper : Stopper} {s t : ThreadState} {e : ThreadEvent}
    (hs : Consistent s) (hstep : s.step stopper e = some t) (hapart : ¬Apart s e t) :
    ∃ rest, ¬Runs.EachStep (step stopper) ServiceRule s (e :: rest) := by
  cases e with
  | destroyContext =>
    by_cases hservice : s.worker = .inService
    · refine ⟨[], fun hrun => ?_⟩
      rw [Runs.eachStep_cons_some hstep] at hrun
      exact hrun.1 hservice
    · have hpassed : s.worker = .passed := by
        by_contra hne
        exact hapart ⟨hne, hservice⟩
      simp only [step, Option.ite_none_right_eq_some, Option.some.injEq] at hstep
      obtain ⟨henabled, rfl⟩ := hstep
      refine ⟨[.enterService], fun hrun => ?_⟩
      simp [Runs.EachStep, step, henabled, hpassed, ServiceRule] at hrun
  | testContext =>
    have hdestroyed : s.stop = .destroyed := by
      by_contra hne
      exact hapart hne
    have hcontext := hs.pointing (Or.inr hdestroyed)
    have hdead := hs.dead hdestroyed
    simp only [step, Option.ite_none_right_eq_some, Option.some.injEq] at hstep
    obtain ⟨henabled, rfl⟩ := hstep
    refine ⟨[.enterService], fun hrun => ?_⟩
    simp [Runs.EachStep, step, henabled, hcontext, hdead, ServiceRule] at hrun
  | _ => exact absurd trivial hapart

/-- **Shutdown and service.** In every interleaving whose steps keep the destruction
of the context apart from the worker's way through `lws_service`, the context is
never destroyed in service and service is never entered without it. An
interleaving that does not keep them apart has a first step that does not, and its
beginning up to and with this step can go on to break the rule. -/
theorem shutdown_safe_of_apart (stopper : Stopper) :
    (∀ events, Runs.EachStep (step stopper) Apart initial events →
        Runs.EachStep (step stopper) ServiceRule initial events) ∧
      ∀ events, ¬Runs.EachStep (step stopper) Apart initial events →
        ∃ pre e post s t, events = pre ++ e :: post ∧
          Runs.exec (step stopper) initial pre = some s ∧ s.step stopper e = some t ∧
          ¬Apart s e t ∧
          ∃ rest, ¬Runs.EachStep (step stopper) ServiceRule initial (pre ++ e :: rest) := by
  have hpreserved : ∀ s e t, Consistent s → step stopper s e = some t → Apart s e t →
      ServiceRule s e t ∧ Consistent t := fun s e t hs hstep hapart =>
    ⟨serviceRule_of_apart hs hstep hapart, consistent_step hs hstep hapart⟩
  constructor
  · intro events hrun
    exact Runs.EachStep.of_invariant Consistent hpreserved consistent_initial hrun
  · intro events hrun
    obtain ⟨pre, e, post, s, t, rfl, hpre, hexec, hstep, hapart⟩ :=
      Runs.exists_first_violation hrun
    have hs : Consistent s := Runs.exec_invariant Consistent
      (fun s e t hs hstep hapart => (hpreserved s e t hs hstep hapart).2)
      consistent_initial hpre hexec
    obtain ⟨rest, hbad⟩ := exists_violation_of_not_apart hs hstep hapart
    refine ⟨pre, e, post, s, t, rfl, hexec, hstep, hapart, rest, fun hall => hbad ?_⟩
    exact hall.of_exec hexec

/-- The worker leaves service before the game thread shuts down. -/
theorem left_before_shutdown_safe :
    Runs.EachStep (step .gameThread) ServiceRule initial
      [.init true, .readFlag, .testContext, .enterService, .leaveService, .stopTest,
        .destroyContext, .setNull, .readFlag, .testContext, .clearFlag, .readFlag] :=
  (shutdown_safe_of_apart .gameThread).1 _ (by decide)

/-- The game thread destroys the context after the worker's test, and the worker
enters service with it. A handler that stops the server destroys it in service. -/
theorem destroyed_under_the_worker :
    ¬Runs.EachStep (step .gameThread) ServiceRule initial
        [.init true, .readFlag, .testContext, .stopTest, .destroyContext, .enterService] ∧
      ¬Runs.EachStep (step .handler) ServiceRule initial
        [.init true, .readFlag, .testContext, .enterService, .stopTest, .destroyContext] := by
  decide

end ThreadState

end HttpLws
