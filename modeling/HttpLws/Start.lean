import HttpLws.Server
import HttpLws.Worker

/-!
# What starting reports

The engine creates the worker inside the constructor and runs `Init` on it, which
stores the outcome of `lws_create_context` in `Context` and returns true. The
actor tests only the pointer that `new` gave it.
-/

namespace HttpLws

/-- The steps that a worker takes by itself in `Run`. -/
def ThreadEvent.ofRun : ThreadEvent → Bool
  | .readFlag | .testContext | .enterService | .runHandlers | .leaveService => true
  | _ => false

/-- The steps of `Run` by name. -/
theorem ThreadEvent.ofRun_iff {e : ThreadEvent} :
    e.ofRun ↔ e = .readFlag ∨ e = .testContext ∨ e = .enterService ∨ e = .runHandlers ∨
      e = .leaveService := by
  cases e <;> simp [ofRun]

namespace ThreadState

/-- The worker is in `Run`. -/
def InRun (s : ThreadState) : Prop := s.worker ≠ .notStarted ∧ s.worker ≠ .left

/-- Left to itself the worker stays in `Run` and can always go on. -/
def Loops (s : ThreadState) : Prop :=
  ∀ events t, (∀ e ∈ events, e.ofRun) → Runs.exec (step .gameThread) s events = some t →
    t.InRun ∧ ∃ e : ThreadEvent, e.ofRun ∧ (t.step .gameThread e).isSome

/-- Left to itself the worker stays in `Run`, and `Context` is never null. -/
def Serves (s : ThreadState) : Prop :=
  s.Loops ∧ ∀ events t, (∀ e ∈ events, e.ofRun) →
    Runs.exec (step .gameThread) s events = some t → t.context = true

/-- A step of `Run` leaves the variables alone, and leaves `Run` only when the flag
is cleared. -/
theorem step_ofRun {s t : ThreadState} {e : ThreadEvent} (he : e.ofRun)
    (hstep : s.step .gameThread e = some t) :
    t.context = s.context ∧ t.bStartThread = s.bStartThread ∧
      (s.bStartThread = true → s.InRun → t.InRun) := by
  rcases ThreadEvent.ofRun_iff.mp he with rfl | rfl | rfl | rfl | rfl <;>
    simp only [step, Option.ite_none_right_eq_some, Option.some.injEq] at hstep <;>
    obtain ⟨_, rfl⟩ := hstep
  · refine ⟨rfl, rfl, fun hflag _ => ?_⟩
    simp [InRun, hflag]
  · refine ⟨rfl, rfl, fun _ _ => ?_⟩
    cases hcontext : s.context <;> simp [InRun]
  · exact ⟨rfl, rfl, fun _ _ => by simp [InRun]⟩
  · exact ⟨rfl, rfl, fun _ hrun => hrun⟩
  · exact ⟨rfl, rfl, fun _ _ => by simp [InRun]⟩

/-- In `Run` there is always a step to take. -/
theorem exists_step_ofRun {s : ThreadState} (hrun : s.InRun) :
    ∃ e : ThreadEvent, e.ofRun ∧ (s.step .gameThread e).isSome := by
  cases hworker : s.worker with
  | notStarted => exact absurd hworker hrun.1
  | atLoop => exact ⟨.readFlag, rfl, by simp [step, hworker]⟩
  | atTest => exact ⟨.testContext, rfl, by simp [step, hworker]⟩
  | passed => exact ⟨.enterService, rfl, by simp [step, hworker]⟩
  | inService => exact ⟨.leaveService, rfl, by simp [step, hworker]⟩
  | left => exact absurd hworker hrun.2

/-- While the flag is set, the worker stays in `Run` and `Context` stays as it is. -/
theorem exec_ofRun {s t : ThreadState} {events : List ThreadEvent} (hrun : s.InRun)
    (hflag : s.bStartThread = true) (hevents : ∀ e ∈ events, e.ofRun)
    (hexec : Runs.exec (step .gameThread) s events = some t) :
    t.InRun ∧ t.context = s.context := by
  have hinv : t.InRun ∧ t.bStartThread = true ∧ t.context = s.context := by
    apply Runs.exec_invariant (C := fun _ e _ => e.ofRun = true)
      (fun u => u.InRun ∧ u.bStartThread = true ∧ u.context = s.context) _
      ⟨hrun, hflag, rfl⟩ (Runs.eachStep_of_forall_mem (fun e he _ _ _ => hevents e he) s) hexec
    rintro u e v ⟨hin, hset, hsame⟩ hstep he
    obtain ⟨hcontext, hflag', hstay⟩ := step_ofRun he hstep
    exact ⟨hstay hset hin, hflag'.trans hset, hcontext.trans hsame⟩
  exact ⟨hinv.1, hinv.2.2⟩

/-- A worker in `Run` whose flag is set loops, with or without a context. -/
theorem loops_of_flag {s : ThreadState} (hrun : s.InRun) (hflag : s.bStartThread = true) :
    s.Loops := by
  intro events t hevents hexec
  have hin := (exec_ofRun hrun hflag hevents hexec).1
  exact ⟨hin, exists_step_ofRun hin⟩

/-- The worker after `Init`. -/
theorem step_init (contextCreated : Bool) :
    initial.step .gameThread (.init contextCreated) =
      some ⟨.atLoop, .notCalled, contextCreated, contextCreated, true⟩ := rfl

/-- After `Init` the worker serves exactly when the library has made a context. -/
theorem serves_after_init_iff (contextCreated : Bool) :
    Serves ⟨.atLoop, .notCalled, contextCreated, contextCreated, true⟩ ↔
      contextCreated = true := by
  have hrun : InRun ⟨.atLoop, .notCalled, contextCreated, contextCreated, true⟩ := by
    simp [InRun]
  constructor
  · intro hserves
    exact hserves.2 [] _ (by simp) rfl
  · intro hcreated
    refine ⟨loops_of_flag hrun rfl, fun events t hevents hexec => ?_⟩
    exact (exec_ofRun hrun rfl hevents hexec).2.trans hcreated

end ThreadState

/-- The worker that runs for a thread object: none if the engine could not create it,
else `Init` has run on it with the given outcome of `lws_create_context`. -/
def FHTTPThreadLibWebSocket.worker (self : FHTTPThreadLibWebSocket) (contextCreated : Bool) :
    Option ThreadState :=
  self.runnableThread.bind fun _ => ThreadState.initial.step .gameThread (.init contextCreated)

namespace AHTTPServerLWS

/-- The worker of the thread object that a start makes, if it makes one. -/
def startedWorker (self : AHTTPServerLWS) (created contextCreated : Bool) : Option ThreadState :=
  (self.httpServerStart created).1.threads[self.threads.length]?.bind (·.worker contextCreated)

/-- The rule for a start with the given outcomes of `FRunnableThread::Create` and
`lws_create_context`. -/
structure StartReports (s : AHTTPServerLWS) (created contextCreated : Bool) : Prop where
  /-- Success is reported only for a worker that runs with a context. -/
  success : (s.httpServerStart created).2 = true →
    ∃ w ∈ s.startedWorker created contextCreated, w.Serves
  /-- After a failure there is no thread object and no worker loops. -/
  failure : (s.httpServerStart created).2 = false →
    (s.httpServerStart created).1.threadLibWebSocket = none ∧
      ∀ w ∈ s.startedWorker created contextCreated, ¬w.Loops

/-- A start without a name does nothing. -/
theorem httpServerStart_of_no_name {self : AHTTPServerLWS} (hname : self.serverName = [])
    (created : Bool) : self.httpServerStart created = (self, false) := by
  rw [httpServerStart, if_pos hname]

/-- A start with a name reports success, and its worker depends on both outcomes. -/
theorem httpServerStart_of_name {self : AHTTPServerLWS} (hname : self.serverName ≠ [])
    (created contextCreated : Bool) :
    (self.httpServerStart created).2 = true ∧
      self.startedWorker created contextCreated = if created then
        some ⟨.atLoop, .notCalled, contextCreated, contextCreated, true⟩ else none := by
  have hstart : self.httpServerStart created = ({ self with
      threadLibWebSocket := some self.threads.length
      threads := self.threads ++ [.new created] }, true) := by
    rw [httpServerStart, if_neg hname]
  refine ⟨by rw [hstart], ?_⟩
  rw [startedWorker, hstart]
  simp only [List.getElem?_concat_length, Option.bind_some]
  cases created with
  | false => rfl
  | true => exact ThreadState.step_init contextCreated

/-- Without a name the rule asks that there is no thread object. -/
theorem startReports_of_no_name {self : AHTTPServerLWS} (hname : self.serverName = [])
    (created contextCreated : Bool) :
    self.StartReports created contextCreated ↔ self.threadLibWebSocket = none := by
  have hstart := httpServerStart_of_no_name hname created
  constructor
  · intro hrule
    have hfailure := hrule.failure (by rw [hstart])
    rw [hstart] at hfailure
    exact hfailure.1
  · intro hpointer
    have hworker : self.startedWorker created contextCreated = none := by
      rw [startedWorker, hstart]
      simp
    refine ⟨fun h => ?_, fun _ => ⟨?_, ?_⟩⟩
    · rw [hstart] at h
      exact absurd h Bool.false_ne_true
    · rw [hstart]
      exact hpointer
    · simp [hworker]

/-- With a name success is reported, so the rule asks for both outcomes. -/
theorem startReports_of_name {self : AHTTPServerLWS} (hname : self.serverName ≠ [])
    (created contextCreated : Bool) :
    self.StartReports created contextCreated ↔ created = true ∧ contextCreated = true := by
  obtain ⟨hresult, hworker⟩ := httpServerStart_of_name hname created contextCreated
  constructor
  · intro hrule
    obtain ⟨w, hw, hserves⟩ := hrule.success hresult
    rw [hworker] at hw
    split_ifs at hw with hcreated
    · obtain rfl := Option.mem_some_iff.mp hw
      exact ⟨hcreated, (ThreadState.serves_after_init_iff contextCreated).mp hserves⟩
    · cases hw
  · rintro ⟨hcreated, hcontext⟩
    refine ⟨fun _ => ?_, fun h => ?_⟩
    · rw [hworker, if_pos hcreated]
      exact ⟨_, rfl, (ThreadState.serves_after_init_iff contextCreated).mpr hcontext⟩
    · rw [hresult] at h
      exact absurd h (by decide)

/-- **What a start reports.** A start reports success only with a worker that runs
with a context, and leaves nothing behind when it fails, if and only if the actor has
no name and no thread object, or it has a name and the engine creates the worker and
the library its context. -/
theorem startReports_iff (self : AHTTPServerLWS) (created contextCreated : Bool) :
    self.StartReports created contextCreated ↔
      (self.serverName = [] ∧ self.threadLibWebSocket = none) ∨
        (self.serverName ≠ [] ∧ created = true ∧ contextCreated = true) := by
  by_cases hname : self.serverName = []
  · rw [startReports_of_no_name hname]
    simp [hname]
  · rw [startReports_of_name hname]
    simp [hname]

/-- The port is busy: the library makes no context, the start reports success, and its
worker loops without one. -/
theorem busy_port_reported_as_success :
    ¬(AHTTPServerLWS.new (text "LibWebSocket")).StartReports true false ∧
      ((AHTTPServerLWS.new (text "LibWebSocket")).httpServerStart true).2 = true ∧
      ∃ w ∈ (AHTTPServerLWS.new (text "LibWebSocket")).startedWorker true false,
        w.Loops ∧ w.context = false := by
  have hworker : (AHTTPServerLWS.new (text "LibWebSocket")).startedWorker true false =
      some ⟨.atLoop, .notCalled, false, false, true⟩ := rfl
  refine ⟨fun hrule => ?_, rfl, _, hworker, ThreadState.loops_of_flag ?_ rfl, rfl⟩
  · obtain ⟨w, hw, hserves⟩ := hrule.success rfl
    obtain rfl := Option.mem_unique hworker hw
    exact absurd (hserves.2 [] _ (by simp) rfl) Bool.false_ne_true
  · simp [ThreadState.InRun]

end AHTTPServerLWS

end HttpLws
