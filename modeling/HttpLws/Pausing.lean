import HttpLws.ServerLifetime

/-!
# Pausing the worker

A toggle asks for a state, but the engine counts: two pauses need two resumptions.
The runs here act on live thread objects only, so what is at stake is whether the
counts agree with the states that were asked for.
-/

namespace HttpLws

/-- The calls act on no deleted object. -/
def ActsOnLive (s : AHTTPServerLWS) (c : ServerCall) (_ : AHTTPServerLWS) : Prop :=
  ∀ thread, s.reached c = some thread → thread.alive

/-- The rule for one call: a toggle that succeeds leaves the worker suspended exactly
when a pause was asked for, and a deletion does not wait for a suspended worker. -/
def PauseRule (s : AHTTPServerLWS) (c : ServerCall) (t : AHTTPServerLWS) : Prop :=
  match c with
  | .start _ => True
  | .stop => ∀ thread, s.target = some thread → ¬thread.suspended
  | .toggle bIsPause => (s.httpServerToggle bIsPause).2 = true →
      ∃ thread, t.target = some thread ∧ thread.suspended = bIsPause

instance (s : AHTTPServerLWS) (c : ServerCall) (t : AHTTPServerLWS) :
    Decidable (ActsOnLive s c t) :=
  inferInstanceAs (Decidable (∀ thread ∈ s.reached c, thread.alive = true))

instance (s : AHTTPServerLWS) : (c : ServerCall) → (t : AHTTPServerLWS) →
    Decidable (PauseRule s c t)
  | .start _, _ => .isTrue trivial
  | .stop, _ => inferInstanceAs (Decidable (∀ thread ∈ s.target, ¬thread.suspended = true))
  | .toggle bIsPause, t => inferInstanceAs (Decidable ((s.httpServerToggle bIsPause).2 = true →
      ∃ thread ∈ t.target, thread.suspended = bIsPause))

/-- Between two starts or resumptions of a worker there is at most one pause, and no
pause is open at a stop. `pauses` are the open pauses, if there is a worker. -/
def Balanced : (pauses : Option ℕ) → List ServerCall → Prop
  | _, [] => True
  | _, .start created :: calls => Balanced (if created then some 0 else none) calls
  | pauses, .stop :: calls => (∀ n ∈ pauses, n = 0) ∧ Balanced none calls
  | pauses, .toggle bIsPause :: calls =>
      (bIsPause = false → ∀ n ∈ pauses, n ≤ 1) ∧
        Balanced (pauses.map (pausesAfter bIsPause)) calls

/-- The open pauses of the worker behind the pointer. -/
def openPauses (s : AHTTPServerLWS) : Option ℕ :=
  s.target.bind fun thread =>
    if thread.alive then thread.runnableThread.map (·.suspendCount) else none

/-- Without an object behind the pointer, stops and toggles change nothing there. -/
theorem target_call_of_none {s : AHTTPServerLWS} (h : s.target = none) :
    (s.call .stop).target = none ∧
      ∀ b, (s.call (.toggle b)).target = none ∧ (s.httpServerToggle b).2 = false := by
  unfold AHTTPServerLWS.target at h ⊢
  cases hpointer : s.threadLibWebSocket with
  | none => simp [AHTTPServerLWS.call, AHTTPServerLWS.httpServerStop,
      AHTTPServerLWS.httpServerToggle, hpointer]
  | some p =>
    rw [hpointer, Option.bind_some] at h
    simp [AHTTPServerLWS.call, AHTTPServerLWS.httpServerStop, AHTTPServerLWS.httpServerToggle,
      hpointer, h]

/-- A new object has no open pause. -/
theorem openPauses_start {s : AHTTPServerLWS} (hname : s.serverName ≠ []) (created : Bool) :
    openPauses (s.call (.start created)) = if created then some 0 else none := by
  rw [AHTTPServerLWS.call_start hname]
  cases created <;> simp [openPauses, AHTTPServerLWS.target, FHTTPThreadLibWebSocket.new,
    FHTTPThreadLibWebSocket.alive]

/-- A stop follows the rule when no pause is open, and leaves no live worker behind
the pointer. -/
theorem pauseRule_stop {s : AHTTPServerLWS} (hlive : ActsOnLive s .stop (s.call .stop)) :
    (PauseRule s .stop (s.call .stop) ↔ ∀ n ∈ openPauses s, n = 0) ∧
      openPauses (s.call .stop) = none := by
  cases htarget : s.target with
  | none =>
    obtain ⟨hstop, _⟩ := target_call_of_none htarget
    simp [PauseRule, openPauses, htarget, hstop]
  | some thread =>
    have halive := hlive thread htarget
    obtain ⟨hstop, _⟩ := AHTTPServerLWS.target_call_of_target htarget
    have hdeleted : thread.delete.alive = false := by
      simp [FHTTPThreadLibWebSocket.delete, FHTTPThreadLibWebSocket.alive]
    constructor
    · rw [openPauses, htarget, Option.bind_some, if_pos halive, ← not_suspended_iff]
      simp [PauseRule, htarget]
    · simp [openPauses, hstop, hdeleted]

/-- A toggle follows the rule unless it is a resumption and more than one pause is
open. It counts the open pauses up or down. -/
theorem pauseRule_toggle {s : AHTTPServerLWS} {b : Bool}
    (hlive : ActsOnLive s (.toggle b) (s.call (.toggle b))) :
    (PauseRule s (.toggle b) (s.call (.toggle b)) ↔
        (b = false → ∀ n ∈ openPauses s, n ≤ 1)) ∧
      openPauses (s.call (.toggle b)) = (openPauses s).map (pausesAfter b) := by
  cases htarget : s.target with
  | none =>
    obtain ⟨htoggled, hresult⟩ := (target_call_of_none htarget).2 b
    simp [PauseRule, openPauses, htarget, htoggled, hresult]
  | some thread =>
    have halive := hlive thread htarget
    obtain ⟨htoggled, hresult⟩ := (AHTTPServerLWS.target_call_of_target htarget).2 b
    obtain ⟨hdeletions, hpauses⟩ := pauses_toggle thread b
    have halive' : (thread.toggle b).1.alive = true := by
      rw [FHTTPThreadLibWebSocket.alive, hdeletions]
      exact halive
    constructor
    · simp only [PauseRule, hresult, htoggled, openPauses, htarget, Option.bind_some, halive,
        if_true, Option.some.injEq, exists_eq_left']
      cases hworker : thread.runnableThread with
      | none => simp [FHTTPThreadLibWebSocket.toggle, hworker]
      | some worker =>
        cases b <;> simp [FHTTPThreadLibWebSocket.toggle, hworker,
          FHTTPThreadLibWebSocket.suspended, FRunnableThread.suspend, Nat.sub_eq_zero_iff_le]
    · simp only [openPauses, htoggled, htarget, Option.bind_some, halive, halive', if_true, hpauses]

/-- From any state on, the rule holds of a run on live objects exactly when the calls
are balanced against the open pauses. -/
theorem eachStep_pauseRule_iff {s : AHTTPServerLWS} (hname : s.serverName ≠ [])
    {calls : List ServerCall} (hlive : Runs.EachStep AHTTPServerLWS.step ActsOnLive s calls) :
    Runs.EachStep AHTTPServerLWS.step PauseRule s calls ↔ Balanced (openPauses s) calls := by
  induction calls generalizing s with
  | nil => simp [Balanced]
  | cons c calls ih =>
    have hstep : s.step c = some (s.call c) := rfl
    rw [Runs.eachStep_cons_some hstep] at hlive ⊢
    have hrest := ih (s.serverName_call c ▸ hname) hlive.2
    rw [hrest]
    cases c with
    | start created =>
      rw [openPauses_start hname, Balanced]
      exact and_iff_right trivial
    | stop =>
      obtain ⟨hrule, hnone⟩ := pauseRule_stop hlive.1
      rw [hrule, hnone, Balanced]
    | toggle b =>
      obtain ⟨hrule, hpauses⟩ := pauseRule_toggle hlive.1
      rw [hrule, hpauses, Balanced]

/-- An actor without a name never has a thread object. -/
theorem call_of_no_name (c : ServerCall) :
    (AHTTPServerLWS.new []).call c = AHTTPServerLWS.new [] := by
  cases c <;> rfl

/-- **Pauses and resumptions.** In a run that acts on live thread objects only, every
successful toggle leaves the worker suspended exactly when it asked for a pause and
no deletion waits for a suspended worker, if and only if every resumption follows at
most one pause and no pause is open at a stop (or the actor has no name, and so
never a worker). -/
theorem last_toggle_decides_iff (serverName : FString) (calls : List ServerCall)
    (hlive : Runs.EachStep AHTTPServerLWS.step ActsOnLive (.new serverName) calls) :
    Runs.EachStep AHTTPServerLWS.step PauseRule (.new serverName) calls ↔
      serverName = [] ∨ Balanced none calls := by
  by_cases hname : serverName = []
  · subst hname
    refine iff_of_true ?_ (Or.inl rfl)
    clear hlive
    induction calls with
    | nil => trivial
    | cons c calls ih =>
      have hstep : (AHTTPServerLWS.new []).step c = some (.new []) :=
        congrArg some (call_of_no_name c)
      rw [Runs.eachStep_cons_some hstep]
      refine ⟨?_, ih⟩
      cases c <;> simp [PauseRule, AHTTPServerLWS.new, AHTTPServerLWS.target,
        AHTTPServerLWS.httpServerToggle]
  · rw [eachStep_pauseRule_iff hname hlive]
    simp [hname, openPauses, AHTTPServerLWS.target, AHTTPServerLWS.new]

/-- One pause, one resumption and a stop follow the rule. -/
theorem pause_resume_stop_follows_rule :
    Runs.EachStep AHTTPServerLWS.step PauseRule (.new (text "LibWebSocket"))
      [.start true, .toggle true, .toggle false, .stop] :=
  (last_toggle_decides_iff (text "LibWebSocket")
    [.start true, .toggle true, .toggle false, .stop] (by decide)).mpr
    (Or.inr (by simp [Balanced, pausesAfter]))

/-- After two pauses one resumption leaves the worker suspended, although all calls
act on the one live object. -/
theorem paused_twice_stays_suspended :
    Runs.EachStep AHTTPServerLWS.step ActsOnLive (.new (text "LibWebSocket"))
        [.start true, .toggle true, .toggle true, .toggle false] ∧
      ¬Runs.EachStep AHTTPServerLWS.step PauseRule (.new (text "LibWebSocket"))
        [.start true, .toggle true, .toggle true, .toggle false] := by
  decide

end HttpLws
