import HttpLws.Server

/-!
# The life of the thread objects

Stopping leaves the pointer as it is and starting overwrites it, so the calls
themselves have to keep the pointer and the living thread object together. The
runs begin with `BeginPlay` and end with `EndPlay`.
-/

namespace HttpLws

/-- The rule for one call. -/
structure SoundCall (s : AHTTPServerLWS) (c : ServerCall) (t : AHTTPServerLWS) : Prop where
  /-- Stop and toggle do not act on a deleted object. -/
  live : ∀ thread, s.reached c = some thread → thread.alive
  /-- A deletion is completed: the worker it waits for is not suspended. -/
  returns : c = .stop → ∀ thread, s.target = some thread → ¬thread.suspended
  /-- At most one object is alive. -/
  oneAlive : t.threads.countP (·.alive) ≤ 1

/-- Every call of the run follows the rule, and at its end every created object has
been deleted exactly once. -/
def Managed (s : AHTTPServerLWS) (calls : List ServerCall) : Prop :=
  Runs.EachStep AHTTPServerLWS.step SoundCall s calls ∧
    ∀ thread ∈ (calls.foldl AHTTPServerLWS.call s).threads, thread.deletions = 1

/-- Where the actor is in its life. -/
inductive Phase
  /-- There is no living object. -/
  | stopped
  /-- One object is alive; the pauses of its worker are counted, if it has one. -/
  | running (pauses : Option ℕ)

/-- The number of pauses after a toggle. -/
def pausesAfter (bIsPause : Bool) (n : ℕ) : ℕ := if bIsPause then n + 1 else n - 1

/-- Starts and stops alternate and the last call is a stop, toggles come between a
start and its stop, and no pause is open at a stop. -/
def Paired : Phase → List ServerCall → Prop
  | .stopped, [] => True
  | .running _, [] => False
  | .stopped, .start created :: calls =>
      Paired (.running (if created then some 0 else none)) calls
  | .stopped, .stop :: _ => False
  | .stopped, .toggle _ :: _ => False
  | .running _, .start _ :: _ => False
  | .running pauses, .stop :: calls => (∀ n ∈ pauses, n = 0) ∧ Paired .stopped calls
  | .running pauses, .toggle bIsPause :: calls =>
      Paired (.running (pauses.map (pausesAfter bIsPause))) calls

/-- The actor has been started and is in the given phase: the pointer leads to the
last object, and all others have been deleted once. -/
def InPhase (phase : Phase) (s : AHTTPServerLWS) : Prop :=
  s.serverName ≠ [] ∧ ∃ old thread, s.threads = old ++ [thread] ∧
    s.threadLibWebSocket = some old.length ∧ (∀ o ∈ old, o.deletions = 1) ∧
    match phase with
    | .stopped => thread.deletions = 1
    | .running pauses =>
        thread.deletions = 0 ∧ thread.runnableThread.map (·.suspendCount) = pauses

/-- A worker is suspended exactly when a pause is open. -/
theorem not_suspended_iff (thread : FHTTPThreadLibWebSocket) :
    ¬thread.suspended ↔ ∀ n ∈ thread.runnableThread.map (·.suspendCount), n = 0 := by
  unfold FHTTPThreadLibWebSocket.suspended
  cases thread.runnableThread <;> simp

/-- The pauses of a toggled object. -/
theorem pauses_toggle (thread : FHTTPThreadLibWebSocket) (b : Bool) :
    (thread.toggle b).1.deletions = thread.deletions ∧
      (thread.toggle b).1.runnableThread.map (·.suspendCount) =
        (thread.runnableThread.map (·.suspendCount)).map (pausesAfter b) := by
  unfold FHTTPThreadLibWebSocket.toggle
  cases hworker : thread.runnableThread <;> simp [hworker, FRunnableThread.suspend, pausesAfter]

/-- Changing the last object. -/
theorem modify_last (old : List FHTTPThreadLibWebSocket) (thread : FHTTPThreadLibWebSocket)
    (f : FHTTPThreadLibWebSocket → FHTTPThreadLibWebSocket) :
    (old ++ [thread]).modify old.length f = old ++ [f thread] := by
  induction old with
  | nil => rfl
  | cons o old ih => simp [ih]

/-- Objects that have all been deleted are not alive. -/
theorem countP_alive_of_deleted {old : List FHTTPThreadLibWebSocket}
    (h : ∀ o ∈ old, o.deletions = 1) : old.countP (·.alive) = 0 := by
  rw [List.countP_eq_zero]
  intro o ho
  simp [FHTTPThreadLibWebSocket.alive, h o ho]

/-- A run is managed call by call. -/
theorem managed_cons_iff (s : AHTTPServerLWS) (c : ServerCall) (calls : List ServerCall) :
    Managed s (c :: calls) ↔ SoundCall s c (s.call c) ∧ Managed (s.call c) calls := by
  rw [Managed, Runs.eachStep_cons_some (rfl : s.step c = some (s.call c)), List.foldl_cons,
    and_assoc, Managed]

/-- The object that the pointer of a started actor leads to. -/
theorem target_of_last {s : AHTTPServerLWS} {old : List FHTTPThreadLibWebSocket}
    {thread : FHTTPThreadLibWebSocket} (hthreads : s.threads = old ++ [thread])
    (hpointer : s.threadLibWebSocket = some old.length) : s.target = some thread := by
  simp [AHTTPServerLWS.target, hthreads, hpointer]

/-- A call that acts on the living last object is sound if it returns: the others have
been deleted before. -/
theorem soundCall_of_last {s t : AHTTPServerLWS} {c : ServerCall}
    {old : List FHTTPThreadLibWebSocket} {thread thread' : FHTTPThreadLibWebSocket}
    (htarget : s.target = some thread) (hreached : s.reached c = s.target)
    (halive : thread.deletions = 0) (hold : ∀ o ∈ old, o.deletions = 1)
    (hthreads : t.threads = old ++ [thread']) (hreturns : c = .stop → ¬thread.suspended) :
    SoundCall s c t where
  live o ho := by
    rw [hreached, htarget, Option.some.injEq] at ho
    simp [← ho, FHTTPThreadLibWebSocket.alive, halive]
  returns hc o ho := by
    rw [htarget, Option.some.injEq] at ho
    exact ho ▸ hreturns hc
  oneAlive := by
    rw [hthreads, List.countP_append, countP_alive_of_deleted hold, Nat.zero_add]
    exact List.countP_le_length

/-- Starting a stopped actor is sound and makes it run. -/
theorem start_stopped {s : AHTTPServerLWS} (hs : InPhase .stopped s) (created : Bool) :
    SoundCall s (.start created) (s.call (.start created)) ∧
      InPhase (.running (if created then some 0 else none)) (s.call (.start created)) := by
  obtain ⟨hname, old, thread, hthreads, hpointer, hold, hdeleted⟩ := hs
  have hall : ∀ o ∈ s.threads, o.deletions = 1 := by
    rw [hthreads, List.forall_mem_append, List.forall_mem_singleton]
    exact ⟨hold, hdeleted⟩
  rw [AHTTPServerLWS.call_start hname]
  refine ⟨⟨by simp [AHTTPServerLWS.reached], by simp, ?_⟩,
    hname, s.threads, .new created, rfl, rfl, hall, rfl, ?_⟩
  · rw [List.countP_append, countP_alive_of_deleted hall]
    simp [FHTTPThreadLibWebSocket.new, FHTTPThreadLibWebSocket.alive]
  · cases created <;> simp [FHTTPThreadLibWebSocket.new]

/-- No other call on a stopped actor is sound: the pointer leads to a deleted object. -/
theorem not_soundCall_stopped {s t : AHTTPServerLWS} (hs : InPhase .stopped s) {c : ServerCall}
    (hc : s.reached c = s.target) : ¬SoundCall s c t := by
  intro hsound
  obtain ⟨_, old, thread, hthreads, hpointer, _, hdeleted⟩ := hs
  have halive := hsound.live thread (hc.trans (target_of_last hthreads hpointer))
  simp [FHTTPThreadLibWebSocket.alive, hdeleted] at halive

/-- Starting a running actor makes a second object alive. -/
theorem not_soundCall_start_running {s : AHTTPServerLWS} {pauses : Option ℕ}
    (hs : InPhase (.running pauses) s) (created : Bool) :
    ¬SoundCall s (.start created) (s.call (.start created)) := by
  intro hsound
  obtain ⟨hname, old, thread, hthreads, _, hold, halive, _⟩ := hs
  have hone := hsound.oneAlive
  rw [AHTTPServerLWS.call_start hname, hthreads, List.countP_append, List.countP_append,
    countP_alive_of_deleted hold] at hone
  simp [FHTTPThreadLibWebSocket.new, FHTTPThreadLibWebSocket.alive, halive] at hone

/-- Stopping a running actor is sound when no pause is open, and stops it. -/
theorem stop_running {s : AHTTPServerLWS} {pauses : Option ℕ} (hs : InPhase (.running pauses) s) :
    (SoundCall s .stop (s.call .stop) ↔ ∀ n ∈ pauses, n = 0) ∧
      InPhase .stopped (s.call .stop) := by
  obtain ⟨hname, old, thread, hthreads, hpointer, hold, halive, rfl⟩ := hs
  have htarget := target_of_last hthreads hpointer
  have hcall : s.call .stop =
      ⟨s.serverName, some old.length, old ++ [thread.delete]⟩ := by
    simp [AHTTPServerLWS.call, AHTTPServerLWS.httpServerStop, hpointer, hthreads, modify_last]
  have hdeleted : thread.delete.deletions = 1 := by
    rw [FHTTPThreadLibWebSocket.delete, halive]
  rw [hcall, ← not_suspended_iff]
  refine ⟨⟨fun hsound => hsound.returns rfl thread htarget, fun hfree => ?_⟩,
    hname, old, thread.delete, rfl, rfl, hold, hdeleted⟩
  exact soundCall_of_last htarget rfl halive hold rfl fun _ => hfree

/-- Toggling a running actor is sound and keeps it running. -/
theorem toggle_running {s : AHTTPServerLWS} {pauses : Option ℕ} (hs : InPhase (.running pauses) s)
    (b : Bool) : SoundCall s (.toggle b) (s.call (.toggle b)) ∧
      InPhase (.running (pauses.map (pausesAfter b))) (s.call (.toggle b)) := by
  obtain ⟨hname, old, thread, hthreads, hpointer, hold, halive, rfl⟩ := hs
  have htarget := target_of_last hthreads hpointer
  obtain ⟨hdeletions, hpauses⟩ := pauses_toggle thread b
  have hcall : s.call (.toggle b) =
      ⟨s.serverName, some old.length, old ++ [(thread.toggle b).1]⟩ := by
    simp [AHTTPServerLWS.call, AHTTPServerLWS.httpServerToggle, hpointer, hthreads, modify_last]
  rw [hcall]
  refine ⟨?_, hname, old, (thread.toggle b).1, rfl, rfl, hold, hdeletions.trans halive, hpauses⟩
  exact soundCall_of_last htarget rfl halive hold rfl fun hc => absurd hc (by simp)

/-- From any phase on, a run is managed exactly when its calls are paired. -/
theorem managed_iff_paired {phase : Phase} {s : AHTTPServerLWS} (hs : InPhase phase s)
    (calls : List ServerCall) : Managed s calls ↔ Paired phase calls := by
  induction calls generalizing phase s with
  | nil =>
    obtain ⟨_, old, thread, hthreads, _, hold, hphase⟩ := hs
    simp only [Managed, Runs.eachStep_nil, true_and, List.foldl_nil, hthreads,
      List.forall_mem_append, List.forall_mem_singleton]
    cases phase with
    | stopped => exact iff_of_true ⟨hold, hphase⟩ trivial
    | running pauses =>
      refine iff_of_false (fun h => ?_) id
      rw [hphase.1] at h
      exact absurd h.2 (by decide)
  | cons c calls ih =>
    rw [managed_cons_iff]
    cases phase with
    | stopped =>
      cases c with
      | start created =>
        obtain ⟨hsound, hnext⟩ := start_stopped hs created
        rw [ih hnext, Paired]
        exact and_iff_right hsound
      | stop => exact iff_of_false (fun h => not_soundCall_stopped hs rfl h.1) id
      | toggle b => exact iff_of_false (fun h => not_soundCall_stopped hs rfl h.1) id
    | running pauses =>
      cases c with
      | start created =>
        exact iff_of_false (fun h => not_soundCall_start_running hs created h.1) id
      | stop =>
        obtain ⟨hsound, hnext⟩ := stop_running hs
        rw [hsound, ih hnext, Paired]
      | toggle b =>
        obtain ⟨hsound, hnext⟩ := toggle_running hs b
        rw [ih hnext, Paired]
        exact and_iff_right hsound

/-- **The life of the thread objects.** In a run from `BeginPlay` to `EndPlay`, with
any calls between, at most one object is ever alive, no call acts on a deleted one,
and every object is deleted exactly once, if and only if starts and stops alternate,
toggles come while the server runs, and no pause is open at a stop. -/
theorem managed_from_beginPlay_iff (serverName : FString) (hname : serverName ≠ [])
    (created : Bool) (calls : List ServerCall) :
    Managed (.new serverName) (.start created :: calls ++ [.stop]) ↔
      Paired .stopped (.start created :: calls ++ [.stop]) := by
  have hphase : InPhase (.running (if created then some 0 else none))
      ((AHTTPServerLWS.new serverName).call (.start created)) := by
    rw [AHTTPServerLWS.call_start hname]
    refine ⟨hname, [], .new created, rfl, rfl, by simp, rfl, ?_⟩
    cases created <;> simp [FHTTPThreadLibWebSocket.new]
  have hsound : SoundCall (.new serverName) (.start created)
      ((AHTTPServerLWS.new serverName).call (.start created)) := by
    rw [AHTTPServerLWS.call_start hname]
    refine ⟨by simp [AHTTPServerLWS.reached], by simp, ?_⟩
    simp [AHTTPServerLWS.new, FHTTPThreadLibWebSocket.new, FHTTPThreadLibWebSocket.alive]
  rw [List.cons_append, managed_cons_iff, managed_iff_paired hphase, Paired]
  exact and_iff_right hsound

/-- A server that is paused, resumed and then stopped by `EndPlay` is managed. -/
theorem paused_and_resumed_managed :
    Managed (.new (text "LibWebSocket"))
      (.start true :: [.toggle true, .toggle false] ++ [.stop]) :=
  (managed_from_beginPlay_iff (text "LibWebSocket") (by decide) true
    [.toggle true, .toggle false]).mpr (by simp [Paired, pausesAfter])

/-- A manual stop before `EndPlay`: the second stop deletes the object again. -/
theorem stopped_twice_not_managed :
    ¬Managed (.new (text "LibWebSocket")) (.start true :: [.stop] ++ [.stop]) := by
  rintro ⟨_, hdeleted⟩
  have hone : ∀ n ∈ ((.start true :: [.stop] ++ [.stop] : List ServerCall).foldl
      AHTTPServerLWS.call (.new (text "LibWebSocket"))).threads.map (·.deletions), n = 1 :=
    List.forall_mem_map.mpr hdeleted
  exact absurd hone (by decide)

end HttpLws
