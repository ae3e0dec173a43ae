import HttpLws.Lifecycle

/-!
# Stopping and starting beside the workers

What holds of the actor and its workers in every interleaving: no worker outlives its
object, at most one thread object is at work as long as no start falls on a running
server, and a stop comes to its end unless it waits for a suspended worker.
-/

namespace HttpLws

/-- The steps of the shutdown leave the worker where it is. -/
theorem ThreadState.worker_step_stop {s t : ThreadState} {e : ThreadEvent} (he : ¬e.ofRun)
    (hstep : s.step .gameThread e = some t) (hs : s.worker ≠ .left) : t.worker ≠ .left := by
  cases e with
  | readFlag | testContext | enterService | runHandlers | leaveService => exact absurd rfl he
  | init _ =>
    simp only [step, Option.ite_none_right_eq_some, Option.some.injEq] at hstep
    obtain ⟨_, rfl⟩ := hstep
    simp
  | stopTest | destroyContext | setNull | clearFlag =>
    simp only [step, Option.ite_none_right_eq_some, Option.some.injEq] at hstep
    obtain ⟨_, rfl⟩ := hstep
    exact hs

namespace AHTTPServerLWS

/-- Toggling leaves the pointer alone. -/
theorem pointer_toggle (self : AHTTPServerLWS) (b : Bool) :
    (self.call (.toggle b)).threadLibWebSocket = self.threadLibWebSocket := by
  simp only [call, httpServerToggle]
  split <;> rfl

/-- Stopping leaves the pointer alone. -/
theorem pointer_stop (self : AHTTPServerLWS) :
    (self.call .stop).threadLibWebSocket = self.threadLibWebSocket := by
  simp only [call, httpServerStop]
  split <;> rfl

/-- Without a name there are never any thread objects. -/
theorem threads_call_of_no_name {self : AHTTPServerLWS} (hname : self.serverName = [])
    (hthreads : self.threads = []) (c : ServerCall) : (self.call c).threads = [] := by
  cases c with
  | start created => rw [call, httpServerStart_of_no_name hname, hthreads]
  | stop =>
    simp only [call, httpServerStop]
    split <;> simp [hthreads]
  | toggle b =>
    simp only [call, httpServerToggle]
    split <;> simp [hthreads]

end AHTTPServerLWS

namespace ServerRun

/-- The call that a step completes. -/
def callOf : ServerEvent → Option ServerCall
  | .start created _ => some (.start created)
  | .toggle bIsPause => some (.toggle bIsPause)
  | .endStop => some .stop
  | .beginStop | .stopStep _ | .workerStep _ _ => none

/-- A worker in `Run`, or a context of the library that is still there. -/
def Active (w : ThreadState) : Prop := w.InRun ∨ w.contextAlive = true

/-- At most one thread object is at work. -/
def OneActive (s : ServerRun) : Prop :=
  ∀ p q w v, s.worker p = some w → s.worker q = some v → Active w → Active v → p = q

/-- The condition for one step: a start does not fall on an object with a worker that
has not been deleted. -/
def FreshStart (s : ServerRun) (e : ServerEvent) (_ : ServerRun) : Prop :=
  match e with
  | .start _ _ => ∀ thread, s.actor.target = some thread → thread.alive = true →
      thread.runnableThread = none
  | _ => True

/-- The condition for one step: the destruction of a context is kept apart from the
service of its worker. -/
def KeepsApart (s : ServerRun) (e : ServerEvent) (_ : ServerRun) : Prop :=
  match e with
  | .stopStep e => ∀ p w, s.destroying = some p → s.worker p = some w → w.Apart e w
  | .workerStep p e => ∀ w, s.worker p = some w → w.Apart e w
  | _ => True

/-- A thread object that has come to its end is not at work. -/
theorem not_active_of_finished {w : ThreadState} (hfinished : w.Finished) (hw : w.Orderly) :
    ¬Active w := by
  rintro (hrun | halive)
  · exact hrun.2 hfinished.2
  · rw [hw.after (Or.inr (Or.inr hfinished.1))] at halive
    cases halive

/-- Every step is a whole call on the actor or leaves it alone. -/
theorem actor_step {s t : ServerRun} {e : ServerEvent} (hs : s.step e = some t) :
    t.actor = (callOf e).elim s.actor s.actor.call := by
  cases e with
  | start created contextCreated =>
    simp only [step, Option.ite_none_right_eq_some, Option.some.injEq] at hs
    rw [← hs.2]
    rfl
  | toggle bIsPause =>
    simp only [step, Option.ite_none_right_eq_some, Option.some.injEq] at hs
    rw [← hs.2]
    rfl
  | beginStop =>
    simp only [step, Option.ite_none_right_eq_some, Option.some.injEq] at hs
    rw [← hs.2]
    rfl
  | endStop =>
    obtain ⟨p, -, hs⟩ := Option.bind_eq_some_iff.mp hs
    simp only [Option.ite_none_right_eq_some, Option.some.injEq] at hs
    rw [← hs.2]
    rfl
  | stopStep e =>
    simp only [step, Option.ite_none_left_eq_some] at hs
    obtain ⟨p, -, hmove⟩ := Option.bind_eq_some_iff.mp hs.2
    obtain ⟨w, w', -, -, rfl⟩ := moveWorker_eq_some hmove
    rfl
  | workerStep p e =>
    simp only [step, Option.ite_none_right_eq_some] at hs
    obtain ⟨w, w', -, -, rfl⟩ := moveWorker_eq_some hs.2
    rfl

/-- Every run from the beginning is coherent. -/
theorem coherent_exec {serverName : FString} {t : ServerRun} {events : List ServerEvent}
    (hexec : Runs.exec step (new serverName) events = some t) : Coherent t :=
  Runs.exec_preserves Coherent (fun _ _ _ hs hstep => hs.step hstep) (coherent_new serverName) hexec

/-- **The interleaved run refines the run of whole calls.** Whatever the workers do
between the steps of the game thread, the actor and its thread objects are as after the
completed calls alone, and the worker of a deleted object has left `Run` and has no
context. -/
theorem interleaved_run_refines (serverName : FString) (events : List ServerEvent)
    (t : ServerRun) (hexec : Runs.exec step (new serverName) events = some t) :
    t.actor = (events.filterMap callOf).foldl AHTTPServerLWS.call (.new serverName) ∧
      ∀ p thread, t.actor.threads[p]? = some thread → thread.alive = false →
        ∀ w, t.worker p = some w → ¬w.InRun ∧ w.contextAlive = false := by
  refine ⟨Runs.exec_refines actor callOf _ (fun _ _ _ => actor_step) hexec,
    fun p thread hthread hdeleted w hw => ?_⟩
  have ht := coherent_exec hexec
  have hrest := not_active_of_finished (ht.deleted p thread hthread hdeleted w hw)
    (ht.orderly p w hw)
  exact ⟨fun hrun => hrest (Or.inl hrun),
    Bool.eq_false_iff.mpr fun halive => hrest (Or.inr halive)⟩

/-- A server is stopped while its worker is in the loop, and started again. -/
def restarted : List ServerEvent :=
  [.start true true, .workerStep 0 .readFlag, .beginStop, .stopStep .stopTest,
    .stopStep .destroyContext, .stopStep .setNull, .workerStep 0 .testContext,
    .stopStep .clearFlag, .workerStep 0 .readFlag, .endStop, .start true true]

/-- The run is one of a start, a stop and a start. -/
theorem restarted_refines :
    ∃ t, Runs.exec step (new (text "LibWebSocket")) restarted = some t ∧
      t.actor = [.start true, .stop, .start true].foldl AHTTPServerLWS.call
        (.new (text "LibWebSocket")) := by
  obtain ⟨t, ht⟩ : ∃ t, Runs.exec step (new (text "LibWebSocket")) restarted = some t :=
    ⟨_, rfl⟩
  exact ⟨t, ht, (interleaved_run_refines (text "LibWebSocket") restarted t ht).1⟩

/-- Only the object behind the pointer may be at work. -/
structure AtMostTarget (s : ServerRun) : Prop where
  /-- The run is coherent. -/
  coherent : Coherent s
  /-- All other thread objects have come to their end. -/
  others : ∀ p w, s.worker p = some w → s.actor.threadLibWebSocket ≠ some p → w.Finished

/-- Then at most one thread object is at work. -/
theorem AtMostTarget.oneActive {s : ServerRun} (hs : AtMostTarget s) : OneActive s := by
  have hpointer : ∀ p w, s.worker p = some w → Active w →
      s.actor.threadLibWebSocket = some p := by
    intro p w hw hactive
    by_contra hother
    exact not_active_of_finished (hs.others p w hw hother) (hs.coherent.orderly p w hw) hactive
  intro p q w v hw hv hactive hactive'
  have hp := hpointer p w hw hactive
  rw [hpointer q v hv hactive', Option.some.injEq] at hp
  exact hp.symm

/-- A worker's steps leave the objects that are not behind the pointer at their end. -/
theorem AtMostTarget.moveWorker {s t : ServerRun} {p : ℕ} {e : ThreadEvent}
    (hs : AtMostTarget s) (hmove : s.moveWorker p e = some t) (ht : Coherent t) :
    AtMostTarget t := by
  obtain ⟨w, w', hw, hw', rfl⟩ := moveWorker_eq_some hmove
  refine ⟨ht, fun q u hu hother => ?_⟩
  rw [worker_set hw] at hu
  split_ifs at hu with hqp
  · subst hqp
    rw [(hs.others q w hw hother).no_step (hs.coherent.orderly q w hw)] at hw'
    cases hw'
  · exact hs.others q u hu hother

/-- A start on a server that is not running leaves the old object at its end. -/
theorem AtMostTarget.start {s t : ServerRun} {created contextCreated : Bool}
    (hs : AtMostTarget s) (hstep : s.step (.start created contextCreated) = some t)
    (hfresh : FreshStart s (.start created contextCreated) t) : AtMostTarget t := by
  refine ⟨hs.coherent.step hstep, ?_⟩
  simp only [step, Option.ite_none_right_eq_some, Option.some.injEq] at hstep
  obtain ⟨hidle, rfl⟩ := hstep
  by_cases hname : s.actor.serverName = []
  · have hcall : s.actor.call (.start created) = s.actor := by
      rw [AHTTPServerLWS.call, AHTTPServerLWS.httpServerStart_of_no_name hname]
    rw [if_pos hname, hcall]
    exact hs.others
  · rw [if_neg hname, AHTTPServerLWS.call_start hname]
    intro p w hw hother
    rw [worker_append] at hw
    rw [Ne, Option.some.injEq, ← hs.coherent.sameLength] at hother
    rw [if_neg (Ne.symm hother)] at hw
    by_cases hpointer : s.actor.threadLibWebSocket = some p
    · obtain ⟨thread, hthread⟩ := hs.coherent.exists_thread hw
      have hworker := hs.coherent.hasWorker p thread hthread
      refine hs.coherent.deleted p thread hthread ?_ w hw
      rw [← Bool.not_eq_true]
      intro halive
      have hnone := hfresh thread (by simp [AHTTPServerLWS.target, hpointer, hthread]) halive
      rw [hnone, hw] at hworker
      cases hworker
    · exact hs.others p w hw hpointer

/-- Every step under the condition leaves at most the object behind the pointer at work. -/
theorem AtMostTarget.step {s t : ServerRun} {e : ServerEvent} (hs : AtMostTarget s)
    (hstep : s.step e = some t) (hfresh : FreshStart s e t) : AtMostTarget t := by
  have ht := hs.coherent.step hstep
  cases e with
  | start created contextCreated => exact hs.start hstep hfresh
  | toggle bIsPause =>
    simp only [ServerRun.step, Option.ite_none_right_eq_some, Option.some.injEq] at hstep
    obtain ⟨-, rfl⟩ := hstep
    refine ⟨ht, fun p w hw hother => hs.others p w hw ?_⟩
    rwa [← AHTTPServerLWS.pointer_toggle]
  | beginStop =>
    simp only [ServerRun.step, Option.ite_none_right_eq_some, Option.some.injEq] at hstep
    obtain ⟨-, rfl⟩ := hstep
    exact ⟨ht, hs.others⟩
  | endStop =>
    obtain ⟨q, -, hstep⟩ := Option.bind_eq_some_iff.mp hstep
    simp only [Option.ite_none_right_eq_some, Option.some.injEq] at hstep
    obtain ⟨-, rfl⟩ := hstep
    refine ⟨ht, fun p w hw hother => hs.others p w hw ?_⟩
    rwa [← AHTTPServerLWS.pointer_stop]
  | stopStep e =>
    simp only [ServerRun.step, Option.ite_none_left_eq_some] at hstep
    obtain ⟨p, -, hmove⟩ := Option.bind_eq_some_iff.mp hstep.2
    exact hs.moveWorker hmove ht
  | workerStep p e =>
    simp only [ServerRun.step, Option.ite_none_right_eq_some] at hstep
    exact hs.moveWorker hstep.2 ht

/-- An actor without a name has no thread objects in any run. -/
theorem no_threads_of_no_name {s : ServerRun} {events : List ServerEvent}
    (hexec : Runs.exec step (new []) events = some s) : s.actor.threads = [] := by
  have hinv : s.actor.serverName = [] ∧ s.actor.threads = [] := by
    apply Runs.exec_preserves (fun u : ServerRun => u.actor.serverName = [] ∧ u.actor.threads = [])
      _ ⟨rfl, rfl⟩ hexec
    rintro u e v ⟨hname, hthreads⟩ hstep
    rw [actor_step hstep]
    cases callOf e with
    | none => exact ⟨hname, hthreads⟩
    | some c =>
      exact ⟨(AHTTPServerLWS.serverName_call _ _).trans hname,
        AHTTPServerLWS.threads_call_of_no_name hname hthreads c⟩
  exact hinv.2

/-- No call changes the name of the actor. -/
theorem serverName_exec {serverName : FString} {s : ServerRun} {events : List ServerEvent}
    (hexec : Runs.exec step (new serverName) events = some s) :
    s.actor.serverName = serverName := by
  rw [Runs.exec_refines actor callOf AHTTPServerLWS.call (fun _ _ _ => actor_step) hexec]
  have hfold : ∀ (calls : List ServerCall) (a : AHTTPServerLWS),
      (calls.foldl AHTTPServerLWS.call a).serverName = a.serverName := by
    intro calls
    induction calls with
    | nil => exact fun _ => rfl
    | cons c calls ih => exact fun a => (ih _).trans (AHTTPServerLWS.serverName_call a c)
  exact hfold _ _

/-- A start of a named actor adds an object whose worker has run `Init`. -/
theorem step_start {s : ServerRun} (hidle : s.destroying = none)
    (hname : s.actor.serverName ≠ []) (created contextCreated : Bool) :
    s.step (.start created contextCreated) = some
      ⟨s.actor.call (.start created),
        s.workers ++ [if created then some (.started contextCreated) else none], none⟩ := by
  rw [step, if_pos hidle, if_neg hname, ThreadState.step_init, hidle]
  rfl

/-- A start on a running server can be followed by another that sets a second worker to
work beside the first. -/
theorem two_active_of_not_fresh {s t : ServerRun} {e : ServerEvent} (hs : Coherent s)
    (hname : s.actor.serverName ≠ []) (hstep : s.step e = some t) (hfresh : ¬FreshStart s e t) :
    ∃ u, t.step (.start true true) = some u ∧ ¬OneActive u := by
  cases e with
  | start created contextCreated =>
    obtain ⟨thread, htarget, halive, hworker⟩ : ∃ thread, s.actor.target = some thread ∧
        thread.alive = true ∧ thread.runnableThread ≠ none := by
      simpa [FreshStart] using hfresh
    obtain ⟨p, hpointer, hthread⟩ := Option.bind_eq_some_iff.mp htarget
    have hidle : s.destroying = none := by
      simp only [step, Option.ite_none_right_eq_some] at hstep
      exact hstep.1
    obtain ⟨w, hw⟩ : ∃ w, s.worker p = some w := by
      rw [← Option.isSome_iff_exists, ← hs.hasWorker p thread hthread]
      exact Option.isSome_iff_ne_none.mpr hworker
    have hquiet := hs.quiet p thread hthread halive (by simp [hidle]) w hw
    have hactive : Active w := by
      refine Or.inl ⟨(hs.orderly p w hw).begun, fun hleft => ?_⟩
      rw [(hs.orderly p w hw).leaves hleft] at hquiet
      cases hquiet
    rw [step_start hidle hname, Option.some.injEq] at hstep
    subst hstep
    have hlt := lt_of_worker hw
    refine ⟨_, step_start rfl ((AHTTPServerLWS.serverName_call _ _).trans_ne hname) true true,
      fun hone => ?_⟩
    have hp : ∀ (a : AHTTPServerLWS) (x y : Option ThreadState),
        worker ⟨a, s.workers ++ [x] ++ [y], none⟩ p = some w := by
      intro a x y
      rw [worker, List.append_assoc, List.getElem?_append_left hlt]
      exact hw
    have hq : ∀ (a : AHTTPServerLWS) (x y : Option ThreadState),
        worker ⟨a, s.workers ++ [x] ++ [y], none⟩ (s.workers.length + 1) = y := by
      intro a x y
      rw [worker, List.append_assoc, List.getElem?_append_right (by omega)]
      simp
    have heq := hone p (s.workers.length + 1) w (.started true) (hp _ _ _) (hq _ _ _) hactive
      (Or.inr rfl)
    omega
  | toggle _ | beginStop | endStop | stopStep _ | workerStep _ _ => exact absurd trivial hfresh

/-- **One server at a time.** In every interleaving in which no start falls on a server
that is running, at most one thread object has a worker in `Run` or a context, whatever
was stopped and started before. An interleaving with such a start has a beginning that
ends with it and that can go on to two. -/
theorem one_active_of_fresh (serverName : FString) (events : List ServerEvent) :
    (Runs.EachStep step FreshStart (new serverName) events →
        ∀ t, Runs.exec step (new serverName) events = some t → OneActive t) ∧
      (¬Runs.EachStep step FreshStart (new serverName) events →
        ∃ pre e post s t, events = pre ++ e :: post ∧
          Runs.exec step (new serverName) pre = some s ∧ s.step e = some t ∧
          ¬FreshStart s e t ∧
          ∃ rest u, Runs.exec step (new serverName) (pre ++ e :: rest) = some u ∧
            ¬OneActive u) := by
  constructor
  · intro hrun t hexec
    have ht : AtMostTarget t := Runs.exec_invariant AtMostTarget
      (fun _ _ _ hs hstep hfresh => hs.step hstep hfresh)
      ⟨coherent_new serverName, by simp [new, worker]⟩ hrun hexec
    exact ht.oneActive
  · intro hrun
    obtain ⟨pre, e, post, s, u, rfl, -, hexec, hstep, hfresh⟩ := Runs.exists_first_violation hrun
    have hname : s.actor.serverName ≠ [] := by
      intro hnone
      have hempty := hnone
      rw [serverName_exec hexec] at hempty
      subst hempty
      have hthreads := no_threads_of_no_name hexec
      apply hfresh
      cases e with
      | start created contextCreated =>
        intro thread htarget
        simp [AHTTPServerLWS.target, hthreads] at htarget
      | toggle _ | beginStop | endStop | stopStep _ | workerStep _ _ => trivial
    obtain ⟨v, hv, htwo⟩ := two_active_of_not_fresh (coherent_exec hexec) hname hstep hfresh
    refine ⟨pre, e, post, s, u, rfl, hexec, hstep, hfresh, [.start true true], v, ?_, htwo⟩
    rw [Runs.exec_append, hexec]
    simp [Runs.exec, hstep, hv]

/-- The destructor waits for a worker that is suspended. -/
structure Stuck (p : ℕ) (s : ServerRun) : Prop where
  /-- The game thread is in the destructor of the object. -/
  waits : s.destroying = some p
  /-- The worker is suspended. -/
  paused : s.paused p = true
  /-- It has not left `Run`. -/
  running : ∃ w, s.worker p = some w ∧ w.worker ≠ .left

/-- No step frees the destructor: only the game thread could resume the worker. -/
theorem Stuck.step {p : ℕ} {s t : ServerRun} {e : ServerEvent} (hs : Stuck p s)
    (hstep : s.step e = some t) : Stuck p t := by
  obtain ⟨hwaits, hpaused, w, hw, hrunning⟩ := hs
  cases e with
  | start _ _ | toggle _ | beginStop => simp [ServerRun.step, hwaits] at hstep
  | endStop =>
    simp only [ServerRun.step, hwaits, Option.bind_some, Option.ite_none_right_eq_some] at hstep
    exact absurd (hstep.1 w hw).2 hrunning
  | stopStep e =>
    simp only [ServerRun.step, hwaits, Option.bind_some, Option.ite_none_left_eq_some] at hstep
    obtain ⟨v, v', hv, hv', rfl⟩ := moveWorker_eq_some hstep.2
    obtain rfl := Option.some.inj (hw.symm.trans hv)
    refine ⟨hwaits, hpaused, v', by rw [worker_set hw, if_pos rfl], ?_⟩
    exact ThreadState.worker_step_stop hstep.1 hv' hrunning
  | workerStep q e =>
    simp only [ServerRun.step, Option.ite_none_right_eq_some] at hstep
    have hqp : p ≠ q := by
      rintro rfl
      simp [hpaused] at hstep
    obtain ⟨v, v', hv, hv', rfl⟩ := moveWorker_eq_some hstep.2
    exact ⟨hwaits, hpaused, w, by rw [worker_set hv, if_neg hqp]; exact hw, hrunning⟩

/-- No continuation frees the destructor. -/
theorem stuck_exec {p : ℕ} {s t : ServerRun} {es : List ServerEvent} (hs : Stuck p s)
    (hexec : Runs.exec step s es = some t) : Stuck p t :=
  Runs.exec_preserves (Stuck p) (fun _ _ _ hu hstep => hu.step hstep) hs hexec

/-- A step of a thread object as a step of the whole: `Stop` runs on the game thread. -/
def ofThread (p : ℕ) (e : ThreadEvent) : ServerEvent :=
  if e.ofRun then .workerStep p e else .stopStep e

/-- When the worker is not suspended and the game thread is in the destructor for the steps
of `Stop`, a step of the thread object is one of the whole. -/
theorem step_thread {s : ServerRun} {p : ℕ} {w w' : ThreadState} {e : ThreadEvent}
    (hin : e.ofRun ∨ s.destroying = some p) (hw : s.worker p = some w)
    (hresumed : s.paused p = false) (hstep : w.step .gameThread e = some w') :
    s.step (ofThread p e) = some (s.setWorker p w') := by
  have hmove : s.moveWorker p e = some (s.setWorker p w') := by
    rw [moveWorker, hw, Option.bind_some, hstep, Option.map_some]
  unfold ofThread
  split_ifs with he
  · rw [step, if_pos ⟨he, by simp [hresumed]⟩, hmove]
  · rw [step, if_neg he, hin.resolve_left he, Option.bind_some, hmove]

/-- While the game thread is in the destructor, a step that keeps the destruction of the
context apart from the service does so in the whole. -/
theorem step_ofThread {s : ServerRun} {p : ℕ} {w w' : ThreadState} {e : ThreadEvent}
    (hp : s.destroying = some p) (hw : s.worker p = some w) (hresumed : s.paused p = false)
    (hstep : w.step .gameThread e = some w') (hapart : w.Apart e w') :
    s.step (ofThread p e) = some (s.setWorker p w') ∧
      KeepsApart s (ofThread p e) (s.setWorker p w') := by
  refine ⟨step_thread (Or.inr hp) hw hresumed hstep, ?_⟩
  unfold ofThread
  split_ifs with he
  · intro v hv
    obtain rfl := Option.some.inj (hw.symm.trans hv)
    exact hapart
  · intro q v hq hv
    obtain rfl := Option.some.inj (hp.symm.trans hq)
    obtain rfl := Option.some.inj (hw.symm.trans hv)
    exact hapart

/-- A run of the thread object is then a run of the whole. -/
theorem leads_of_thread {s : ServerRun} {p : ℕ} {w w' : ThreadState}
    (hp : s.destroying = some p) (hw : s.worker p = some w) (hresumed : s.paused p = false)
    (h : Runs.Leads (ThreadState.step .gameThread) ThreadState.Apart w w') :
    Runs.Leads step KeepsApart s (s.setWorker p w') := by
  have hlift := h.map (s.setWorker p) (ofThread p) fun a e b hstep hapart => by
    have ha : (s.setWorker p a).worker p = some a := by
      rw [worker_set hw, if_pos rfl]
    rw [← s.setWorker_setWorker p a b]
    exact step_ofThread hp ha hresumed hstep hapart
  rwa [setWorker_self hw] at hlift

/-- **When a stop comes to its end.** From a moment of any interleaving at which the game
thread is in a destructor, the rest of the stop can go through exactly when the worker of
the object is not suspended, or there is none in `Run`. A stop that waits for a suspended
worker hangs for ever: whatever steps follow, kept apart or not, the game thread is
still in that destructor. -/
theorem stop_returns_iff (serverName : FString) (events : List ServerEvent) (s : ServerRun)
    (hexec : Runs.exec step (new serverName) events = some s) (p : ℕ)
    (hp : s.destroying = some p) :
    ((∃ t, Runs.Leads step KeepsApart s t ∧ t.destroying = none) ↔
      ¬(s.paused p = true ∧ ∃ w, s.worker p = some w ∧ w.worker ≠ .left)) ∧
    (s.paused p = true → (∃ w, s.worker p = some w ∧ w.worker ≠ .left) →
      ∀ es t, Runs.exec step s es = some t → t.destroying = some p) := by
  have hs := coherent_exec hexec
  refine ⟨⟨?_, ?_⟩, fun hpaused hrunning es t hes =>
    (stuck_exec ⟨hp, hpaused, hrunning⟩ hes).waits⟩
  · rintro ⟨t, ⟨es, -, hes⟩, hfree⟩ ⟨hpaused, hrunning⟩
    have hstuck := stuck_exec ⟨hp, hpaused, hrunning⟩ hes
    rw [hstuck.waits] at hfree
    cases hfree
  · intro hfree
    have hend : ∀ u : ServerRun, u.destroying = some p → (∀ w ∈ u.worker p, w.Finished) →
        Runs.Leads step KeepsApart u
          { u with actor := u.actor.call .stop, destroying := none } := by
      intro u hu hfinished
      have hstep : u.step .endStop =
          some { u with actor := u.actor.call .stop, destroying := none } := by
        rw [step, hu, Option.bind_some, if_pos hfinished]
      exact .head hstep trivial (.refl _)
    cases hw : s.worker p with
    | none => exact ⟨_, hend s hp (by simp [hw]), rfl⟩
    | some w =>
      by_cases hleft : w.worker = .left
      · have hfinished : w.Finished := ⟨(hs.orderly p w hw).leaves hleft, hleft⟩
        exact ⟨_, hend s hp (by simpa [hw] using hfinished), rfl⟩
      · have hresumed : s.paused p = false := by
          rw [← Bool.not_eq_true]
          exact fun hpaused => hfree ⟨hpaused, w, hw, hleft⟩
        obtain ⟨w', hleads, hfinished⟩ := ThreadState.leads_finished (hs.orderly p w hw)
        have hmoved := leads_of_thread hp hw hresumed hleads
        refine ⟨_, hmoved.trans (hend _ hp ?_), rfl⟩
        intro v hv
        rw [worker_set hw, if_pos rfl] at hv
        obtain rfl := Option.some.inj hv
        exact hfinished

/-- The server is paused and then stopped. -/
theorem paused_stop_hangs :
    ∃ s, Runs.exec step (new (text "LibWebSocket")) [.start true true, .toggle true, .beginStop] =
        some s ∧ ∀ es t, Runs.exec step s es = some t → t.destroying = some 0 :=
  ⟨_, rfl, (stop_returns_iff (text "LibWebSocket") [.start true true, .toggle true, .beginStop] _
    rfl 0 rfl).2 rfl ⟨_, rfl, by decide⟩⟩

end ServerRun

end HttpLws
