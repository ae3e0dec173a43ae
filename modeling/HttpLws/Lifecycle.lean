import HttpLws.ServerLifetime
import HttpLws.Shutdown
import HttpLws.Start

/-!
# The actor and its workers

The game thread calls the actor, and every thread object has a worker that runs beside
it. Stopping is not one step: the destructor runs `Stop` in the midst of the workers'
steps and waits for its own worker. A suspended worker takes no step. Seen from the
actor's side the interleaved run is a run of whole calls.
-/

namespace HttpLws

/-- The actor with the workers of all thread objects it has created. -/
structure ServerRun where
  /-- The actor and its thread objects. -/
  actor : AHTTPServerLWS
  /-- The worker of each thread object; none where the engine could not create it. -/
  workers : List (Option ThreadState)
  /-- The thread object whose destructor the game thread is in. -/
  destroying : Option ℕ

/-- A step of the game thread or of a worker. -/
inductive ServerEvent
  /-- `HTTP_Server_Start`, with the outcomes of `FRunnableThread::Create` and
  `lws_create_context`. -/
  | start (created contextCreated : Bool)
  /-- `HTTP_Server_Toggle` -/
  | toggle (bIsPause : Bool)
  /-- `HTTP_Server_Stop` enters the destructor. -/
  | beginStop
  /-- A step of `Stop` in the destructor. -/
  | stopStep (e : ThreadEvent)
  /-- `Kill(true)` has returned and the object is freed. -/
  | endStop
  /-- A step of the worker of a thread object. -/
  | workerStep (p : ℕ) (e : ThreadEvent)

/-- The steps of `Run` leave the shutdown alone. -/
theorem ThreadState.stop_step_ofRun {s t : ThreadState} {e : ThreadEvent} (he : e.ofRun)
    (hstep : s.step .gameThread e = some t) : t.stop = s.stop := by
  rcases ThreadEvent.ofRun_iff.mp he with rfl | rfl | rfl | rfl | rfl <;>
    simp only [step, Option.ite_none_right_eq_some, Option.some.injEq] at hstep <;>
    obtain ⟨_, rfl⟩ := hstep <;> rfl

namespace ServerRun

/-- Before the first call. -/
def new (serverName : FString) : ServerRun := ⟨.new serverName, [], none⟩

/-- The worker of the thread object with a number. -/
def worker (s : ServerRun) (p : ℕ) : Option ThreadState := (s.workers[p]?).join

/-- The engine has suspended the worker of the thread object with a number. -/
def paused (s : ServerRun) (p : ℕ) : Bool := s.actor.threads[p]?.any (·.suspended)

/-- The worker of a thread object is now here. -/
def setWorker (s : ServerRun) (p : ℕ) (w : ThreadState) : ServerRun :=
  { s with workers := s.workers.set p (some w) }

/-- The worker of a thread object takes a step of its own model. -/
def moveWorker (s : ServerRun) (p : ℕ) (e : ThreadEvent) : Option ServerRun :=
  (s.worker p).bind fun w => (w.step .gameThread e).map (s.setWorker p)

/-- One step, if it is enabled. The game thread does nothing else while it is in a
destructor, and leaves it when there is no worker or the worker has left `Run`. -/
def step (s : ServerRun) : ServerEvent → Option ServerRun
  | .start created contextCreated =>
      if s.destroying = none then
        some { s with
          actor := s.actor.call (.start created)
          workers := if s.actor.serverName = [] then s.workers else
            s.workers ++ [if created then
              ThreadState.initial.step .gameThread (.init contextCreated) else none] }
      else none
  | .toggle bIsPause =>
      if s.destroying = none then some { s with actor := s.actor.call (.toggle bIsPause) }
      else none
  | .beginStop =>
      if s.destroying = none then some { s with destroying := s.actor.threadLibWebSocket }
      else none
  | .stopStep e =>
      if e.ofRun then none else s.destroying.bind fun p => s.moveWorker p e
  | .endStop =>
      s.destroying.bind fun p =>
        if ∀ w ∈ s.worker p, w.Finished then
          some { s with actor := s.actor.call .stop, destroying := none }
        else none
  | .workerStep p e => if e.ofRun ∧ !s.paused p then s.moveWorker p e else none

/-- What the actor, its thread objects and their workers have to do with each other in
every run. -/
structure Coherent (s : ServerRun) : Prop where
  /-- There is an entry for each thread object. -/
  sameLength : s.workers.length = s.actor.threads.length
  /-- Exactly the objects with an engine thread have a worker. -/
  hasWorker : ∀ p thread, s.actor.threads[p]? = some thread →
    thread.runnableThread.isSome = (s.worker p).isSome
  /-- Every worker is orderly. -/
  orderly : ∀ p w, s.worker p = some w → w.Orderly
  /-- The worker of a deleted object has come to its end. -/
  deleted : ∀ p thread, s.actor.threads[p]? = some thread → thread.alive = false →
    ∀ w, s.worker p = some w → w.Finished
  /-- A living object is shut down in its destructor only. -/
  quiet : ∀ p thread, s.actor.threads[p]? = some thread → thread.alive = true →
    s.destroying ≠ some p → ∀ w, s.worker p = some w → w.stop = .notCalled
  /-- The destructor belongs to the object behind the pointer. -/
  inDestructor : ∀ p, s.destroying = some p → s.actor.threadLibWebSocket = some p

/-- There is nothing before the first call. -/
theorem coherent_new (serverName : FString) : Coherent (new serverName) := by
  constructor <;> simp [new, AHTTPServerLWS.new, worker]

/-- A worker has an entry. -/
theorem lt_of_worker {s : ServerRun} {p : ℕ} {w : ThreadState} (hw : s.worker p = some w) :
    p < s.workers.length := by
  by_contra hge
  rw [worker, List.getElem?_eq_none (by omega)] at hw
  cases hw

/-- A worker belongs to one of the thread objects. -/
theorem Coherent.exists_thread {s : ServerRun} (hs : Coherent s) {p : ℕ} {w : ThreadState}
    (hw : s.worker p = some w) : ∃ thread, s.actor.threads[p]? = some thread := by
  have hlt := lt_of_worker hw
  rw [hs.sameLength] at hlt
  exact ⟨_, List.getElem?_eq_getElem hlt⟩

/-- The worker of an object when another one is added. -/
theorem worker_append {s : ServerRun} {p : ℕ} {actor : AHTTPServerLWS} {w : Option ThreadState}
    (destroying : Option ℕ) :
    worker ⟨actor, s.workers ++ [w], destroying⟩ p =
      if p = s.workers.length then w else s.worker p := by
  unfold worker
  rcases Nat.lt_trichotomy p s.workers.length with hlt | rfl | hgt
  · rw [if_neg hlt.ne, List.getElem?_append_left hlt]
  · simp
  · rw [if_neg hgt.ne', List.getElem?_eq_none (by simp; omega),
      List.getElem?_eq_none (by omega)]

/-- The worker of an object when that of one object moves. -/
theorem worker_set {s : ServerRun} {p : ℕ} {w : ThreadState} (hp : s.worker p = some w)
    (w' : ThreadState) (q : ℕ) :
    (s.setWorker p w').worker q =
      if q = p then some w' else s.worker q := by
  have hlt := lt_of_worker hp
  unfold worker setWorker
  by_cases hqp : q = p
  · simp [hqp, hlt]
  · rw [if_neg hqp, List.getElem?_set_ne (Ne.symm hqp)]

/-- Where the worker of an object already is. -/
theorem setWorker_self {s : ServerRun} {p : ℕ} {w : ThreadState} (hp : s.worker p = some w) :
    s.setWorker p w = s := by
  have hget : s.workers[p]? = some (some w) := Option.join_eq_some_iff.mp hp
  obtain ⟨hlt, hsame⟩ := List.getElem?_eq_some_iff.mp hget
  rw [setWorker, ← hsame, List.set_getElem_self hlt]

/-- Only the last place of a worker counts. -/
theorem setWorker_setWorker (s : ServerRun) (p : ℕ) (w w' : ThreadState) :
    (s.setWorker p w).setWorker p w' = s.setWorker p w' := by
  rw [setWorker, setWorker, setWorker, List.set_set]

/-- A start keeps the run coherent. -/
theorem Coherent.start {s t : ServerRun} {created contextCreated : Bool} (hs : Coherent s)
    (hstep : s.step (.start created contextCreated) = some t) : Coherent t := by
  simp only [step, Option.ite_none_right_eq_some, Option.some.injEq] at hstep
  obtain ⟨hidle, rfl⟩ := hstep
  by_cases hname : s.actor.serverName = []
  · have hcall : s.actor.call (.start created) = s.actor := by
      rw [AHTTPServerLWS.call, AHTTPServerLWS.httpServerStart_of_no_name hname]
    rw [if_pos hname, hcall]
    exact hs
  · rw [if_neg hname, AHTTPServerLWS.call_start hname, ThreadState.step_init]
    have hlast : ∀ p thread, (s.actor.threads ++ [FHTTPThreadLibWebSocket.new created])[p]? =
        some thread → (p = s.workers.length ∧ thread = .new created) ∨
          (p ≠ s.workers.length ∧ s.actor.threads[p]? = some thread) := by
      intro p thread hthread
      rw [hs.sameLength]
      rcases Nat.lt_trichotomy p s.actor.threads.length with hlt | rfl | hgt
      · rw [List.getElem?_append_left hlt] at hthread
        exact Or.inr ⟨hlt.ne, hthread⟩
      · simp only [List.getElem?_concat_length, Option.some.injEq] at hthread
        exact Or.inl ⟨rfl, hthread.symm⟩
      · rw [List.getElem?_eq_none (by simp; omega)] at hthread
        cases hthread
    constructor
    · simp [hs.sameLength]
    · intro p thread hthread
      rw [worker_append]
      rcases hlast p thread hthread with ⟨hp, rfl⟩ | ⟨hp, hold⟩
      · rw [if_pos hp]
        cases created <;> rfl
      · rw [if_neg hp, hs.hasWorker p thread hold]
    · intro p w hw
      rw [worker_append] at hw
      split_ifs at hw with hp hcreated
      · obtain rfl := Option.some.inj hw
        exact ThreadState.orderly_started contextCreated
      · exact hs.orderly p w hw
    · intro p thread hthread hdeleted w hw
      rw [worker_append] at hw
      rcases hlast p thread hthread with ⟨hp, rfl⟩ | ⟨hp, hold⟩
      · simp [FHTTPThreadLibWebSocket.new, FHTTPThreadLibWebSocket.alive] at hdeleted
      · rw [if_neg hp] at hw
        exact hs.deleted p thread hold hdeleted w hw
    · intro p thread hthread halive hother w hw
      rw [worker_append] at hw
      rcases hlast p thread hthread with ⟨hp, rfl⟩ | ⟨hp, hold⟩
      · rw [if_pos hp] at hw
        split_ifs at hw
        obtain rfl := Option.some.inj hw
        rfl
      · rw [if_neg hp] at hw
        exact hs.quiet p thread hold halive hother w hw
    · intro p hp
      rw [hidle] at hp
      cases hp

/-- The objects of a list in which one is changed. -/
theorem exists_of_modify {threads : List FHTTPThreadLibWebSocket} {q p : ℕ}
    {f : FHTTPThreadLibWebSocket → FHTTPThreadLibWebSocket} {thread : FHTTPThreadLibWebSocket}
    (h : (threads.modify q f)[p]? = some thread) :
    ∃ old, threads[p]? = some old ∧ thread = if q = p then f old else old := by
  rw [List.getElem?_modify] at h
  obtain ⟨old, hold, hthread⟩ := Option.map_eq_some_iff.mp h
  refine ⟨old, hold, ?_⟩
  split_ifs at hthread ⊢ <;> exact hthread.symm

/-- Toggling keeps the run coherent: no object is deleted or loses its worker. -/
theorem Coherent.toggle {s t : ServerRun} {bIsPause : Bool} (hs : Coherent s)
    (hstep : s.step (.toggle bIsPause) = some t) : Coherent t := by
  simp only [step, Option.ite_none_right_eq_some, Option.some.injEq] at hstep
  obtain ⟨hidle, rfl⟩ := hstep
  have hsame : ∀ old : FHTTPThreadLibWebSocket, (old.toggle bIsPause).1.alive = old.alive ∧
      (old.toggle bIsPause).1.runnableThread.isSome = old.runnableThread.isSome := by
    intro old
    obtain ⟨hdeletions, hpauses⟩ := pauses_toggle old bIsPause
    refine ⟨by simp [FHTTPThreadLibWebSocket.alive, hdeletions], ?_⟩
    have hisSome := congrArg Option.isSome hpauses
    simpa using hisSome
  cases hpointer : s.actor.threadLibWebSocket with
  | none =>
    have hcall : s.actor.call (.toggle bIsPause) = s.actor := by
      simp [AHTTPServerLWS.call, AHTTPServerLWS.httpServerToggle, hpointer]
    rw [hcall]
    exact hs
  | some q =>
    have hcall : s.actor.call (.toggle bIsPause) = { s.actor with
        threads := s.actor.threads.modify q fun t => (t.toggle bIsPause).1 } := by
      simp [AHTTPServerLWS.call, AHTTPServerLWS.httpServerToggle, hpointer]
    rw [hcall]
    have hback : ∀ (p : ℕ) (thread : FHTTPThreadLibWebSocket),
        (s.actor.threads.modify q fun t => (t.toggle bIsPause).1)[p]? = some thread →
          ∃ old, s.actor.threads[p]? = some old ∧ thread.alive = old.alive ∧
            thread.runnableThread.isSome = old.runnableThread.isSome := by
      intro p thread hthread
      obtain ⟨old, hold, rfl⟩ := exists_of_modify hthread
      refine ⟨old, hold, ?_⟩
      split_ifs
      · exact hsame old
      · exact ⟨rfl, rfl⟩
    constructor
    · simp [hs.sameLength]
    · intro p thread hthread
      obtain ⟨old, hold, -, hisSome⟩ := hback p thread hthread
      exact hisSome.trans (hs.hasWorker p old hold)
    · exact hs.orderly
    · intro p thread hthread hdeleted
      obtain ⟨old, hold, halive, -⟩ := hback p thread hthread
      exact hs.deleted p old hold (halive.symm.trans hdeleted)
    · intro p thread hthread halive' hother
      obtain ⟨old, hold, halive, -⟩ := hback p thread hthread
      exact hs.quiet p old hold (halive.symm.trans halive') hother
    · intro p hp
      rw [hidle] at hp
      cases hp

/-- Entering the destructor keeps the run coherent. -/
theorem Coherent.beginStop {s t : ServerRun} (hs : Coherent s)
    (hstep : s.step .beginStop = some t) : Coherent t := by
  simp only [step, Option.ite_none_right_eq_some, Option.some.injEq] at hstep
  obtain ⟨hidle, rfl⟩ := hstep
  refine ⟨hs.sameLength, hs.hasWorker, hs.orderly, hs.deleted, fun p thread hthread halive _ => ?_,
    fun p hp => hp⟩
  exact hs.quiet p thread hthread halive (by simp [hidle])

/-- What a step of a worker does. -/
theorem moveWorker_eq_some {s t : ServerRun} {p : ℕ} {e : ThreadEvent}
    (h : s.moveWorker p e = some t) :
    ∃ w w', s.worker p = some w ∧ w.step .gameThread e = some w' ∧
      t = s.setWorker p w' := by
  obtain ⟨w, hw, h⟩ := Option.bind_eq_some_iff.mp h
  obtain ⟨w', hw', rfl⟩ := Option.map_eq_some_iff.mp h
  exact ⟨w, w', hw, hw', rfl⟩

/-- A step of a worker keeps the run coherent, when it leaves the shutdown of the object
alone or the game thread is in its destructor. -/
theorem Coherent.moveWorker {s t : ServerRun} {p : ℕ} {e : ThreadEvent} (hs : Coherent s)
    (hstep : s.moveWorker p e = some t) (he : e.ofRun ∨ s.destroying = some p) : Coherent t := by
  obtain ⟨w, w', hw, hw', rfl⟩ := moveWorker_eq_some hstep
  have horderly := hs.orderly p w hw
  constructor
  · simp [setWorker, hs.sameLength]
  · intro q thread hthread
    rw [worker_set hw]
    split_ifs with hqp
    · subst hqp
      rw [hs.hasWorker q thread hthread, hw]
      rfl
    · exact hs.hasWorker q thread hthread
  · intro q u hu
    rw [worker_set hw] at hu
    split_ifs at hu with hqp
    · obtain rfl := Option.some.inj hu
      exact horderly.step hw'
    · exact hs.orderly q u hu
  · intro q thread hthread hdeleted u hu
    rw [worker_set hw] at hu
    split_ifs at hu with hqp
    · subst hqp
      have hfinished := hs.deleted q thread hthread hdeleted w hw
      rw [hfinished.no_step horderly] at hw'
      cases hw'
    · exact hs.deleted q thread hthread hdeleted u hu
  · intro q thread hthread halive hother u hu
    rw [worker_set hw] at hu
    split_ifs at hu with hqp
    · subst hqp
      obtain rfl := Option.some.inj hu
      rcases he with he | he
      · rw [ThreadState.stop_step_ofRun he hw']
        exact hs.quiet q thread hthread halive hother w hw
      · exact absurd he hother
    · exact hs.quiet q thread hthread halive hother u hu
  · exact hs.inDestructor

/-- Freeing an object keeps the run coherent: its worker has come to its end. -/
theorem Coherent.endStop {s t : ServerRun} (hs : Coherent s)
    (hstep : s.step .endStop = some t) : Coherent t := by
  obtain ⟨q, hq, hstep⟩ := Option.bind_eq_some_iff.mp hstep
  simp only [Option.ite_none_right_eq_some, Option.some.injEq] at hstep
  obtain ⟨hfinished, rfl⟩ := hstep
  have hcall : s.actor.call .stop = { s.actor with
      threads := s.actor.threads.modify q FHTTPThreadLibWebSocket.delete } := by
    simp [AHTTPServerLWS.call, AHTTPServerLWS.httpServerStop, hs.inDestructor q hq]
  rw [hcall]
  have hback : ∀ (p : ℕ) (thread : FHTTPThreadLibWebSocket),
      (s.actor.threads.modify q FHTTPThreadLibWebSocket.delete)[p]? = some thread →
        ∃ old, s.actor.threads[p]? = some old ∧
          thread.runnableThread = old.runnableThread ∧
          (p = q ∧ thread.alive = false ∨ p ≠ q ∧ thread.alive = old.alive) := by
    intro p thread hthread
    obtain ⟨old, hold, rfl⟩ := exists_of_modify hthread
    refine ⟨old, hold, ?_⟩
    split_ifs with hqp
    · exact ⟨rfl, Or.inl ⟨hqp.symm, by
        simp [FHTTPThreadLibWebSocket.alive, FHTTPThreadLibWebSocket.delete]⟩⟩
    · exact ⟨rfl, Or.inr ⟨Ne.symm hqp, rfl⟩⟩
  constructor
  · simp [hs.sameLength]
  · intro p thread hthread
    obtain ⟨old, hold, hrunnable, -⟩ := hback p thread hthread
    rw [hrunnable]
    exact hs.hasWorker p old hold
  · exact hs.orderly
  · intro p thread hthread hdeleted w hw
    obtain ⟨old, hold, -, ⟨rfl, -⟩ | ⟨-, halive⟩⟩ := hback p thread hthread
    · exact hfinished w hw
    · exact hs.deleted p old hold (halive.symm.trans hdeleted) w hw
  · intro p thread hthread halive _ w hw
    obtain ⟨old, hold, -, ⟨-, hdead⟩ | ⟨hne, hsame⟩⟩ := hback p thread hthread
    · rw [hdead] at halive
      cases halive
    · refine hs.quiet p old hold (hsame.symm.trans halive) (fun h => hne ?_) w hw
      rw [hq, Option.some.injEq] at h
      exact h.symm
  · intro p hp
    cases hp

/-- Every step keeps the run coherent. -/
theorem Coherent.step {s t : ServerRun} {e : ServerEvent} (hs : Coherent s)
    (hstep : s.step e = some t) : Coherent t := by
  cases e with
  | start created contextCreated => exact hs.start hstep
  | toggle bIsPause => exact hs.toggle hstep
  | beginStop => exact hs.beginStop hstep
  | endStop => exact hs.endStop hstep
  | stopStep e =>
    simp only [ServerRun.step, Option.ite_none_left_eq_some] at hstep
    obtain ⟨p, hp, hmove⟩ := Option.bind_eq_some_iff.mp hstep.2
    exact hs.moveWorker hmove (Or.inr hp)
  | workerStep p e =>
    simp only [ServerRun.step, Option.ite_none_right_eq_some] at hstep
    exact hs.moveWorker hstep.2 (Or.inl hstep.1.1)

end ServerRun

end HttpLws
