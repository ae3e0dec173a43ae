import HttpLws.Address
import HttpLws.Exchange
import HttpLws.Restarts

/-!
# The server as a service

Seen from outside the server is stopped, or it answers for one API path. Inside there
are the actor, its thread objects with their workers, shutdowns in single steps, and
the addresses that each object has converted when it was made. As long as no start
falls on a running server, the runs of the one are seen as the runs of the other.
-/

namespace HttpLws

variable (lws : Lws) (conv : AnsiConversion) (loc : Locale)

/-- The server seen from outside. -/
structure Service where
  /-- The address by which requests are filtered; none while the server is stopped. -/
  owner : Option Owner
  /-- The callbacks so far: their arguments and what they left behind. -/
  log : List (FLwsParams × CallbackResult)

/-- What happens to the server seen from outside. -/
inductive ServiceEvent
  /-- It starts, with the paths that the actor has then. -/
  | starts (paths : ServerPaths)
  /-- It stops. -/
  | stops
  /-- The callback runs, with what the handlers do. -/
  | calls (params : FLwsParams) (reactions : Reactions)

/-- Before the first start. -/
def Service.new : Service := ⟨none, []⟩

/-- Starts and stops alternate, and only a server that runs is called. -/
def Service.step (s : Service) : ServiceEvent → Option Service
  | .starts paths =>
      if s.owner.isSome then none
      else some { s with owner := some ⟨(ThreadAddresses.new loc paths).apiUri⟩ }
  | .stops => if s.owner.isSome then some { s with owner := none } else none
  | .calls params reactions =>
      s.owner.bind fun owner =>
        (callbackHttp lws conv (some owner) params reactions).map fun result =>
          { s with log := s.log ++ [(params, result)] }

/-- The server with what its thread objects were given and what the callbacks left behind. -/
structure LiveServer where
  /-- The actor and the workers. -/
  run : ServerRun
  /-- The paths of the actor; they are public. -/
  paths : ServerPaths
  /-- What the callback reads of each thread object. -/
  owners : List Owner
  /-- The callbacks so far: their arguments and what they left behind. -/
  log : List (FLwsParams × CallbackResult)

/-- A step of the server. -/
inductive LiveEvent
  /-- The game thread gives the actor other paths. -/
  | setPaths (paths : ServerPaths)
  /-- A step of the game thread or of a worker, a callback apart. -/
  | server (e : ServerEvent)
  /-- The worker of a thread object runs the callback, with what the handlers do. -/
  | callback (p : ℕ) (params : FLwsParams) (reactions : Reactions)

namespace LiveServer

/-- Before the first call. -/
def new (serverName : FString) (paths : ServerPaths) : LiveServer :=
  ⟨.new serverName, paths, [], []⟩

/-- What the callback will read of the thread object that a step makes. -/
def made (s : LiveServer) : ServerEvent → List Owner
  | .start _ _ =>
      if s.run.actor.serverName = [] then [] else [⟨(ThreadAddresses.new loc s.paths).apiUri⟩]
  | _ => []

/-- One step, if it is enabled. The user pointer of a context is its thread object. -/
def step (s : LiveServer) : LiveEvent → Option LiveServer
  | .setPaths paths => if s.run.destroying = none then some { s with paths := paths } else none
  | .server e =>
      (s.run.step e).map fun run => { s with run := run, owners := s.owners ++ s.made loc e }
  | .callback p params reactions =>
      (s.run.step (.workerStep p .runHandlers)).bind fun run =>
        (s.owners[p]?).bind fun owner =>
          (callbackHttp lws conv (some owner) params reactions).map fun result =>
            { s with run := run, log := s.log ++ [(params, result)] }

/-- The condition for one step: a start does not fall on an object with a worker that has
not been deleted. -/
def FreshStart (s : LiveServer) (e : LiveEvent) (t : LiveServer) : Prop :=
  match e with
  | .server e => s.run.FreshStart e t.run
  | _ => True

/-- What the callback reads of the object behind the pointer, if the object is alive and
has a worker. -/
def owner (s : LiveServer) : Option Owner :=
  s.run.actor.target.bind fun thread =>
    if thread.alive ∧ thread.runnableThread.isSome then
      s.run.actor.threadLibWebSocket.bind fun p => s.owners[p]?
    else none

/-- The server seen from outside. -/
def view (s : LiveServer) : Service := ⟨s.owner, s.log⟩

/-- What is seen of a step: an object that gets no worker is not, nor is an object that is
deleted without one. -/
def seen (s : LiveServer) : LiveEvent → Option ServiceEvent
  | .server (.start created _) =>
      if s.run.actor.serverName ≠ [] ∧ created then some (.starts s.paths) else none
  | .server .endStop => if s.owner.isSome then some .stops else none
  | .callback _ params reactions => some (.calls params reactions)
  | _ => none

/-- What holds in every run without a start on a running server. -/
structure Kept (s : LiveServer) : Prop where
  /-- Only the object behind the pointer may be at work. -/
  atMostTarget : s.run.AtMostTarget
  /-- Every thread object has been given its addresses. -/
  sameLength : s.owners.length = s.run.actor.threads.length

/-- There is nothing before the first call. -/
theorem kept_new (serverName : FString) (paths : ServerPaths) : Kept (new serverName paths) :=
  ⟨⟨ServerRun.coherent_new serverName, by simp [new, ServerRun.new, ServerRun.worker]⟩, rfl⟩

end LiveServer

namespace AHTTPServerLWS

/-- The object behind the pointer after a toggle. -/
theorem target_toggle (self : AHTTPServerLWS) (b : Bool) :
    (self.call (.toggle b)).target = self.target.map fun thread => (thread.toggle b).1 := by
  cases hpointer : self.threadLibWebSocket with
  | none => simp [call, httpServerToggle, target, hpointer]
  | some p => simp [call, httpServerToggle, target, hpointer]

/-- The object behind the pointer after a stop. -/
theorem target_stop (self : AHTTPServerLWS) :
    (self.call .stop).target = self.target.map FHTTPThreadLibWebSocket.delete := by
  cases hpointer : self.threadLibWebSocket with
  | none => simp [call, httpServerStop, target, hpointer]
  | some p => simp [call, httpServerStop, target, hpointer]

/-- Only a start of a named actor makes a thread object. -/
theorem length_threads_call (self : AHTTPServerLWS) (c : ServerCall) :
    (self.call c).threads.length = self.threads.length +
      match c with
      | .start _ => if self.serverName = [] then 0 else 1
      | _ => 0 := by
  cases c with
  | start created =>
    by_cases hname : self.serverName = []
    · rw [call, httpServerStart_of_no_name hname]
      simp [hname]
    · rw [call_start hname]
      simp [hname]
  | stop =>
    simp only [call, httpServerStop]
    split <;> simp
  | toggle b =>
    simp only [call, httpServerToggle]
    split <;> simp

end AHTTPServerLWS

namespace LiveServer

/-- What is seen depends on the actor and on what the objects were given. -/
theorem owner_congr {s t : LiveServer} (hactor : t.run.actor = s.run.actor)
    (howners : t.owners = s.owners) : t.owner = s.owner := by
  rw [owner, owner, hactor, howners]

/-- A step that completes no call on the actor changes nothing of what is seen. -/
theorem owner_of_no_call {s t : LiveServer} {e : ServerEvent} (hstep : s.run.step e = some t.run)
    (hcall : ServerRun.callOf e = none) (howners : t.owners = s.owners) : t.owner = s.owner := by
  apply owner_congr _ howners
  rw [ServerRun.actor_step hstep, hcall, Option.elim_none]

/-- A start meets the condition exactly when the server is seen to be stopped. -/
theorem freshStart_iff {s t : LiveServer} {created contextCreated : Bool} (hs : Kept s) :
    s.FreshStart (.server (.start created contextCreated)) t ↔ s.owner = none := by
  rw [owner, Option.bind_eq_none_iff]
  constructor
  · intro hfresh thread htarget
    rw [ite_eq_right_iff]
    rintro ⟨halive, hworker⟩
    rw [hfresh thread htarget halive] at hworker
    cases hworker
  · intro hstopped thread htarget halive
    by_contra hworker
    obtain ⟨p, hpointer, hthread⟩ := Option.bind_eq_some_iff.mp htarget
    have howner := hstopped thread htarget
    rw [if_pos ⟨halive, Option.isSome_iff_ne_none.mpr hworker⟩, hpointer, Option.bind_some,
      List.getElem?_eq_none_iff, hs.sameLength] at howner
    rw [List.getElem?_eq_none howner] at hthread
    cases hthread

/-- A start of a named actor is seen as the start of a service, if there is a worker. -/
theorem owner_start {s : LiveServer} (hs : s.owners.length = s.run.actor.threads.length)
    (hname : s.run.actor.serverName ≠ []) {t : LiveServer} {created : Bool}
    (hactor : t.run.actor = s.run.actor.call (.start created)) {o : Owner}
    (howners : t.owners = s.owners ++ [o]) : t.owner = if created then some o else none := by
  have htarget : t.run.actor.target = some (.new created) := by
    rw [hactor, AHTTPServerLWS.call_start hname]
    simp [AHTTPServerLWS.target]
  have hpointer : t.run.actor.threadLibWebSocket = some s.owners.length := by
    rw [hactor, AHTTPServerLWS.call_start hname, hs]
  have hlast : t.owners[s.owners.length]? = some o := by
    rw [howners, List.getElem?_concat_length]
  rw [owner, htarget, Option.bind_some, hpointer, Option.bind_some, hlast]
  cases created <;> simp [FHTTPThreadLibWebSocket.new, FHTTPThreadLibWebSocket.alive]

/-- Toggling is not seen. -/
theorem owner_toggle {s t : LiveServer} {b : Bool}
    (hactor : t.run.actor = s.run.actor.call (.toggle b)) (howners : t.owners = s.owners) :
    t.owner = s.owner := by
  rw [owner, owner, hactor, howners, AHTTPServerLWS.target_toggle, AHTTPServerLWS.pointer_toggle,
    Option.bind_map]
  congr 1
  funext thread
  obtain ⟨hdeletions, hpauses⟩ := pauses_toggle thread b
  have halive : (thread.toggle b).1.alive = thread.alive := by
    rw [FHTTPThreadLibWebSocket.alive, hdeletions, FHTTPThreadLibWebSocket.alive]
  have hworker : (thread.toggle b).1.runnableThread.isSome = thread.runnableThread.isSome := by
    have hisSome := congrArg Option.isSome hpauses
    simpa using hisSome
  rw [Function.comp_apply, halive, hworker]

/-- After a stop the server is seen to be stopped. -/
theorem owner_stop {s t : LiveServer} (hactor : t.run.actor = s.run.actor.call .stop) :
    t.owner = none := by
  rw [owner, hactor, AHTTPServerLWS.target_stop, Option.bind_map, Option.bind_eq_none_iff]
  intro thread _
  simp [FHTTPThreadLibWebSocket.alive, FHTTPThreadLibWebSocket.delete]

/-- A worker in service belongs to the server that is seen to run. -/
theorem owner_of_inService {s : LiveServer} (hs : Kept s) {p : ℕ} {w : ThreadState}
    (hw : s.run.worker p = some w) (hservice : w.worker = .inService) :
    s.owner = s.owners[p]? := by
  have hcoherent := hs.atMostTarget.coherent
  have hbusy : ¬w.Finished := by
    intro hfinished
    rw [hfinished.2] at hservice
    cases hservice
  have hpointer : s.run.actor.threadLibWebSocket = some p := by
    by_contra hother
    exact hbusy (hs.atMostTarget.others p w hw hother)
  obtain ⟨thread, hthread⟩ := hcoherent.exists_thread hw
  have halive : thread.alive = true := by
    by_contra hdeleted
    exact hbusy (hcoherent.deleted p thread hthread (Bool.eq_false_iff.mpr hdeleted) w hw)
  have hworker : thread.runnableThread.isSome = true := by
    rw [hcoherent.hasWorker p thread hthread, hw]
    rfl
  rw [owner, AHTTPServerLWS.target, hpointer, Option.bind_some, hthread, Option.bind_some,
    if_pos ⟨halive, hworker⟩, Option.bind_some]

/-- Every step under the condition keeps what holds of the run. -/
theorem Kept.step {s t : LiveServer} {e : LiveEvent} (hs : Kept s)
    (hstep : s.step lws conv loc e = some t) (hfresh : s.FreshStart e t) : Kept t := by
  cases e with
  | setPaths paths =>
    simp only [LiveServer.step, Option.ite_none_right_eq_some, Option.some.injEq] at hstep
    obtain ⟨-, rfl⟩ := hstep
    exact ⟨hs.atMostTarget, hs.sameLength⟩
  | server e =>
    obtain ⟨run, hrun, rfl⟩ := Option.map_eq_some_iff.mp hstep
    refine ⟨hs.atMostTarget.step hrun hfresh, ?_⟩
    rw [ServerRun.actor_step hrun, List.length_append, hs.sameLength]
    cases e with
    | start created contextCreated =>
      rw [ServerRun.callOf, Option.elim_some, AHTTPServerLWS.length_threads_call, made]
      split_ifs <;> rfl
    | toggle _ | endStop =>
      rw [ServerRun.callOf, Option.elim_some, AHTTPServerLWS.length_threads_call]
      rfl
    | beginStop | stopStep _ | workerStep _ _ => rfl
  | callback p params reactions =>
    obtain ⟨run, hrun, hrest⟩ := Option.bind_eq_some_iff.mp hstep
    obtain ⟨owner, -, hcall⟩ := Option.bind_eq_some_iff.mp hrest
    obtain ⟨result, -, rfl⟩ := Option.map_eq_some_iff.mp hcall
    refine ⟨hs.atMostTarget.step hrun trivial, ?_⟩
    rw [ServerRun.actor_step hrun]
    exact hs.sameLength

/-- A start is seen, or not: a named actor has a service when there is a worker. -/
theorem view_start {s t : LiveServer} {created contextCreated : Bool} (hs : Kept s)
    (hactor : t.run.actor = s.run.actor.call (.start created))
    (howners : t.owners = s.owners ++ s.made loc (.start created contextCreated))
    (hlog : t.log = s.log) (hstopped : s.owner = none) :
    (s.seen (.server (.start created contextCreated))).elim (some s.view)
      (s.view.step lws conv loc) = some t.view := by
  by_cases hname : s.run.actor.serverName = []
  · have hsame : t.owner = s.owner := by
      apply owner_congr
      · rw [hactor, AHTTPServerLWS.call, AHTTPServerLWS.httpServerStart_of_no_name hname]
      · rw [howners, made, if_pos hname, List.append_nil]
    rw [seen, if_neg (by simp [hname]), Option.elim_none, view, view, hsame, hlog]
  · rw [made, if_neg hname] at howners
    have hstarted := owner_start hs.sameLength hname hactor howners
    rw [view, view, hstarted, hstopped, hlog]
    cases created with
    | true =>
      rw [seen, if_pos ⟨hname, rfl⟩]
      rfl
    | false =>
      rw [seen, if_neg (by simp)]
      rfl

/-- A step of the game thread or of a worker is seen as a step of the service, or not at
all. -/
theorem view_server {s t : LiveServer} {e : ServerEvent} (hs : Kept s)
    (hrun : s.run.step e = some t.run) (howners : t.owners = s.owners ++ s.made loc e)
    (hlog : t.log = s.log) (hfresh : s.FreshStart (.server e) t) :
    (s.seen (.server e)).elim (some s.view) (s.view.step lws conv loc) = some t.view := by
  have hactor := ServerRun.actor_step hrun
  cases e with
  | start created contextCreated =>
    exact view_start lws conv loc hs hactor howners hlog ((freshStart_iff hs).mp hfresh)
  | toggle b =>
    have hunseen : s.seen (.server (.toggle b)) = none := rfl
    have hsame := owner_toggle hactor (howners.trans (List.append_nil _))
    rw [hunseen, Option.elim_none, view, view, hsame, hlog]
  | endStop =>
    have hstopped := owner_stop hactor
    rw [seen, view, view, hstopped, hlog]
    cases howner : s.owner with
    | none => rfl
    | some owner => rfl
  | beginStop | stopStep _ | workerStep _ _ =>
    have hsame := owner_of_no_call hrun rfl (howners.trans (List.append_nil _))
    rw [view, view, hsame, hlog]
    rfl

/-- A callback is seen as a call of the service that runs. -/
theorem view_callback {s t : LiveServer} {p : ℕ} {params : FLwsParams} {reactions : Reactions}
    (hs : Kept s) (hstep : s.step lws conv loc (.callback p params reactions) = some t) :
    s.view.step lws conv loc (.calls params reactions) = some t.view := by
  obtain ⟨run, hrun, hrest⟩ := Option.bind_eq_some_iff.mp hstep
  obtain ⟨owner, howner, hcall⟩ := Option.bind_eq_some_iff.mp hrest
  obtain ⟨result, hresult, rfl⟩ := Option.map_eq_some_iff.mp hcall
  have hservice : s.owner = some owner := by
    have hmove := hrun
    simp only [ServerRun.step, Option.ite_none_right_eq_some] at hmove
    obtain ⟨w, w', hw, hw', -⟩ := ServerRun.moveWorker_eq_some hmove.2
    simp only [ThreadState.step, Option.ite_none_right_eq_some] at hw'
    rw [owner_of_inService hs hw hw'.1.1, howner]
  have hsame := owner_of_no_call (t := { s with run := run, log := s.log ++ [(params, result)] })
    hrun rfl rfl
  rw [Service.step, view, view, hservice, Option.bind_some, hresult, Option.map_some, hsame,
    hservice]

/-- **One step.** Every step under the condition is seen as a step of the service, or not
at all. -/
theorem view_step {s t : LiveServer} {e : LiveEvent} (hs : Kept s)
    (hstep : s.step lws conv loc e = some t) (hfresh : s.FreshStart e t) :
    (s.seen e).elim (some s.view) (s.view.step lws conv loc) = some t.view := by
  cases e with
  | setPaths paths =>
    simp only [LiveServer.step, Option.ite_none_right_eq_some, Option.some.injEq] at hstep
    obtain ⟨-, rfl⟩ := hstep
    rfl
  | server e =>
    obtain ⟨run, hrun, rfl⟩ := Option.map_eq_some_iff.mp hstep
    exact view_server lws conv loc hs hrun rfl rfl hfresh
  | callback p params reactions => exact view_callback lws conv loc hs hstep

/-- Steps under the condition keep what holds of the run and are seen as steps of the
service. -/
theorem simulates (s : LiveServer) (e : LiveEvent) (t : LiveServer) (hs : Kept s)
    (hstep : s.step lws conv loc e = some t) (hfresh : s.FreshStart e t) :
    Kept t ∧ (s.seen e).elim (some s.view) (s.view.step lws conv loc) = some t.view :=
  ⟨hs.step lws conv loc hstep hfresh, view_step lws conv loc hs hstep hfresh⟩

/-- A named actor between two calls, whose server, if it runs, has its worker at the top of
the loop. -/
structure Ready (s : LiveServer) : Prop where
  /-- The actor has a name. -/
  named : s.run.actor.serverName ≠ []
  /-- The game thread is not in a destructor. -/
  idle : s.run.destroying = none
  /-- The worker of a server that runs is at the top of its loop. -/
  atLoop : ∀ o, s.owner = some o → ∃ p, s.run.actor.threadLibWebSocket = some p ∧
    s.owners[p]? = some o ∧ s.run.paused p = false ∧ s.run.worker p = some (.started true)

/-- The worker of a thread object is now here. -/
def setWorker (s : LiveServer) (p : ℕ) (w : ThreadState) : LiveServer :=
  { s with run := s.run.setWorker p w }

/-- The steps of a thread object go unseen. -/
theorem shows_thread {s : LiveServer} {p : ℕ} {w w' : ThreadState} (events : List ThreadEvent)
    (hin : ∀ e ∈ events, e.ofRun ∨ s.run.destroying = some p) (hw : s.run.worker p = some w)
    (hresumed : s.run.paused p = false)
    (hexec : Runs.exec (ThreadState.step .gameThread) w events = some w') :
    Runs.Shows (step lws conv loc) FreshStart seen s [] (s.setWorker p w') := by
  induction events generalizing s w with
  | nil =>
    obtain rfl : w = w' := by simpa [Runs.exec] using hexec
    rw [setWorker, ServerRun.setWorker_self hw]
    exact .refl s
  | cons e events ih =>
    obtain ⟨u, hu, hrest⟩ := Option.bind_eq_some_iff.mp hexec
    obtain ⟨hfirst, hin'⟩ := List.forall_mem_cons.mp hin
    have hstep : s.step lws conv loc (.server (ServerRun.ofThread p e)) =
        some (s.setWorker p u) := by
      have hmade : s.made loc (ServerRun.ofThread p e) = [] := by
        unfold ServerRun.ofThread
        split_ifs <;> rfl
      rw [step, ServerRun.step_thread hfirst hw hresumed hu, Option.map_some, hmade,
        List.append_nil]
      rfl
    have hunseen : s.seen (.server (ServerRun.ofThread p e)) = none := by
      unfold ServerRun.ofThread
      split_ifs <;> rfl
    have hfresh : s.FreshStart (.server (ServerRun.ofThread p e)) (s.setWorker p u) := by
      unfold ServerRun.ofThread
      split_ifs <;> trivial
    have hw' : (s.setWorker p u).run.worker p = some u := by
      rw [setWorker, ServerRun.worker_set hw, if_pos rfl]
    have htwice : (s.setWorker p u).setWorker p w' = s.setWorker p w' := by
      rw [setWorker, setWorker, ServerRun.setWorker_setWorker, setWorker]
    have htail := ih (s := s.setWorker p u) hin' hw' hresumed hrest
    rw [htwice] at htail
    exact (Runs.Shows.unseen hstep hfresh hunseen).trans htail

/-- A start of the service can be shown. -/
theorem shows_starts {s : LiveServer} (hs : Kept s) (hready : Ready s) (hstopped : s.owner = none)
    (paths : ServerPaths) : ∃ t,
      Runs.Shows (step lws conv loc) FreshStart seen s [.starts paths] t ∧ Ready t := by
  obtain ⟨hname, hidle, -⟩ := hready
  have hpaths : s.step lws conv loc (.setPaths paths) = some { s with paths := paths } := by
    rw [step, if_pos hidle]
  have hrun := ServerRun.step_start hidle hname true true
  set u : LiveServer := { s with paths := paths } with hu
  set t : LiveServer := { u with
    run := ⟨s.run.actor.call (.start true), s.run.workers ++ [some (.started true)], none⟩
    owners := s.owners ++ [⟨(ThreadAddresses.new loc paths).apiUri⟩] } with ht
  have hstart : u.step lws conv loc (.server (.start true true)) = some t := by
    have hmade : u.made loc (.start true true) =
        [⟨(ThreadAddresses.new loc paths).apiUri⟩] := if_neg hname
    rw [step, hmade, hu, hrun]
    rfl
  have hfresh : u.FreshStart (.server (.start true true)) t :=
    (freshStart_iff ⟨hs.atMostTarget, hs.sameLength⟩).mpr hstopped
  have hseen : u.seen (.server (.start true true)) = some (.starts paths) := if_pos ⟨hname, rfl⟩
  refine ⟨t, ?_, (AHTTPServerLWS.serverName_call _ _).trans_ne hname, rfl, fun o ho => ?_⟩
  · exact (Runs.Shows.unseen hpaths trivial rfl).trans (.seen hstart hfresh hseen)
  · have hlength := hs.atMostTarget.coherent.sameLength
    rw [owner_start hs.sameLength hname rfl rfl, if_pos rfl, Option.some.injEq] at ho
    subst ho
    refine ⟨s.run.actor.threads.length, ?_, ?_, ?_, ?_⟩
    · rw [ht]
      exact congrArg AHTTPServerLWS.threadLibWebSocket (AHTTPServerLWS.call_start hname true)
    · rw [← hs.sameLength]
      exact List.getElem?_concat_length ..
    · rw [ServerRun.paused, ht]
      dsimp only
      rw [AHTTPServerLWS.call_start hname, List.getElem?_concat_length]
      rfl
    · rw [← hlength]
      exact (ServerRun.worker_append none).trans (if_pos rfl)

/-- A call of the service can be shown: the worker goes through the loop once. -/
theorem shows_calls {s : LiveServer} (hready : Ready s) {o : Owner} (ho : s.owner = some o)
    {params : FLwsParams} {reactions : Reactions} {result : CallbackResult}
    (hresult : callbackHttp lws conv (some o) params reactions = some result) : ∃ t,
      Runs.Shows (step lws conv loc) FreshStart seen s [.calls params reactions] t ∧ Ready t := by
  obtain ⟨hname, hidle, hloop⟩ := hready
  obtain ⟨p, hpointer, howner, hresumed, hw⟩ := hloop o ho
  let busy : ThreadState := ⟨.inService, .notCalled, true, true, true⟩
  have henter : Runs.Shows (step lws conv loc) FreshStart seen s [] (s.setWorker p busy) :=
    shows_thread lws conv loc [.readFlag, .testContext, .enterService]
      (by simp [ThreadEvent.ofRun]) hw hresumed rfl
  have hbusy : (s.setWorker p busy).run.worker p = some busy := by
    rw [setWorker, ServerRun.worker_set hw, if_pos rfl]
  let u : LiveServer := { s.setWorker p busy with log := s.log ++ [(params, result)] }
  have hcall : (s.setWorker p busy).step lws conv loc (.callback p params reactions) = some u := by
    have hrun : (s.setWorker p busy).run.step (.workerStep p .runHandlers) =
        some ((s.setWorker p busy).run.setWorker p busy) :=
      ServerRun.step_thread (e := .runHandlers) (Or.inl rfl) hbusy hresumed rfl
    have htwice : (s.setWorker p busy).run.setWorker p busy = (s.setWorker p busy).run :=
      ServerRun.setWorker_self hbusy
    have howner' : (s.setWorker p busy).owners[p]? = some o := howner
    rw [step, hrun, Option.bind_some, howner', Option.bind_some, hresult, htwice]
    rfl
  have hleave : Runs.Shows (step lws conv loc) FreshStart seen u []
      (u.setWorker p (.started true)) :=
    shows_thread lws conv loc [.leaveService] (by simp [ThreadEvent.ofRun]) hbusy hresumed rfl
  refine ⟨_, henter.trans ((Runs.Shows.seen hcall trivial rfl).trans hleave), hname, hidle, fun o' ho' => ?_⟩
  have hsame : (u.setWorker p (.started true)).owner = s.owner := owner_congr rfl rfl
  rw [hsame, ho, Option.some.injEq] at ho'
  subst ho'
  refine ⟨p, hpointer, howner, hresumed, ?_⟩
  have hback := ServerRun.worker_set hbusy (.started true) p
  rwa [if_pos rfl] at hback

/-- A stop of the service can be shown: the shutdown goes through while the worker is at the
top of the loop. -/
theorem shows_stops {s : LiveServer} (hready : Ready s) {o : Owner} (ho : s.owner = some o) : ∃ t,
    Runs.Shows (step lws conv loc) FreshStart seen s [.stops] t ∧ Ready t := by
  obtain ⟨hname, hidle, hloop⟩ := hready
  obtain ⟨p, hpointer, -, hresumed, hw⟩ := hloop o ho
  let u : LiveServer := { s with run := { s.run with destroying := some p } }
  have hbegin : s.step lws conv loc (.server .beginStop) = some u := by
    have hmade : s.owners ++ s.made loc .beginStop = s.owners := List.append_nil _
    rw [step, hmade, ServerRun.step, if_pos hidle, hpointer]
    rfl
  let done : ThreadState := ⟨.left, .waiting, false, false, false⟩
  have hshutdown : Runs.Shows (step lws conv loc) FreshStart seen u [] (u.setWorker p done) :=
    shows_thread lws conv loc [.stopTest, .destroyContext, .setNull, .clearFlag, .readFlag]
      (fun _ _ => Or.inr rfl) hw hresumed rfl
  have hdone : (u.setWorker p done).run.worker p = some done := by
    have hset := ServerRun.worker_set (s := u.run) hw done p
    rwa [if_pos rfl] at hset
  let t : LiveServer := { s with
    run := ⟨s.run.actor.call .stop, (u.setWorker p done).run.workers, none⟩ }
  have hend : (u.setWorker p done).step lws conv loc (.server .endStop) = some t := by
    have hmade : (u.setWorker p done).owners ++ (u.setWorker p done).made loc .endStop = s.owners :=
      List.append_nil _
    have hfinished : ∀ w ∈ (u.setWorker p done).run.worker p, w.Finished := by
      intro w hmem
      obtain rfl := Option.some.inj (hdone.symm.trans hmem)
      exact ⟨rfl, rfl⟩
    have hwaits : (u.setWorker p done).run.destroying = some p := rfl
    rw [step, hmade, ServerRun.step, hwaits, Option.bind_some, if_pos hfinished]
    rfl
  have hseen : (u.setWorker p done).seen (.server .endStop) = some .stops := by
    have hsame : (u.setWorker p done).owner = s.owner := owner_congr rfl rfl
    rw [seen, hsame, ho]
    rfl
  refine ⟨t, ?_, (AHTTPServerLWS.serverName_call _ _).trans_ne hname, rfl, fun o' ho' => ?_⟩
  · exact (Runs.Shows.unseen hbegin trivial rfl).trans
      (hshutdown.trans (.seen hend trivial hseen))
  · have hstopped : t.owner = none := owner_stop rfl
    rw [hstopped] at ho'
    cases ho'

/-- **The runs of the server are those of the service.** In every interleaving of the game
thread and the workers in which no start falls on a running server, what is seen is a run
of the service: callbacks come between a start and its stop, and each of them filters by
the path that the actor had at that start. And every run of the service is seen of such
an interleaving. -/
theorem runs_of_service_iff (serverName : FString) (hname : serverName ≠ []) (paths : ServerPaths)
    (events : List ServiceEvent) (s : Service) :
    Runs.exec (Service.step lws conv loc) Service.new events = some s ↔
      ∃ t, Runs.Shows (step lws conv loc) FreshStart seen (new serverName paths) events t ∧
        t.view = s := by
  have hready : Ready (new serverName paths) := ⟨hname, rfl, fun o ho => by cases ho⟩
  apply Runs.Shows.exec_iff view Kept Ready (simulates lws conv loc) _ (kept_new serverName paths)
    hready events s
  intro s b s' hs hready hstep
  cases b with
  | starts paths =>
    simp only [Service.step, Option.ite_none_left_eq_some] at hstep
    have hstopped : s.owner = none := by simpa [view] using hstep.1
    exact shows_starts lws conv loc hs hready hstopped paths
  | stops =>
    simp only [Service.step, Option.ite_none_right_eq_some] at hstep
    obtain ⟨o, ho⟩ := Option.isSome_iff_exists.mp hstep.1
    exact shows_stops lws conv loc hready ho
  | calls params reactions =>
    obtain ⟨o, ho, hcall⟩ := Option.bind_eq_some_iff.mp hstep
    obtain ⟨result, hresult, -⟩ := Option.map_eq_some_iff.mp hcall
    exact shows_calls lws conv loc hready ho hresult

/-- A server is started for one path, called, stopped, started for another path and called
again. -/
def moved : List ServiceEvent :=
  [.starts ⟨[], [], text "api"⟩, .calls timeRequest.params ⟨[], []⟩, .stops,
    .starts ⟨[], [], text "v2"⟩, .calls timeRequest.params ⟨[], []⟩]

/-- The first request goes to the handlers, and the second is refused. -/
theorem moved_is_seen :
    ∃ t, Runs.Shows (step Lws.plain .latin1 .c) FreshStart seen
        (new (text "LibWebSocket") ⟨[], [], []⟩) moved t ∧
      t.log.map (fun entry => entry.2.notified.isSome) = [true, false] := by
  obtain ⟨s, hs⟩ : ∃ s, Runs.exec (Service.step Lws.plain .latin1 .c) Service.new moved = some s :=
    ⟨_, rfl⟩
  have hlog : s.log.map (fun entry => entry.2.notified.isSome) = [true, false] := by
    obtain rfl := Option.some.inj hs
    decide
  obtain ⟨t, hshown, rfl⟩ := (runs_of_service_iff Lws.plain .latin1 .c (text "LibWebSocket")
    (by decide) ⟨[], [], []⟩ moved s).mp hs
  exact ⟨t, hshown, hlog⟩

end LiveServer

end HttpLws
