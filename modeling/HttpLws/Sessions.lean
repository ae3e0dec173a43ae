import HttpLws.Service
import HttpLws.Stream

/-!
# From the calls on the actor to the streams of the clients

What happens between a start and its stop is a session. The library closes all
connections when the context is destroyed, so the streams of its clients belong to one
session each. They are read as the answers to the requests of that session, whatever
the actor, the workers and the other clients do.
-/

namespace HttpLws

open HeaderBlock MessageStream

variable (lws : Lws) (conv : AnsiConversion) (loc : Locale)

/-- A callback of a session. -/
inductive SessionCall
  /-- For a request, with what its handlers do. -/
  | request (r : HandledRequest)
  /-- For another reason, such as a chunk of a body. -/
  | other (params : FLwsParams) (reactions : Reactions) (hreason : params.reason ≠ .lwsCallbackHttp)

namespace SessionCall

/-- The callback as an event of the service. -/
def event : SessionCall → ServiceEvent
  | .request r => .calls r.params r.reactions
  | .other params reactions _ => .calls params reactions

/-- The request, if it is one. -/
def handled : SessionCall → Option HandledRequest
  | .request r => some r
  | .other _ _ _ => none

end SessionCall

/-- What happens between a start and its stop. -/
structure Session where
  /-- The paths of the actor at the start. -/
  paths : ServerPaths
  /-- The callbacks, in order. -/
  calls : List SessionCall

namespace Session

/-- The requests of a session. -/
def requests (s : Session) : List HandledRequest := s.calls.filterMap SessionCall.handled

/-- The object that serves the session. -/
def owner (s : Session) : Owner := ⟨(ThreadAddresses.new loc s.paths).apiUri⟩

/-- The session up to its stop. -/
def events (s : Session) : List ServiceEvent := .starts s.paths :: s.calls.map SessionCall.event

end Session

/-- One session after the other; the last of them may go on. -/
def sessionEvents (running : Bool) : List Session → List ServiceEvent
  | [] => []
  | s :: rest =>
      s.events ++ (if running && rest.isEmpty then [] else [.stops]) ++ sessionEvents running rest

/-- The library calls of some callbacks, with their connections. -/
def wireOf (log : List (FLwsParams × CallbackResult)) : Wire :=
  log.flatMap fun entry => entry.2.calls.map (entry.1.wsi, ·)

/-- For other reasons the callback of a thread object makes no library call. -/
theorem calls_of_other {o : Owner} {params : FLwsParams} {reactions : Reactions}
    {result : CallbackResult} (hreason : params.reason ≠ .lwsCallbackHttp)
    (hresult : callbackHttp lws conv (some o) params reactions = some result) :
    result.calls = [] := by
  obtain ⟨requestUri, -, rfl⟩ := Option.map_eq_some_iff.mp hresult
  dsimp only
  split
  · contradiction
  · rfl
  · rfl
  · rfl

/-- **One callback.** It leaves the server running and adds the calls for its request. -/
theorem step_sessionCall {o : Owner} {log : List (FLwsParams × CallbackResult)} {s : Service}
    {call : SessionCall}
    (hstep : Service.step lws conv loc ⟨some o, log⟩ call.event = some s) :
    ∃ entry, s = ⟨some o, log ++ [entry]⟩ ∧ wireOf [entry] =
      call.handled.toList.flatMap fun r => (callsOf lws conv o r).map (r.wsi, ·) := by
  cases call with
  | request r =>
    obtain ⟨result, hresult, rfl⟩ := Option.map_eq_some_iff.mp hstep
    refine ⟨_, rfl, ?_⟩
    have hserve := serve_callsOf lws conv o [] r
    rw [serve, hresult, Option.map_some, Option.some.injEq] at hserve
    have hwsi : r.params.wsi = r.wsi := rfl
    simpa [wireOf, SessionCall.handled, hwsi] using hserve
  | other params reactions hreason =>
    obtain ⟨result, hresult, rfl⟩ := Option.map_eq_some_iff.mp hstep
    refine ⟨_, rfl, ?_⟩
    simp [wireOf, SessionCall.handled, calls_of_other lws conv hreason hresult]

/-- **The callbacks of a session**, by induction over them. -/
theorem exec_sessionCalls {o : Owner} {log : List (FLwsParams × CallbackResult)} {s : Service}
    {calls : List SessionCall}
    (hexec : Runs.exec (Service.step lws conv loc) ⟨some o, log⟩ (calls.map SessionCall.event) =
      some s) :
    ∃ added, s = ⟨some o, log ++ added⟩ ∧ wireOf added =
      (calls.filterMap SessionCall.handled).flatMap fun r =>
        (callsOf lws conv o r).map (r.wsi, ·) := by
  induction calls generalizing log with
  | nil => exact ⟨[], by simpa [Runs.exec] using hexec.symm, rfl⟩
  | cons call calls ih =>
    obtain ⟨u, hu, hrest⟩ := Option.bind_eq_some_iff.mp hexec
    obtain ⟨entry, rfl, hentry⟩ := step_sessionCall lws conv loc hu
    obtain ⟨added, rfl, hadded⟩ := ih hrest
    refine ⟨entry :: added, by simp, ?_⟩
    have hfirst : wireOf (entry :: added) = wireOf [entry] ++ wireOf added := by
      simp [wireOf]
    rw [hfirst, hentry, hadded]
    cases hhandled : call.handled with
    | none => rw [List.filterMap_cons_none hhandled]; rfl
    | some r => rw [List.filterMap_cons_some hhandled, List.flatMap_cons]; simp

/-- What a session puts on its connections. -/
def Session.wire (s : Session) : Wire :=
  s.requests.flatMap fun r => (callsOf lws conv (s.owner loc) r).map (r.wsi, ·)

/-- **The sessions of a service**, by induction over them: each has its part of the log. -/
theorem exec_sessionEvents {running : Bool} {sessions : List Session} {s t : Service}
    (hexec : Runs.exec (Service.step lws conv loc) s (sessionEvents running sessions) = some t) :
    ∃ logs, t.log = s.log ++ logs.flatten ∧
      List.Forall₂ (fun session log => wireOf log = session.wire lws conv loc) sessions logs := by
  induction sessions generalizing s with
  | nil =>
    obtain rfl : s = t := by simpa [sessionEvents, Runs.exec] using hexec
    exact ⟨[], by simp, .nil⟩
  | cons session rest ih =>
    rw [sessionEvents, Runs.exec_append, Runs.exec_append, Session.events, Runs.exec] at hexec
    obtain ⟨v, hv, hrest⟩ := Option.bind_eq_some_iff.mp hexec
    obtain ⟨u, hu, hstop⟩ := Option.bind_eq_some_iff.mp hv
    obtain ⟨started, hstart, hcalls⟩ := Option.bind_eq_some_iff.mp hu
    simp only [Service.step, Option.ite_none_left_eq_some, Option.some.injEq] at hstart
    obtain ⟨-, rfl⟩ := hstart
    obtain ⟨log, rfl, hlog⟩ := exec_sessionCalls lws conv loc hcalls
    have hsame : v.log = s.log ++ log := by
      split_ifs at hstop
      · obtain rfl := Option.some.inj hstop
        rfl
      · obtain rfl := Option.some.inj hstop
        rfl
    obtain ⟨logs, ht, hlogs⟩ := ih hrest
    refine ⟨log :: logs, ?_, .cons hlog hlogs⟩
    rw [ht, hsame, List.flatten_cons, List.append_assoc]

/-- A callback is one of a session, when those for requests have the arguments of requests. -/
theorem exists_sessionCall {params : FLwsParams} {reactions : Reactions}
    (hrequest : params.reason = .lwsCallbackHttp → ∃ r : HttpRequest, params = r.params) :
    ∃ call : SessionCall, ServiceEvent.calls params reactions = call.event := by
  by_cases hreason : params.reason = .lwsCallbackHttp
  · obtain ⟨r, rfl⟩ := hrequest hreason
    exact ⟨.request ⟨r, reactions⟩, rfl⟩
  · exact ⟨.other params reactions hreason, rfl⟩

/-- Callbacks up to a stop, and sessions behind it. -/
def UpToStop (events : List ServiceEvent) : Prop :=
  ∃ calls : List SessionCall, events = calls.map SessionCall.event ∨
    ∃ running sessions,
      events = calls.map SessionCall.event ++ .stops :: sessionEvents running sessions

/-- A start with what comes up to its stop is a session. -/
theorem exists_sessions_cons {paths : ServerPaths} {events : List ServiceEvent}
    (h : UpToStop events) :
    ∃ running sessions, .starts paths :: events = sessionEvents running sessions := by
  obtain ⟨calls, rfl | ⟨running, sessions, rfl⟩⟩ := h
  · exact ⟨true, [⟨paths, calls⟩], by simp [sessionEvents, Session.events]⟩
  · cases sessions with
    | nil => exact ⟨false, [⟨paths, calls⟩], by simp [sessionEvents, Session.events]⟩
    | cons session rest =>
      exact ⟨running, ⟨paths, calls⟩ :: session :: rest, by simp [sessionEvents, Session.events]⟩

/-- What happens to a service from any of its states, by induction over the events: a
stopped one has sessions, a running one goes on up to its stop. -/
theorem sessions_of_exec {events : List ServiceEvent}
    (hrequests : ∀ params reactions, .calls params reactions ∈ events →
      params.reason = .lwsCallbackHttp → ∃ r : HttpRequest, params = r.params) {s t : Service}
    (hexec : Runs.exec (Service.step lws conv loc) s events = some t) :
    (s.owner = none → ∃ running sessions, events = sessionEvents running sessions) ∧
      (s.owner ≠ none → UpToStop events) := by
  induction events generalizing s with
  | nil => exact ⟨fun _ => ⟨false, [], rfl⟩, fun _ => ⟨[], Or.inl rfl⟩⟩
  | cons e events ih =>
    obtain ⟨u, hu, hrest⟩ := Option.bind_eq_some_iff.mp hexec
    obtain ⟨hstopped, hgoing⟩ :=
      ih (fun params reactions hmem => hrequests params reactions (List.mem_cons_of_mem e hmem))
        hrest
    cases e with
    | starts paths =>
      simp only [Service.step, Option.ite_none_left_eq_some, Option.some.injEq] at hu
      obtain ⟨hidle, rfl⟩ := hu
      refine ⟨fun _ => exists_sessions_cons (hgoing (by simp)), fun hrunning => ?_⟩
      exact absurd (Option.isSome_iff_ne_none.mpr hrunning) hidle
    | stops =>
      simp only [Service.step, Option.ite_none_right_eq_some, Option.some.injEq] at hu
      obtain ⟨hrunning, rfl⟩ := hu
      refine ⟨fun hidle => absurd hidle (Option.isSome_iff_ne_none.mp hrunning), fun _ => ?_⟩
      obtain ⟨running, sessions, rfl⟩ := hstopped rfl
      exact ⟨[], Or.inr ⟨running, sessions, rfl⟩⟩
    | calls params reactions =>
      obtain ⟨owner, howner, hcall⟩ := Option.bind_eq_some_iff.mp hu
      obtain ⟨result, -, rfl⟩ := Option.map_eq_some_iff.mp hcall
      refine ⟨fun hidle => absurd (hidle.symm.trans howner) (by simp), fun hrunning => ?_⟩
      obtain ⟨call, hevent⟩ :=
        exists_sessionCall (hrequests params reactions List.mem_cons_self)
      obtain ⟨calls, rfl | ⟨running, sessions, rfl⟩⟩ := hgoing hrunning
      · exact ⟨call :: calls, Or.inl (by rw [hevent, List.map_cons])⟩
      · refine ⟨call :: calls, Or.inr ⟨running, sessions, ?_⟩⟩
        rw [hevent, List.map_cons, List.cons_append]

/-- **Every run falls into sessions.** What is seen of an interleaving in which no start
falls on a running server is one session after the other, when the callbacks for requests
have the arguments of requests. -/
theorem exists_sessions_of_shows {serverName : FString} {paths : ServerPaths}
    {events : List ServiceEvent} {t : LiveServer}
    (hrequests : ∀ params reactions, .calls params reactions ∈ events →
      params.reason = .lwsCallbackHttp → ∃ r : HttpRequest, params = r.params)
    (hshown : Runs.Shows (LiveServer.step lws conv loc) LiveServer.FreshStart LiveServer.seen
      (.new serverName paths) events t) :
    ∃ running sessions, events = sessionEvents running sessions :=
  (sessions_of_exec lws conv loc hrequests
    (hshown.exec LiveServer.view LiveServer.Kept (LiveServer.simulates lws conv loc)
      (LiveServer.kept_new serverName paths))).1 rfl

/-- **From the actor to the clients.** The game thread calls the actor, workers run,
shutdowns take their single steps, in any interleaving in which no start falls on a
running server, and every answer sent is one that a client can frame. Then the log falls
into the sessions, and in each of them the stream of each connection is read as the
messages of the requests on it, filtered by the path that the actor had at the start. -/
theorem sessions_read (hstatus : StatusUnframed lws) {dummy : ℕ → List UInt8}
    {dummyMessage : ℕ → Message}
    (hdummy : ∀ wsi, Delimits responseLength (dummy wsi) (dummyMessage wsi))
    {serverName : FString} {paths : ServerPaths} {running : Bool} {sessions : List Session}
    (hsend : ∀ session ∈ sessions, ∀ r ∈ session.requests, r.accepted conv (session.owner loc) →
      ∀ args ∈ r.answers, Sendable lws args)
    {t : LiveServer}
    (hshown : Runs.Shows (LiveServer.step lws conv loc) LiveServer.FreshStart LiveServer.seen
      (.new serverName paths) (sessionEvents running sessions) t) :
    ∃ logs, t.log = logs.flatten ∧
      List.Forall₂ (fun session log => ∀ wsi, ∃ bytes,
        connectionStream dummy wsi (wireOf log) = some bytes ∧
          readAll responseLength bytes =
            some ((session.requests.filter (·.wsi = wsi)).flatMap
              (messagesOf lws conv (session.owner loc) dummyMessage))) sessions logs := by
  have hexec : Runs.exec (Service.step lws conv loc) Service.new (sessionEvents running sessions) =
      some t.view :=
    hshown.exec LiveServer.view LiveServer.Kept (LiveServer.simulates lws conv loc)
      (LiveServer.kept_new serverName paths)
  obtain ⟨logs, hlog, hsessions⟩ := exec_sessionEvents lws conv loc hexec
  refine ⟨logs, hlog, ?_⟩
  clear hshown hexec hlog
  induction hsessions with
  | nil => exact .nil
  | cons hwire _ ih =>
    rw [List.forall_mem_cons] at hsend
    refine .cons (fun wsi => ?_) (ih hsend.2)
    rw [hwire]
    exact exists_stream_of_requests lws conv hstatus _ hdummy hsend.1 wsi

/-- A start on a server whose object has been deleted meets the condition. -/
theorem freshStart_of_deleted {s t : LiveServer} {created contextCreated : Bool}
    (hdeleted : s.run.actor.target.all (fun thread => !thread.alive) = true) :
    s.FreshStart (.server (.start created contextCreated)) t := by
  intro thread htarget halive
  rw [htarget] at hdeleted
  simp [halive] at hdeleted

/-- A request is answered with 64 letters. -/
def answeredLetters : HandledRequest :=
  ⟨timeRequest, ⟨[], [.plainText (List.replicate 64 120)]⟩⟩

/-- The request comes in two sessions, and only the first one has its path. -/
def twoSessions : List Session :=
  [⟨⟨[], [], text "api"⟩, [.request answeredLetters]⟩,
    ⟨⟨[], [], text "v2"⟩, [.request answeredLetters]⟩]

/-- A run with these sessions: the first shutdown begins while the worker is in service. -/
def twoSessionsRun : List LiveEvent :=
  [.setPaths ⟨[], [], text "api"⟩, .server (.start true true),
    .server (.workerStep 0 .readFlag), .server (.workerStep 0 .testContext),
    .server (.workerStep 0 .enterService),
    .callback 0 answeredLetters.params answeredLetters.reactions,
    .server .beginStop, .server (.stopStep .stopTest), .server (.workerStep 0 .leaveService),
    .server (.stopStep .destroyContext), .server (.stopStep .setNull),
    .server (.workerStep 0 .readFlag), .server (.stopStep .clearFlag),
    .server (.workerStep 0 .testContext), .server (.workerStep 0 .readFlag), .server .endStop,
    .setPaths ⟨[], [], text "v2"⟩, .server (.start true true),
    .server (.workerStep 1 .readFlag), .server (.workerStep 1 .testContext),
    .server (.workerStep 1 .enterService),
    .callback 1 answeredLetters.params answeredLetters.reactions]

/-- In both sessions the client reads what its server answers. -/
theorem twoSessions_read :
    ∃ t, Runs.Shows (LiveServer.step Lws.plain .latin1 .c) LiveServer.FreshStart LiveServer.seen
        (.new (text "LibWebSocket") ⟨[], [], []⟩) (sessionEvents true twoSessions) t ∧
      ∃ logs, t.log = logs.flatten ∧
        List.Forall₂ (fun session log => ∀ wsi, ∃ bytes,
          connectionStream (fun _ => notFoundBytes) wsi (wireOf log) = some bytes ∧
            readAll responseLength bytes =
              some ((session.requests.filter (·.wsi = wsi)).flatMap
                (messagesOf Lws.plain .latin1 (session.owner .c) fun _ => notFound)))
          twoSessions logs := by
  have hshown : ∃ t, Runs.Shows (LiveServer.step Lws.plain .latin1 .c) LiveServer.FreshStart
      LiveServer.seen (.new (text "LibWebSocket") ⟨[], [], []⟩) (sessionEvents true twoSessions)
      t := by
    refine ⟨_, twoSessionsRun, ?_, rfl, rfl⟩
    repeat' apply And.intro
    all_goals first | exact freshStart_of_deleted rfl | trivial
  obtain ⟨t, ht⟩ := hshown
  refine ⟨t, ht, sessions_read Lws.plain .latin1 .c (by simp [StatusUnframed, Lws.plain])
    (fun _ => delimits_notFound) ?_ ht⟩
  intro session hsession r hr _ args hargs
  simp only [twoSessions, List.mem_cons, List.not_mem_nil, or_false] at hsession
  have hletters : session.requests = [answeredLetters] := by
    rcases hsession with rfl | rfl <;> rfl
  rw [hletters, List.mem_singleton] at hr
  subst hr
  obtain rfl : args = .plainText (List.replicate 64 120) := by
    simpa [answeredLetters, HandledRequest.answers] using hargs
  exact sendable_letters

end HttpLws
