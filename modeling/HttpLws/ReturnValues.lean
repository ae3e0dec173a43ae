import HttpLws.Connections

/-!
# The value returned for a request

`SendResponse` stores the value that the library's default handler returned, for
the callback to return it in its turn. `RequestPool` and `Callback_Return` are there
to carry it from the object to the callback. Handlers answer while the callback
runs or later, and the callbacks of all connections follow one another.
-/

namespace HttpLws

/-- Answers sent one after the other. -/
theorem answer_append (lws : Lws) (self : ULwsRequest) (first second : List ResponseArgs) :
    self.answer lws (first ++ second) =
      (((self.answer lws first).1.answer lws second).1,
        (self.answer lws first).2 ++ ((self.answer lws first).1.answer lws second).2) := by
  induction first generalizing self with
  | nil => rfl
  | cons args first ih => simp [ULwsRequest.answer, ih]

/-- An object that is answered holds what the default handler returned for it. -/
theorem retVal_answer (lws : Lws) (self : ULwsRequest) (answers : List ResponseArgs) :
    (self.answer lws answers).1.retVal =
      if answers = [] then self.retVal else lws.httpDummy self.params := by
  induction answers generalizing self with
  | nil => rfl
  | cons args answers ih =>
    have hsent : (sendResponse lws self args).self = { self with
        retVal := lws.httpDummy self.params } := rfl
    rw [ULwsRequest.answer, if_neg (List.cons_ne_nil _ _)]
    simp only [ih, hsent]
    split_ifs <;> rfl

/-- The callback for an accepted request: all answers go through the new object, and
the return value is 0. -/
theorem callbackHttp_accepted (lws : Lws) (conv : AnsiConversion) {owner : Owner}
    {r : HandledRequest} (haccepted : r.accepted conv owner) :
    callbackHttp lws conv (some owner) r.params r.reactions =
      some ⟨some (.http ((ULwsRequest.newObject r.params).answer lws r.answers).1),
        ((ULwsRequest.newObject r.params).answer lws r.answers).2, 0⟩ := by
  rw [callbackHttp_request, if_pos haccepted, HandledRequest.answers, answer_append]

/-- The return value of the callback is the `RetVal` of its object exactly when no
answer was sent or the default handler returned 0. -/
theorem callbackHttp_retVal_iff (lws : Lws) (conv : AnsiConversion) {owner : Owner}
    {r : HandledRequest} (haccepted : r.accepted conv owner) :
    ∃ request calls result, callbackHttp lws conv (some owner) r.params r.reactions =
        some ⟨some (.http request), calls, result⟩ ∧
      (result = request.retVal ↔ r.answers ≠ [] → lws.httpDummy r.params = 0) := by
  refine ⟨_, _, _, callbackHttp_accepted lws conv haccepted, ?_⟩
  rw [retVal_answer]
  by_cases hanswers : r.answers = []
  · simp [hanswers, ULwsRequest.newObject]
  · simp [hanswers, ULwsRequest.newObject, eq_comm]

/-- `RequestPool`: for each connection, the index of its request object. -/
abbrev RequestPool := ℕ → Option ℕ

/-- `FHTTP_Thread_LibWebSocket::Callback_Return`: the return value, and the pool
afterwards. No function of the source calls it. -/
def callbackReturn (objects : List ULwsRequest) (requestPool : RequestPool) (wsi : ℕ) :
    ℤ × RequestPool :=
  match (requestPool wsi).bind fun request => objects[request]? with
  | none => (0, requestPool)
  | some request => (request.retVal, Function.update requestPool wsi none)

/-- A value that `SendResponse` has stored in an object. -/
structure StoredResult where
  /-- The index of the object. -/
  object : ℕ
  /-- The connection of the object. -/
  wsi : ℕ
  /-- The stored `RetVal`. -/
  retVal : ℤ
  /-- How often the library has been given the value for the object. -/
  deliveries : ℕ

/-- A callback that has made its object and has not returned. -/
structure RunningCallback where
  /-- The connection. -/
  wsi : ℕ
  /-- The index of the object. -/
  object : ℕ
  /-- The value that the callback returns at its end. -/
  result : ℤ

/-- A return delivers the value that is stored in the callback's own object. -/
def StoredResult.returned (call : RunningCallback) (r : StoredResult) : StoredResult :=
  if r.object = call.object ∧ r.wsi = call.wsi ∧ r.retVal = call.result then
    { r with deliveries := r.deliveries + 1 }
  else r

/-- The request objects and the pool, with what was stored and returned. -/
structure Exchanges where
  /-- The request objects in the order of their creation. -/
  objects : List ULwsRequest
  /-- The callback that runs. -/
  running : Option RunningCallback
  /-- `RequestPool` -/
  requestPool : RequestPool
  /-- All values stored so far. -/
  results : List StoredResult

/-- What happens next. The library's answers may differ from one event to the next. -/
inductive ExchangeEvent
  /-- The library calls the callback for a request. -/
  | http (lws : Lws) (r : HttpRequest)
  /-- A handler answers through the object with index `i`. -/
  | sendResponse (lws : Lws) (i : ℕ) (args : ResponseArgs)
  /-- The handlers are done and the callback returns. -/
  | returns

namespace Exchanges

/-- No request has come yet. -/
def init : Exchanges := ⟨[], none, fun _ => none, []⟩

variable (conv : AnsiConversion) (owner : Owner)

/-- One event. A request that is refused is over at once; one that is accepted keeps
its callback running until it returns. -/
def step (s : Exchanges) : ExchangeEvent → Option Exchanges
  | .http lws r =>
      match s.running with
      | some _ => none
      | none =>
          (callbackHttp lws conv (some owner) r.params ⟨[], []⟩).map fun c =>
            match c.notified with
            | some (.http request) => { s with
                objects := s.objects ++ [request]
                running := some ⟨r.wsi, s.objects.length, c.result⟩ }
            | _ => s
  | .sendResponse lws i args =>
      s.objects[i]?.map fun o =>
        let sent := HttpLws.sendResponse lws o args
        { s with
          objects := s.objects.set i sent.self
          results := s.results ++ [⟨i, sent.self.params.wsi, sent.self.retVal, 0⟩] }
  | .returns =>
      s.running.map fun call =>
        { s with running := none, results := s.results.map (·.returned call) }

/-- The rule for one step. -/
structure Delivers (s : Exchanges) (e : ExchangeEvent) (t : Exchanges) : Prop where
  /-- A callback returns the `RetVal` of its object, which is 0 without an answer. -/
  returned : e = .returns → ∀ call ∈ s.running, ∀ o, s.objects[call.object]? = some o →
    call.result = o.retVal
  /-- A stored value is not delivered twice, and has been delivered once the callback of
  its object has returned. -/
  once : ∀ r ∈ t.results, r.deliveries ≤ 1 ∧
    ((∀ call ∈ t.running, call.object ≠ r.object) → r.deliveries = 1)
  /-- The pool has an entry for a connection while a value of it is to be delivered. -/
  pooled : ∀ wsi, (t.requestPool wsi).isSome ↔
    ∃ r ∈ t.results, r.wsi = wsi ∧ r.deliveries = 0

/-- The condition for one step: no answer is sent. -/
def Unanswered (_ : Exchanges) (e : ExchangeEvent) (_ : Exchanges) : Prop :=
  match e with
  | .sendResponse .. => False
  | _ => True

/-- What the callback keeps up whatever the handlers do. -/
structure Bare (s : Exchanges) : Prop where
  /-- Nothing is put into the pool. -/
  pool : ∀ wsi, s.requestPool wsi = none
  /-- A callback that has made an object returns 0. -/
  zero : ∀ call ∈ s.running, call.result = 0

/-- What holds as long as no answer is sent. -/
structure Silent (s : Exchanges) : Prop extends Bare s where
  /-- The objects have the `RetVal` they were made with. -/
  retVal : ∀ o ∈ s.objects, o.retVal = 0
  /-- Nothing was stored. -/
  results : s.results = []

/-- Answers through one object, sent one after the other. -/
theorem exec_answers {s : Exchanges} (lws : Lws) {i : ℕ} {o : ULwsRequest}
    (ho : s.objects[i]? = some o) (answers : List ResponseArgs) :
    ∃ t, Runs.exec (step conv owner) s (answers.map (.sendResponse lws i)) = some t ∧
      t.objects = s.objects.set i (o.answer lws answers).1 ∧ t.running = s.running := by
  induction answers generalizing s o with
  | nil =>
    obtain ⟨hlt, rfl⟩ := List.getElem?_eq_some_iff.mp ho
    exact ⟨s, rfl, (List.set_getElem_self hlt).symm, rfl⟩
  | cons args answers ih =>
    have hlt : i < s.objects.length := (List.getElem?_eq_some_iff.mp ho).1
    obtain ⟨t, hexec, hobjects, hrunning⟩ := ih (s := { s with
        objects := s.objects.set i (HttpLws.sendResponse lws o args).self
        results := s.results ++ [⟨i, o.params.wsi, lws.httpDummy o.params, 0⟩] })
      (List.getElem?_set_self hlt)
    refine ⟨t, ?_, ?_, hrunning⟩
    · have hfirst : s.step conv owner (.sendResponse lws i args) = some { s with
          objects := s.objects.set i (HttpLws.sendResponse lws o args).self
          results := s.results ++ [⟨i, o.params.wsi, lws.httpDummy o.params, 0⟩] } := by
        rw [step, ho]
        rfl
      rw [List.map_cons, Runs.exec, hfirst, Option.bind_some, hexec]
    · rw [hobjects, List.set_set]
      rfl

/-- **The callback in steps.** Delivering a request, sending its answers and returning
leaves the object that the callback leaves when the handlers run inside it. -/
theorem exec_callback {s : Exchanges} (hidle : s.running = none) (lws : Lws)
    {r : HandledRequest} (haccepted : r.accepted conv owner) :
    ∃ t request calls result, Runs.exec (step conv owner) s
        (.http lws r.toHttpRequest :: r.answers.map (.sendResponse lws s.objects.length)) =
          some t ∧
      callbackHttp lws conv (some owner) r.params r.reactions =
        some ⟨some (.http request), calls, result⟩ ∧
      t.objects = s.objects ++ [request] ∧
      t.running = some ⟨r.wsi, s.objects.length, result⟩ := by
  have hfirst : s.step conv owner (.http lws r.toHttpRequest) = some { s with
      objects := s.objects ++ [.newObject r.params]
      running := some ⟨r.wsi, s.objects.length, 0⟩ } := by
    simp only [step, hidle, callbackHttp_unhandled, Option.map_some, if_pos haccepted]
  obtain ⟨t, hexec, hobjects, hrunning⟩ := exec_answers conv owner (s := { s with
      objects := s.objects ++ [.newObject r.params]
      running := some ⟨r.wsi, s.objects.length, 0⟩ }) lws
    List.getElem?_concat_length r.answers
  refine ⟨t, _, _, _, ?_, callbackHttp_accepted lws conv haccepted, ?_, hrunning⟩
  · rw [Runs.exec, hfirst, Option.bind_some, hexec]
  · rw [hobjects, List.set_append_right _ _ (le_refl _), Nat.sub_self, List.set_cons_zero]

/-- The two outcomes of a request. -/
theorem step_http {s t : Exchanges} {lws : Lws} {r : HttpRequest}
    (hstep : s.step conv owner (.http lws r) = some t) :
    t = s ∨ t = { s with
      objects := s.objects ++ [.newObject r.params]
      running := some ⟨r.wsi, s.objects.length, 0⟩ } := by
  cases hrunning : s.running with
  | some call => simp [step, hrunning] at hstep
  | none =>
    simp only [step, hrunning, callbackHttp_unhandled, Option.map_some,
      Option.some.injEq] at hstep
    subst hstep
    split_ifs
    · right
      rfl
    · left
      rfl

/-- Every step keeps the pool empty and the return value at 0. -/
theorem bare_step {s t : Exchanges} {e : ExchangeEvent} (hs : s.Bare)
    (hstep : s.step conv owner e = some t) : t.Bare := by
  cases e with
  | http lws r =>
    rcases step_http conv owner hstep with rfl | rfl
    · exact hs
    · exact ⟨hs.pool, by simp⟩
  | sendResponse lws i args =>
    obtain ⟨o, _, rfl⟩ := Option.map_eq_some_iff.mp hstep
    exact ⟨hs.pool, hs.zero⟩
  | returns =>
    obtain ⟨call, _, rfl⟩ := Option.map_eq_some_iff.mp hstep
    exact ⟨hs.pool, by simp⟩

/-- No request has come yet, so nothing is pooled. -/
theorem bare_init : init.Bare := ⟨fun _ => rfl, by simp [init]⟩

/-- **The pool is never filled.** After every run `Callback_Return` would return 0 for
every connection, whatever was stored. -/
theorem callbackReturn_of_exec {events : List ExchangeEvent} {t : Exchanges}
    (hexec : Runs.exec (step conv owner) init events = some t) (wsi : ℕ) :
    callbackReturn t.objects t.requestPool wsi = (0, t.requestPool) := by
  have hbare : t.Bare := by
    apply Runs.exec_preserves Bare _ bare_init hexec
    intro s e t hs hstep
    exact bare_step conv owner hs hstep
  rw [callbackReturn, hbare.pool, Option.bind_none]

/-- Without answers, a step keeps the objects silent. -/
theorem silent_step {s t : Exchanges} {e : ExchangeEvent} (hs : s.Silent)
    (hstep : s.step conv owner e = some t) (hquiet : Unanswered s e t) : t.Silent := by
  refine ⟨bare_step conv owner hs.toBare hstep, ?_, ?_⟩
  · cases e with
    | http lws r =>
      rcases step_http conv owner hstep with rfl | rfl
      · exact hs.retVal
      · intro o ho
        rcases List.mem_append.mp ho with ho | ho
        · exact hs.retVal o ho
        · obtain rfl := List.mem_singleton.mp ho
          rfl
    | sendResponse lws i args => exact absurd hquiet id
    | returns =>
      obtain ⟨call, _, rfl⟩ := Option.map_eq_some_iff.mp hstep
      exact hs.retVal
  · cases e with
    | http lws r =>
      rcases step_http conv owner hstep with rfl | rfl
      · exact hs.results
      · exact hs.results
    | sendResponse lws i args => exact absurd hquiet id
    | returns =>
      obtain ⟨call, _, rfl⟩ := Option.map_eq_some_iff.mp hstep
      simp [hs.results]

/-- An answer breaks the rule: its value is stored and the pool stays empty. -/
theorem not_delivers_sendResponse {s t : Exchanges} {lws : Lws} {i : ℕ} {args : ResponseArgs}
    (hs : s.Bare) (hstep : s.step conv owner (.sendResponse lws i args) = some t) :
    ¬Delivers s (.sendResponse lws i args) t := by
  intro hrule
  have hpool := (bare_step conv owner hs hstep).pool
  obtain ⟨o, _, rfl⟩ := Option.map_eq_some_iff.mp hstep
  have hpooled := (hrule.pooled o.params.wsi).mpr
    ⟨_, List.mem_append_right _ (List.mem_singleton_self _), rfl, rfl⟩
  rw [hpool] at hpooled
  exact absurd hpooled (by decide)

/-- Without answers, every step follows the rule. -/
theorem delivers_of_unanswered {s t : Exchanges} {e : ExchangeEvent} (hs : s.Silent)
    (hstep : s.step conv owner e = some t) (hquiet : Unanswered s e t) : Delivers s e t := by
  have ht := silent_step conv owner hs hstep hquiet
  refine ⟨fun _ call hcall o ho => ?_, ?_, fun wsi => ?_⟩
  · rw [hs.zero call hcall, hs.retVal o (List.mem_of_getElem? ho)]
  · simp [ht.results]
  · simp [ht.results, ht.pool]

/-- **Return values.** In every run over any connections, with any handlers, each
callback returns the value stored in its object, every stored value is delivered
exactly once, and the pool has an entry exactly while a value is to be delivered, if
and only if no answer is ever sent. -/
theorem results_delivered_iff (events : List ExchangeEvent) :
    Runs.EachStep (step conv owner) Delivers init events ↔
      Runs.EachStep (step conv owner) Unanswered init events := by
  have hinit : init.Silent := ⟨bare_init, by simp [init], rfl⟩
  refine (Runs.eachStep_iff_of_invariant Silent ?_ ?_ hinit).symm
  · intro s e t hs hstep
    refine ⟨delivers_of_unanswered conv owner hs hstep, fun hrule => ?_⟩
    cases e with
    | sendResponse lws i args =>
      exact absurd hrule (not_delivers_sendResponse conv owner hs.toBare hstep)
    | _ => trivial
  · intro s e t hs hstep hquiet
    exact silent_step conv owner hs hstep hquiet

/-- A library whose default handler asks for the connection to be closed. -/
def closing : Lws := { Lws.plain with httpDummy := fun _ => -1 }

/-- One answered request on connection 1: -1 is stored in its object, the pool has no
entry for the connection, and the callback returns 0. -/
theorem stored_result_not_delivered :
    ¬Runs.EachStep (step .latin1 ⟨⟨ascii "api", 3⟩⟩) Delivers init
        [.http closing timeRequest, .sendResponse closing 0 (.plainText (text "noon")),
          .returns] ∧
      ∃ t, Runs.exec (step .latin1 ⟨⟨ascii "api", 3⟩⟩) init
          [.http closing timeRequest, .sendResponse closing 0 (.plainText (text "noon"))] =
            some t ∧
        t.running = some ⟨1, 0, 0⟩ ∧ t.objects.map (·.retVal) = [-1] ∧
        t.requestPool 1 = none := by
  have hhttp : init.step .latin1 ⟨⟨ascii "api", 3⟩⟩ (.http closing timeRequest) = some
      ⟨[.newObject timeRequest.params], some ⟨1, 0, 0⟩, fun _ => none, []⟩ := by
    have haccepted : timeRequest.accepted .latin1 ⟨⟨ascii "api", 3⟩⟩ = true := by decide
    simp only [step, init, callbackHttp_unhandled, Option.map_some, if_pos haccepted]
    rfl
  have hanswer : Exchanges.step .latin1 ⟨⟨ascii "api", 3⟩⟩
      ⟨[.newObject timeRequest.params], some ⟨1, 0, 0⟩, fun _ => none, []⟩
      (.sendResponse closing 0 (.plainText (text "noon"))) = some
        ⟨[⟨timeRequest.params, -1⟩], some ⟨1, 0, 0⟩, fun _ => none, [⟨0, 1, -1, 0⟩]⟩ := rfl
  constructor
  · intro hrun
    rw [Runs.eachStep_cons_some hhttp, Runs.eachStep_cons_some hanswer] at hrun
    exact not_delivers_sendResponse .latin1 _ ⟨fun _ => rfl, by simp⟩ hanswer hrun.2.1
  · refine ⟨⟨[⟨timeRequest.params, -1⟩], some ⟨1, 0, 0⟩, fun _ => none, [⟨0, 1, -1, 0⟩]⟩, ?_,
      rfl, rfl, rfl⟩
    rw [Runs.exec, hhttp, Option.bind_some, Runs.exec, hanswer, Option.bind_some, Runs.exec]

end Exchanges

end HttpLws
