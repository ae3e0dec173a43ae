import HttpLws.Connections
import HttpLws.Stream

/-!
# Answers that are sent later

Handlers keep the objects of many connections and answer when they like. Beside the
world the journal holds all requests, each with the answer that its object was used for,
and the library calls with the connections that they acted on. While objects are used in
time, each client reads what the journal holds about its requests.
-/

namespace HttpLws

open HeaderBlock MessageStream

variable (lws : Lws) (conv : AnsiConversion)

/-- A request, and the answer that its object was used for. -/
structure Exchange where
  /-- The number of the connection. -/
  connection : ℕ
  /-- The request. -/
  request : HttpRequest
  /-- The answer. -/
  answer : Option ResponseArgs

/-- The messages of an exchange: an answer and behind it that of the default handler, and
this one alone for a refused request. -/
def Exchange.messages (owner : Owner) (dummyMessage : ℕ → Message) (e : Exchange) : List Message :=
  if e.request.accepted conv owner then
    e.answer.toList.flatMap fun args => [answerMessage lws args, dummyMessage e.connection]
  else [dummyMessage e.connection]

/-- The world, and what has happened in it. -/
structure Journal where
  /-- The connections and the objects. -/
  world : World
  /-- The exchanges by the number of their request. -/
  exchanges : List Exchange
  /-- The library calls, with the number of the connection that they acted on. -/
  sent : Wire

/-- Nothing has happened yet. -/
def Journal.init : Journal := ⟨.init, [], []⟩

/-- The numbers of the open connections by address. -/
def Connections.ids (conns : Connections) (wsi : ℕ) : Option ℕ := (conns wsi).map (·.id)

/-- The answer that a handler sends in an event. -/
def Event.answer : Event → Option ResponseArgs
  | .use _ (.sendResponse args) => some args
  | _ => none

/-- The library calls of an event. For the reasons that close a connection the callback
makes none. -/
def World.calls (owner : Owner) (s : World) : Event → Wire
  | .http r =>
      match s.conns.ids r.wsi, callbackHttp lws conv (some owner) r.params ⟨[], []⟩ with
      | some id, some result => result.calls.map (id, ·)
      | _, _ => []
  | .use i entry =>
      match s.objects[i]? with
      | none => []
      | some o =>
          match s.conns.ids o.self.params.wsi with
          | none => []
          | some id => (entry.calls lws o.self).map (id, ·)
  | _ => []

namespace Journal

/-- The exchanges after an event: a request opens one, and an answer belongs to the one
that its object was made for. -/
def recorded (s : Journal) : Event → List Exchange
  | .http r =>
      match s.world.conns.ids r.wsi with
      | none => s.exchanges
      | some id => s.exchanges ++ [⟨id, r, none⟩]
  | .use i (.sendResponse args) =>
      match s.world.objects[i]? with
      | none => s.exchanges
      | some o => s.exchanges.modify o.lease.occupant.2 ({ · with answer := some args })
  | _ => s.exchanges

/-- One event. -/
def step (owner : Owner) (s : Journal) (e : Event) : Option Journal :=
  (s.world.step lws conv owner e).map fun world =>
    ⟨world, s.recorded e, s.sent ++ s.world.calls lws conv owner e⟩

/-- The condition for one step: the object is used in time, and an answer is one that a
client can frame. -/
def FramedInTime (s : Journal) (e : Event) (t : Journal) : Prop :=
  UsedInTime lws s.world e t.world ∧ ∀ args ∈ e.answer, Sendable lws args

/-- The exchange with a number is the last of its connection, and has no answer yet. -/
def Awaits (owner : Owner) (exchanges : List Exchange) (id n : ℕ) : Prop :=
  ∃ e, exchanges[n]? = some e ∧ e.connection = id ∧ e.answer = none ∧
    e.request.accepted conv owner ∧
    ∀ m later, n < m → exchanges[m]? = some later → later.connection ≠ id

/-- What links the journal to the world. -/
structure Kept (owner : Owner) (s : Journal) : Prop where
  /-- The objects are valid. -/
  valid : s.world.Valid
  /-- Every object was made for a request. -/
  reasons : ∀ o ∈ s.world.objects, o.self.params.reason = .lwsCallbackHttp
  /-- Requests are numbered by their exchanges. -/
  numbered : s.exchanges.length = s.world.nextRequest
  /-- The numbers of open connections have been given out. -/
  older : ∀ wsi id, s.world.conns.ids wsi = some id → id < s.world.nextConnection
  /-- A number belongs to one address. -/
  apart : ∀ wsi wsi' id, s.world.conns.ids wsi = some id → s.world.conns.ids wsi' = some id →
    wsi = wsi'
  /-- A request that is being served awaits its answer. -/
  awaits : ∀ wsi id n, s.world.conns.serving wsi = some (id, n) →
    Awaits conv owner s.exchanges id n

/-- Each connection was sent pieces that delimit the messages of its exchanges. -/
def Told (owner : Owner) (dummy : ℕ → List UInt8) (dummyMessage : ℕ → Message) (s : Journal) :
    Prop :=
  ∀ id, ∃ pieces, connectionStream dummy id s.sent = some pieces.flatten ∧
    List.Forall₂ (Delimits responseLength) pieces
      ((s.exchanges.filter (·.connection = id)).flatMap
        (Exchange.messages lws conv owner dummyMessage))

end Journal

/-- The numbers when one address changes. -/
theorem ids_update (conns : Connections) (wsi : ℕ) (c : Option Connection) :
    Connections.ids (Function.update conns wsi c) =
      Function.update conns.ids wsi (c.map (·.id)) := by
  funext w
  by_cases hw : w = wsi
  · subst hw
    simp [Connections.ids]
  · simp [Connections.ids, Function.update_of_ne hw]

/-- Calls change no number. -/
theorem ids_afterCalls (conns : Connections) (wsi : ℕ) (calls : List LwsCall) :
    (conns.afterCalls wsi calls).ids = conns.ids := by
  induction calls generalizing conns with
  | nil => rfl
  | cons call calls ih =>
    have hrest := ih (conns.afterCall wsi call)
    rw [Connections.afterCalls] at hrest
    rw [Connections.afterCalls, List.foldl_cons, hrest, Connections.afterCall]
    split_ifs
    · rw [ids_update, Option.map_map]
      exact Function.update_eq_self wsi conns.ids
    · rfl

/-- A connection with a request has a number. -/
theorem ids_of_serving {conns : Connections} {wsi id n : ℕ}
    (h : conns.serving wsi = some (id, n)) : conns.ids wsi = some id := by
  obtain ⟨c, hc, hrequest⟩ := Option.bind_eq_some_iff.mp h
  obtain ⟨m, -, heq⟩ := Option.map_eq_some_iff.mp hrequest
  rw [Connections.ids, hc, Option.map_some, (Prod.mk.inj heq).1]

/-- What a connection is sent by calls on one connection. -/
theorem connectionStream_append (dummy : ℕ → List UInt8) (id id' : ℕ) (sent : Wire)
    (calls : List LwsCall) {bytes : List UInt8}
    (hbytes : connectionStream dummy id sent = some bytes) :
    connectionStream dummy id (sent ++ calls.map (id', ·)) =
      if id' = id then (sentBytes (dummy id) calls).map (bytes ++ ·) else some bytes := by
  rw [connectionStream] at hbytes ⊢
  rw [List.filter_append, List.map_append, sentBytes_append, hbytes, Option.bind_some,
    List.filter_map, List.map_map]
  split_ifs with hid
  · simp [Function.comp_def, hid]
  · simp [Function.comp_def, hid, sentBytes]

namespace Journal

/-- A later exchange of another connection leaves an exchange the last of its own. -/
theorem Awaits.append {owner : Owner} {exchanges : List Exchange} {id n : ℕ}
    (h : Awaits conv owner exchanges id n) {e : Exchange} (he : e.connection ≠ id) :
    Awaits conv owner (exchanges ++ [e]) id n := by
  obtain ⟨old, hold, hid, hanswer, haccepted, hlast⟩ := h
  have hn : n < exchanges.length := (List.getElem?_eq_some_iff.mp hold).1
  refine ⟨old, by rw [List.getElem?_append_left hn, hold], hid, hanswer, haccepted,
    fun m later hm hlater => ?_⟩
  rcases Nat.lt_trichotomy m exchanges.length with hlt | rfl | hgt
  · rw [List.getElem?_append_left hlt] at hlater
    exact hlast m later hm hlater
  · rw [List.getElem?_concat_length, Option.some.injEq] at hlater
    rwa [← hlater]
  · rw [List.getElem?_eq_none (by rw [List.length_append, List.length_singleton]; omega)] at hlater
    cases hlater

/-- A request that was just recorded awaits its answer. -/
theorem awaits_new {owner : Owner} (exchanges : List Exchange) {id : ℕ} {r : HttpRequest}
    (haccepted : r.accepted conv owner) :
    Awaits conv owner (exchanges ++ [⟨id, r, none⟩]) id exchanges.length := by
  refine ⟨⟨id, r, none⟩, List.getElem?_concat_length .., rfl, rfl, haccepted,
    fun m later hm hlater => ?_⟩
  rw [List.getElem?_eq_none (by rw [List.length_append, List.length_singleton]; omega)] at hlater
  cases hlater

/-- An answer on another connection leaves an exchange as it is. -/
theorem Awaits.modify {owner : Owner} {exchanges : List Exchange} {id id' n n' : ℕ}
    (h : Awaits conv owner exchanges id n) (h' : Awaits conv owner exchanges id' n')
    (hid : id' ≠ id) (args : ResponseArgs) :
    Awaits conv owner (exchanges.modify n' ({ · with answer := some args })) id n := by
  obtain ⟨e, he, hconnection, hanswer, haccepted, hlast⟩ := h
  obtain ⟨e', he', hconnection', -⟩ := h'
  have hne : n' ≠ n := by
    rintro rfl
    rw [he, Option.some.injEq] at he'
    rw [← hconnection', ← he', hconnection] at hid
    exact hid rfl
  refine ⟨e, ?_, hconnection, hanswer, haccepted, fun m later hm hlater => ?_⟩
  · rw [List.getElem?_modify, he]
    simp [hne]
  · rw [List.getElem?_modify] at hlater
    obtain ⟨old, hold, rfl⟩ := Option.map_eq_some_iff.mp hlater
    have hother := hlast m old hm hold
    split_ifs <;> exact hother

/-- An answer stands behind all other messages of its connection. -/
theorem Awaits.messages {owner : Owner} {exchanges : List Exchange} {id n : ℕ}
    (h : Awaits conv owner exchanges id n) (dummyMessage : ℕ → Message) (args : ResponseArgs)
    (id' : ℕ) :
    ((exchanges.modify n ({ · with answer := some args })).filter
        (·.connection = id')).flatMap (Exchange.messages lws conv owner dummyMessage) =
      (exchanges.filter (·.connection = id')).flatMap
          (Exchange.messages lws conv owner dummyMessage) ++
        if id = id' then [answerMessage lws args, dummyMessage id] else [] := by
  obtain ⟨e, he, rfl, hanswer, haccepted, hlast⟩ := h
  obtain ⟨hn, heq⟩ := List.getElem?_eq_some_iff.mp he
  have hsplit : exchanges = exchanges.take n ++ e :: exchanges.drop (n + 1) := by
    rw [← heq, List.getElem_cons_drop, List.take_append_drop]
  have hmodify : exchanges.modify n ({ · with answer := some args }) =
      exchanges.take n ++ { e with answer := some args } :: exchanges.drop (n + 1) := by
    rw [List.modify_eq_take_cons_drop hn, heq]
  have hnone : e.messages lws conv owner dummyMessage = [] := by
    rw [Exchange.messages, if_pos haccepted, hanswer]
    rfl
  have hsome : Exchange.messages lws conv owner dummyMessage { e with answer := some args } =
      [answerMessage lws args, dummyMessage e.connection] := by
    rw [Exchange.messages, if_pos haccepted]
    rfl
  have hafter : (exchanges.drop (n + 1)).filter (·.connection = e.connection) = [] := by
    rw [List.filter_eq_nil_iff]
    intro later hlater
    obtain ⟨k, hk⟩ := List.mem_iff_getElem?.mp hlater
    rw [List.getElem?_drop] at hk
    simpa using hlast (n + 1 + k) later (by omega) hk
  rw [hmodify]
  conv_rhs => rw [hsplit]
  by_cases hid : e.connection = id'
  · subst hid
    simp [hafter, hnone, hsome]
  · simp [hid]

/-- Where a function of which one value was taken away has a value, it had it before. -/
theorem of_update_none {T : Type} {f : ℕ → Option T} {a b : ℕ} {x : T}
    (h : Function.update f a none b = some x) : b ≠ a ∧ f b = some x := by
  have hne : b ≠ a := by
    rintro rfl
    rw [Function.update_self] at h
    cases h
  rw [Function.update_of_ne hne] at h
  exact ⟨hne, h⟩

/-- There is nothing at the beginning. -/
theorem kept_init (owner : Owner) : Kept conv owner init := by
  refine ⟨⟨?_, ?_⟩, ?_, rfl, fun _ _ hid => ?_, fun _ _ _ hid => ?_, fun _ _ _ hserving => ?_⟩
  · simp [init, World.init]
  · simp [init, World.init]
  · simp [init, World.init]
  · cases hid
  · cases hid
  · cases hserving

/-- Opening a connection. -/
theorem Kept.opened {owner : Owner} {s : Journal} {world : World} {wsi : ℕ} {sent : Wire}
    (hs : Kept conv owner s) (hstep : s.world.step lws conv owner (.opened wsi) = some world) :
    Kept conv owner ⟨world, s.exchanges, sent⟩ := by
  have hvalid := valid_step lws conv hs.valid hstep
  cases hconn : s.world.conns wsi with
  | some c => simp [World.step, hconn] at hstep
  | none =>
    simp only [World.step, hconn, Option.some.injEq] at hstep
    subst hstep
    have hids : ∀ w id, Connections.ids (Function.update s.world.conns wsi
        (some ⟨s.world.nextConnection, none⟩)) w = some id →
          w = wsi ∧ id = s.world.nextConnection ∨ w ≠ wsi ∧ s.world.conns.ids w = some id := by
      intro w id hid
      rw [ids_update] at hid
      by_cases hw : w = wsi
      · subst hw
        rw [Function.update_self] at hid
        exact Or.inl ⟨rfl, (Option.some.inj hid).symm⟩
      · rw [Function.update_of_ne hw] at hid
        exact Or.inr ⟨hw, hid⟩
    refine ⟨hvalid, hs.reasons, hs.numbered, fun w id hid => ?_, fun w w' id hid hid' => ?_,
      fun w id n hserving => ?_⟩
    · rcases hids w id hid with ⟨-, rfl⟩ | ⟨-, hold⟩
      · exact Nat.lt_succ_self _
      · exact Nat.lt_succ_of_lt (hs.older w id hold)
    · rcases hids w id hid with ⟨rfl, hnew⟩ | ⟨-, hold⟩ <;>
        rcases hids w' id hid' with ⟨rfl, hnew'⟩ | ⟨-, hold'⟩
      · rfl
      · have hlt := hs.older w' id hold'
        omega
      · have hlt := hs.older w id hold
        omega
      · exact hs.apart w w' id hold hold'
    · rw [serving_update, Option.bind_some, Option.map_none] at hserving
      exact hs.awaits w id n (of_update_none hserving).2

/-- Closing a connection. -/
theorem Kept.closed {owner : Owner} {s : Journal} {world : World} {wsi : ℕ}
    {reason : LwsCallbackReasons} {sent : Wire} (hs : Kept conv owner s)
    (hstep : s.world.step lws conv owner (.closed wsi reason) = some world) :
    Kept conv owner ⟨world, s.exchanges, sent⟩ := by
  have hvalid := valid_step lws conv hs.valid hstep
  cases hconn : s.world.conns wsi with
  | none => simp [World.step, hconn] at hstep
  | some c =>
    simp only [World.step, hconn] at hstep
    split_ifs at hstep with hreason
    obtain ⟨result, -, rfl⟩ := Option.map_eq_some_iff.mp hstep
    have hids : ∀ w id, Connections.ids
        (Function.update (s.world.conns.afterCalls wsi result.calls) wsi none) w = some id →
          s.world.conns.ids w = some id := by
      intro w id hid
      rw [ids_update, ids_afterCalls, Option.map_none] at hid
      exact (of_update_none hid).2
    have hserving : Connections.serving
        (Function.update (s.world.conns.afterCalls wsi result.calls) wsi none) =
        Function.update s.world.conns.serving wsi none := by
      rw [serving_update, serving_afterCalls]
      split_ifs <;> simp
    refine ⟨hvalid, fun o ho => ?_, hs.numbered, fun w id hid => hs.older w id (hids w id hid),
      fun w w' id hid hid' => hs.apart w w' id (hids w id hid) (hids w' id hid'),
      fun w id n hw => ?_⟩
    · obtain ⟨old, hold, rfl⟩ := List.mem_map.mp ho
      exact hs.reasons old hold
    · dsimp only at hw
      rw [hserving] at hw
      exact hs.awaits w id n (of_update_none hw).2

/-- A request. -/
theorem Kept.http {owner : Owner} {s : Journal} {world : World} {r : HttpRequest} {sent : Wire}
    (hs : Kept conv owner s) (hstep : s.world.step lws conv owner (.http r) = some world) :
    Kept conv owner ⟨world, s.recorded (.http r), sent⟩ := by
  have hvalid := valid_step lws conv hs.valid hstep
  cases hconn : s.world.conns r.wsi with
  | none => simp [World.step, hconn] at hstep
  | some c =>
    simp only [World.step, hconn, callbackHttp_unhandled, Option.map_some,
      Option.some.injEq] at hstep
    subst hstep
    have hid : s.world.conns.ids r.wsi = some c.id := by
      rw [Connections.ids, hconn, Option.map_some]
    have hrecorded : s.recorded (.http r) = s.exchanges ++ [⟨c.id, r, none⟩] := by
      rw [recorded, hid]
    have hids : ∀ calls : List LwsCall, Connections.ids (Connections.afterCalls
        (Function.update s.world.conns r.wsi (some ⟨c.id, some s.world.nextRequest⟩)) r.wsi
        calls) = s.world.conns.ids := by
      intro calls
      rw [ids_afterCalls, ids_update, Option.map_some, ← hid]
      exact Function.update_eq_self _ _
    rw [hrecorded]
    refine ⟨hvalid, fun o ho => ?_, ?_, fun w id hw => ?_, fun w w' id hw hw' => ?_,
      fun w id n hw => ?_⟩
    · rcases List.mem_append.mp ho with ho | ho
      · obtain ⟨old, hold, rfl⟩ := List.mem_map.mp ho
        exact hs.reasons old hold
      · split_ifs at ho
        · obtain rfl := List.mem_singleton.mp ho
          rfl
        · cases ho
    · rw [List.length_append, hs.numbered, List.length_singleton]
    · dsimp only at hw
      rw [hids] at hw
      exact hs.older w id hw
    · dsimp only at hw hw'
      rw [hids] at hw hw'
      exact hs.apart w w' id hw hw'
    · dsimp only at hw
      rw [serving_request] at hw
      by_cases hwsi : w = r.wsi
      · subst hwsi
        rw [Function.update_self] at hw
        split_ifs at hw with haccepted hcompletes hcompletes
        · obtain ⟨rfl, rfl⟩ := Prod.mk.inj (Option.some.inj hw)
          rw [← hs.numbered]
          exact awaits_new conv s.exchanges haccepted
        · cases hcompletes rfl
      · rw [Function.update_of_ne hwsi] at hw
        refine (hs.awaits w id n hw).append conv fun hsame => hwsi ?_
        have hsame' : c.id = id := hsame
        rw [hsame'] at hid
        exact hs.apart w r.wsi id (ids_of_serving hw) hid

/-- An object that is used in time for library calls leads to the request that it was made
for. -/
theorem serving_of_inTime {s t : World} (hs : s.Valid) {i : ℕ} {entry : Entry} {o : HeldObject}
    (hobject : s.objects[i]? = some o) (htime : UsedInTime lws s (.use i entry) t)
    (hcalls : entry.calls lws o.self ≠ []) :
    s.conns.serving o.self.params.wsi = some o.lease.occupant := by
  simp only [UsedInTime, hobject] at htime
  have hlease := (hs.leases o (List.mem_of_getElem? hobject)).mp (htime hcalls)
  rwa [← o.sameAddress] at hlease

/-- The calls of an answer. -/
theorem calls_sendResponse {self : ULwsRequest} (hreason : self.params.reason = .lwsCallbackHttp)
    (args : ResponseArgs) :
    (Entry.sendResponse args).calls lws self ≠ [] ∧
      ((Entry.sendResponse args).calls lws self).any LwsCall.completes = true := by
  have hcalls : (Entry.sendResponse args).calls lws self = (sendResponse lws self args).calls := rfl
  rw [hcalls, sendResponse, sendResponseFrom_calls, hreason]
  simp [LwsCall.completes]

/-- Using an object. -/
theorem Kept.use {owner : Owner} {s : Journal} {world : World} {i : ℕ} {entry : Entry} {sent : Wire}
    (hs : Kept conv owner s) (hstep : s.world.step lws conv owner (.use i entry) = some world)
    (htime : UsedInTime lws s.world (.use i entry) world) :
    Kept conv owner ⟨world, s.recorded (.use i entry), sent⟩ := by
  have hvalid := valid_step lws conv hs.valid hstep
  cases hobject : s.world.objects[i]? with
  | none => simp [World.step, hobject] at hstep
  | some o =>
    simp only [World.step, hobject, Option.some.injEq] at hstep
    subst hstep
    have ho := hs.reasons o (List.mem_of_getElem? hobject)
    refine ⟨hvalid, fun o' ho' => ?_, ?_, fun w id hw => ?_, fun w w' id hw hw' => ?_,
      fun w id n hw => ?_⟩
    · rcases List.mem_or_eq_of_mem_set ho' with ho' | rfl
      · obtain ⟨old, hold, rfl⟩ := List.mem_map.mp ho'
        split_ifs
        · exact hs.reasons old hold
        · exact hs.reasons old hold
      · cases entry with
        | sendResponse args => split_ifs <;> exact ho
        | getter queries => split_ifs <;> exact ho
    · cases entry with
      | sendResponse args => rw [recorded, hobject, List.length_modify, hs.numbered]
      | getter queries => exact hs.numbered
    · dsimp only at hw
      rw [ids_afterCalls] at hw
      exact hs.older w id hw
    · dsimp only at hw hw'
      rw [ids_afterCalls] at hw hw'
      exact hs.apart w w' id hw hw'
    · dsimp only at hw
      rw [serving_afterCalls] at hw
      cases entry with
      | getter queries =>
        have hold : s.world.conns.serving w = some (id, n) := by
          split_ifs at hw
          · exact (of_update_none hw).2
          · exact hw
        exact hs.awaits w id n hold
      | sendResponse args =>
        obtain ⟨hne, hcompletes⟩ := calls_sendResponse lws ho args
        have hown := serving_of_inTime lws hs.valid hobject htime hne
        rw [if_pos hcompletes] at hw
        obtain ⟨hother, hold⟩ := of_update_none hw
        rw [recorded, hobject]
        refine (hs.awaits w id n hold).modify conv (hs.awaits _ _ _ hown) (fun hsame => ?_) args
        have hid := ids_of_serving hown
        rw [hsame] at hid
        exact hother (hs.apart w _ id (ids_of_serving hold) hid)

/-- Every step under the condition keeps what links the journal to the world. -/
theorem Kept.step {owner : Owner} {s t : Journal} {e : Event} (hs : Kept conv owner s)
    (hstep : s.step lws conv owner e = some t) (htime : s.FramedInTime lws e t) :
    Kept conv owner t := by
  obtain ⟨world, hworld, rfl⟩ := Option.map_eq_some_iff.mp hstep
  cases e with
  | opened wsi => exact hs.opened lws conv hworld
  | closed wsi reason => exact hs.closed lws conv hworld
  | http r => exact hs.http lws conv hworld
  | use i entry => exact hs.use lws conv hworld htime.1

/-- What is sent on one connection is told when it delimits the messages that are recorded
for it. -/
theorem Told.extend {owner : Owner} {dummy : ℕ → List UInt8} {dummyMessage : ℕ → Message}
    {s t : Journal} (hs : Told lws conv owner dummy dummyMessage s) (id : ℕ)
    (calls : List LwsCall) (pieces : List (List UInt8)) {messages : List Message}
    (hsent : t.sent = s.sent ++ calls.map (id, ·))
    (hbytes : sentBytes (dummy id) calls = some pieces.flatten)
    (hpieces : List.Forall₂ (Delimits responseLength) pieces messages)
    (hmessages : ∀ id', (t.exchanges.filter (·.connection = id')).flatMap
        (Exchange.messages lws conv owner dummyMessage) =
      (s.exchanges.filter (·.connection = id')).flatMap
          (Exchange.messages lws conv owner dummyMessage) ++ if id = id' then messages else []) :
    Told lws conv owner dummy dummyMessage t := by
  intro id'
  obtain ⟨old, hold, hdelimits⟩ := hs id'
  rw [hsent, connectionStream_append dummy id' id s.sent calls hold, hmessages]
  by_cases hid : id = id'
  · subst hid
    refine ⟨old ++ pieces, ?_, ?_⟩
    · rw [if_pos rfl, hbytes, Option.map_some, List.flatten_append]
    · rw [if_pos rfl]
      exact List.rel_append hdelimits hpieces
  · refine ⟨old, by rw [if_neg hid], ?_⟩
    rw [if_neg hid, List.append_nil]
    exact hdelimits

/-- A step that sends nothing and records nothing. -/
theorem Told.same {owner : Owner} {dummy : ℕ → List UInt8} {dummyMessage : ℕ → Message}
    {s t : Journal} (hs : Told lws conv owner dummy dummyMessage s) (hsent : t.sent = s.sent)
    (hexchanges : t.exchanges = s.exchanges) : Told lws conv owner dummy dummyMessage t := by
  intro id
  rw [hsent, hexchanges]
  exact hs id

/-- Reading calls send nothing. -/
theorem sentBytes_query (dummy : List UInt8) (queries : List HeaderQuery) :
    sentBytes dummy (queries.map .query) = some [] := by
  induction queries with
  | nil => rfl
  | cons query queries ih =>
    rw [List.map_cons, sentBytes, ih]
    rfl

/-- A request is told: a refused one is answered by the default handler. -/
theorem Told.http {owner : Owner} {dummy : ℕ → List UInt8} {dummyMessage : ℕ → Message}
    (hdummy : ∀ id, Delimits responseLength (dummy id) (dummyMessage id)) {s : Journal}
    (hs : Told lws conv owner dummy dummyMessage s) (world : World) (r : HttpRequest) :
    Told lws conv owner dummy dummyMessage
      ⟨world, s.recorded (.http r), s.sent ++ s.world.calls lws conv owner (.http r)⟩ := by
  cases hid : s.world.conns.ids r.wsi with
  | none =>
    apply hs.same
    · simp [World.calls, hid]
    · simp [recorded, hid]
  | some id =>
    have hcalls : s.world.calls lws conv owner (.http r) =
        (if r.accepted conv owner then [] else [LwsCall.callbackHttpDummy .lwsCallbackHttp]).map
          (id, ·) := by
      rw [World.calls, hid, callbackHttp_unhandled]
      split_ifs <;> rfl
    have hnew : ∀ id', ((s.recorded (.http r)).filter (·.connection = id')).flatMap
          (Exchange.messages lws conv owner dummyMessage) =
        (s.exchanges.filter (·.connection = id')).flatMap
            (Exchange.messages lws conv owner dummyMessage) ++
          if id = id' then
            if r.accepted conv owner then [] else [dummyMessage id]
          else [] := by
      intro id'
      rw [recorded, hid, List.filter_append, List.flatMap_append]
      congr 1
      by_cases hsame : id = id'
      · simp [hsame, Exchange.messages]
      · simp [hsame]
    by_cases haccepted : r.accepted conv owner
    · rw [if_pos haccepted] at hcalls hnew
      exact hs.extend lws conv id [] [] (by rw [hcalls]) rfl .nil hnew
    · rw [if_neg haccepted] at hcalls hnew
      refine hs.extend lws conv id [.callbackHttpDummy .lwsCallbackHttp] [dummy id]
        (by rw [hcalls]) ?_ (.cons (hdummy id) .nil) hnew
      simp [sentBytes, LwsCall.sent]

/-- The use of an object is told: an answer stands behind all other messages of its
connection. -/
theorem Told.use {owner : Owner} {dummy : ℕ → List UInt8} {dummyMessage : ℕ → Message}
    (hstatus : StatusUnframed lws)
    (hdummy : ∀ id, Delimits responseLength (dummy id) (dummyMessage id)) {s : Journal}
    (hkept : Kept conv owner s) (hs : Told lws conv owner dummy dummyMessage s) {world : World}
    {i : ℕ} {entry : Entry} (htime : UsedInTime lws s.world (.use i entry) world)
    (hsend : ∀ args ∈ (Event.use i entry).answer, Sendable lws args) :
    Told lws conv owner dummy dummyMessage
      ⟨world, s.recorded (.use i entry), s.sent ++ s.world.calls lws conv owner (.use i entry)⟩ := by
  cases hobject : s.world.objects[i]? with
  | none =>
    apply hs.same
    · simp [World.calls, hobject]
    · cases entry <;> simp [recorded, hobject]
  | some o =>
    cases entry with
    | getter queries =>
      cases hid : s.world.conns.ids o.self.params.wsi with
      | none =>
        apply hs.same
        · simp [World.calls, hobject, hid]
        · rfl
      | some id =>
        refine hs.extend lws conv id (queries.map .query) [] ?_ (sentBytes_query _ queries) .nil
          fun id' => ?_
        · simp [World.calls, hobject, hid, Entry.calls]
        · simp [recorded]
    | sendResponse args =>
      have hreason := hkept.reasons o (List.mem_of_getElem? hobject)
      have hown := serving_of_inTime lws hkept.valid hobject htime
        (calls_sendResponse lws hreason args).1
      have hframed := hsend args rfl
      have hid := ids_of_serving hown
      have hbytes := sentBytes_sendResponse lws hframed.covers hframed.held
        (dummy o.lease.occupant.1) o.self hreason
      refine hs.extend lws conv o.lease.occupant.1 (sendResponse lws o.self args).calls
        [(headerLines lws args).flatten ++
          (tcharToUtf8 args.inResponse).take args.inResponse.len, dummy o.lease.occupant.1]
        ?_ ?_ (.cons (delimits_answer lws hstatus hframed) (.cons (hdummy _) .nil)) fun id' => ?_
      · simp [World.calls, hobject, hid, Entry.calls]
      · rw [hbytes]
        simp
      · rw [recorded, hobject]
        exact (hkept.awaits _ _ _ hown).messages lws conv dummyMessage args id'

/-- **Answers follow their requests.** Connections are opened and closed and their
addresses used again, requests come on all of them, and handlers keep the objects and
answer when they like. As long as every object is used in time, for answers that a client
can frame, each connection is sent what its client reads as the exchanges of this
connection in the order of the requests: no answer is lost, sent twice, sent before that
to an earlier request or sent to another connection. -/
theorem answers_follow_requests (hstatus : StatusUnframed lws) (owner : Owner)
    {dummy : ℕ → List UInt8} {dummyMessage : ℕ → Message}
    (hdummy : ∀ id, Delimits responseLength (dummy id) (dummyMessage id)) {events : List Event}
    {s : Journal}
    (hrun : Runs.EachStep (step lws conv owner) (FramedInTime lws) init events)
    (hexec : Runs.exec (step lws conv owner) init events = some s) (id : ℕ) :
    ∃ bytes, connectionStream dummy id s.sent = some bytes ∧
      readAll responseLength bytes =
        some ((s.exchanges.filter (·.connection = id)).flatMap
          (Exchange.messages lws conv owner dummyMessage)) := by
  have hinv : Kept conv owner s ∧ Told lws conv owner dummy dummyMessage s := by
    apply Runs.exec_invariant
      (fun t => Kept conv owner t ∧ Told lws conv owner dummy dummyMessage t) _ ⟨?_, ?_⟩ hrun hexec
    · rintro t e u ⟨hkept, htold⟩ hstep htime
      refine ⟨hkept.step lws conv hstep htime, ?_⟩
      obtain ⟨world, -, rfl⟩ := Option.map_eq_some_iff.mp hstep
      cases e with
      | opened _ | closed _ _ => exact htold.same lws conv (List.append_nil _) rfl
      | http r => exact htold.http lws conv hdummy world r
      | use i entry => exact htold.use lws conv hstatus hdummy hkept htime.1 htime.2
    · exact kept_init conv owner
    · exact fun id => ⟨[], rfl, .nil⟩
  obtain ⟨pieces, hbytes, hpieces⟩ := hinv.2 id
  exact ⟨pieces.flatten, hbytes, readAll_flatten hpieces⟩

/-- Two connections are answered in the other order, and the address of the first one is
used again. -/
def crossedAnswers : List Event :=
  [.opened 1, .opened 2, .http timeRequest, .http { timeRequest with wsi := 2 },
    .use 1 (.sendResponse (.plainText (List.replicate 64 120))),
    .use 0 (.sendResponse (.plainText (List.replicate 64 120))),
    .closed 1 .lwsCallbackClosedHttp, .opened 1, .http timeRequest,
    .use 2 (.sendResponse (.plainText (List.replicate 64 120)))]

/-- All three clients read their own answer. -/
theorem crossedAnswers_read :
    ∃ s, Runs.exec (step Lws.plain .latin1 ⟨⟨ascii "api", 3⟩⟩) init crossedAnswers = some s ∧
      s.exchanges.map (·.connection) = [0, 1, 2] ∧
      ∀ id, ∃ bytes, connectionStream (fun _ => notFoundBytes) id s.sent = some bytes ∧
        readAll responseLength bytes =
          some ((s.exchanges.filter (·.connection = id)).flatMap
            (Exchange.messages Lws.plain .latin1 ⟨⟨ascii "api", 3⟩⟩ fun _ => notFound)) := by
  have hexec : ∃ s, Runs.exec (step Lws.plain .latin1 ⟨⟨ascii "api", 3⟩⟩) init crossedAnswers =
      some s := ⟨_, rfl⟩
  obtain ⟨s, hs⟩ := hexec
  refine ⟨s, hs, ?_, fun id => answers_follow_requests Lws.plain .latin1
    (by simp [StatusUnframed, Lws.plain]) _ (fun _ => delimits_notFound) ?_ hs id⟩
  · obtain rfl := Option.some.inj hs
    rfl
  · have hletters : ∀ args ∈ some (ResponseArgs.plainText (List.replicate 64 120)),
        Sendable Lws.plain args := by
      rintro args ⟨⟩
      exact sendable_letters
    have hnone : ∀ args ∈ (none : Option ResponseArgs), Sendable Lws.plain args := by
      rintro args ⟨⟩
    repeat' apply And.intro
    all_goals first | exact hletters | exact hnone | trivial | exact fun _ => rfl

end Journal

end HttpLws
