import HttpLws.Lib.Leases
import HttpLws.Lib.Runs
import HttpLws.Exchange

/-!
# Request objects and the connections they were made for

A request object keeps the address of its connection. The library closes
connections, gives their addresses to new ones, and carries several requests over
one connection, and the callback ignores every event that would tell the objects.
The runs here let handlers keep objects and use them at any later moment.
-/

namespace HttpLws

variable (lws : Lws) (conv : AnsiConversion)

/-- An open connection of the library. -/
structure Connection where
  /-- A number that no other connection has. -/
  id : ℕ
  /-- The number of the request that is being served, if there is one. -/
  request : Option ℕ

/-- The open connections by address. -/
abbrev Connections := ℕ → Option Connection

/-- The connection and the request that calls on an address act on. -/
def Connections.serving (conns : Connections) (wsi : ℕ) : Option (ℕ × ℕ) :=
  (conns wsi).bind fun c => c.request.map (c.id, ·)

/-- The effect of a call: completing a transaction ends the request. -/
def Connections.afterCall (conns : Connections) (wsi : ℕ) (call : LwsCall) : Connections :=
  if call.completes then Function.update conns wsi ((conns wsi).map ({ · with request := none }))
  else conns

/-- The effect of calls in their order. -/
def Connections.afterCalls (conns : Connections) (wsi : ℕ) (calls : List LwsCall) : Connections :=
  calls.foldl (fun conns call => conns.afterCall wsi call) conns

/-- A request object that a handler has kept, and what it was created for. -/
structure HeldObject where
  /-- The object. -/
  self : ULwsRequest
  /-- Its address with the connection and the request that it belongs to. The mark
  is set once the connection is closed, a later request comes on it, or the
  request is completed. -/
  lease : Lease ℕ (ℕ × ℕ)
  /-- The address is the one in `Params`. -/
  sameAddress : self.params.wsi = lease.addr

/-- Mark the object if it belongs to the address. -/
def HeldObject.endAt (wsi : ℕ) (o : HeldObject) : HeldObject :=
  ⟨o.self, o.lease.endAt wsi, o.sameAddress⟩

/-- What a handler does with an object: it answers, or it calls a getter, given by
the reading calls that the getter makes. -/
inductive Entry
  | sendResponse (args : ResponseArgs)
  | getter (queries : List HeaderQuery)

/-- The library calls that are made through `Params.wsi`. -/
def Entry.calls (self : ULwsRequest) : Entry → List LwsCall
  | .sendResponse args => (HttpLws.sendResponse lws self args).calls
  | .getter queries => queries.map .query

/-- The object afterwards. -/
def HeldObject.after (o : HeldObject) : Entry → HeldObject
  | .sendResponse args => ⟨(sendResponse lws o.self args).self, o.lease, o.sameAddress⟩
  | .getter _ => o

/-- What happens next. -/
inductive Event
  /-- The library opens a connection at an address. -/
  | opened (wsi : ℕ)
  /-- The library closes a connection and says so with one of two reasons. -/
  | closed (wsi : ℕ) (reason : LwsCallbackReasons)
  /-- The library delivers a request. -/
  | http (r : HttpRequest)
  /-- A handler uses the object with index `i`. -/
  | use (i : ℕ) (entry : Entry)

/-- The connections of the library and the objects of the handlers. -/
structure World where
  /-- The open connections. -/
  conns : Connections
  /-- The number of the next connection. -/
  nextConnection : ℕ
  /-- The number of the next request. -/
  nextRequest : ℕ
  /-- The kept objects in the order of their creation. -/
  objects : List HeldObject

/-- No connection was opened yet. -/
def World.init : World := ⟨fun _ => none, 0, 0, []⟩

/-- The object that the callback hands out. What the handlers do with it, during the
callback or later, are events of their own. -/
def newlyHeld (connection request : ℕ) : Option Notified → List HeldObject
  | some (.http self) => [⟨self, ⟨self.params.wsi, (connection, request), false⟩, rfl⟩]
  | _ => []

/-- One event. -/
def World.step (owner : Owner) (s : World) : Event → Option World
  | .opened wsi =>
      match s.conns wsi with
      | some _ => none
      | none => some { s with
          conns := Function.update s.conns wsi (some ⟨s.nextConnection, none⟩)
          nextConnection := s.nextConnection + 1 }
  | .closed wsi reason =>
      match s.conns wsi with
      | none => none
      | some _ =>
          if reason = .lwsCallbackClosedHttp ∨ reason = .lwsCallbackWsiDestroy then
            (callbackHttp lws conv (some owner) ⟨wsi, none, 0, reason, 0⟩ ⟨[], []⟩).map
              fun result => { s with
                conns := Function.update (s.conns.afterCalls wsi result.calls) wsi none
                objects := s.objects.map (·.endAt wsi) }
          else none
  | .http r =>
      match s.conns r.wsi with
      | none => none
      | some c =>
          (callbackHttp lws conv (some owner) r.params ⟨[], []⟩).map fun result =>
            let current : Connections :=
              Function.update s.conns r.wsi (some ⟨c.id, some s.nextRequest⟩)
            { s with
              conns := current.afterCalls r.wsi result.calls
              nextRequest := s.nextRequest + 1
              objects := s.objects.map (·.endAt r.wsi) ++
                newlyHeld c.id s.nextRequest result.notified }
  | .use i entry =>
      match s.objects[i]? with
      | none => none
      | some o =>
          let wsi := o.self.params.wsi
          let calls := entry.calls lws o.self
          let marked := fun o : HeldObject => if calls.any LwsCall.completes then o.endAt wsi else o
          some { s with
            conns := s.conns.afterCalls wsi calls
            objects := (s.objects.map marked).set i ((marked o).after lws entry) }

/-- Calls on the object's address act on the connection and request it belongs to. -/
def HeldObject.ActsOnOwn (o : HeldObject) (conns : Connections) : Prop :=
  conns.serving o.self.params.wsi = some o.lease.occupant

/-- Every one of the calls, made in their order, acts on the object's own request. -/
def HeldObject.AllActOnOwn (o : HeldObject) : Connections → List LwsCall → Prop
  | _, [] => True
  | conns, call :: calls =>
      o.ActsOnOwn conns ∧ o.AllActOnOwn (conns.afterCall o.self.params.wsi call) calls

/-- The rule for one step: calls made through an object act on its own request. -/
def ActOnOwnRequest (s : World) (e : Event) (_ : World) : Prop :=
  match e with
  | .use i entry =>
      match s.objects[i]? with
      | none => True
      | some o => o.AllActOnOwn s.conns (entry.calls lws o.self)
  | _ => True

/-- The condition for one step: an object is used for library calls only before its
connection is closed, a later request comes on it, or the request is completed. -/
def UsedInTime (s : World) (e : Event) (_ : World) : Prop :=
  match e with
  | .use i entry =>
      match s.objects[i]? with
      | none => True
      | some o => entry.calls lws o.self ≠ [] → o.lease.ended = false
  | _ => True

/-- What is served after one connection has changed. -/
theorem serving_update (conns : Connections) (wsi : ℕ) (c : Option Connection) :
    Connections.serving (Function.update conns wsi c) =
      Function.update conns.serving wsi (c.bind fun c => c.request.map (c.id, ·)) := by
  funext w
  by_cases hw : w = wsi
  · subst hw
    simp [Connections.serving]
  · simp [Connections.serving, Function.update_of_ne hw]

/-- After a completing call nothing is served on its address. -/
theorem serving_afterCall (conns : Connections) (wsi : ℕ) (call : LwsCall) :
    (conns.afterCall wsi call).serving =
      if call.completes then Function.update conns.serving wsi none else conns.serving := by
  unfold Connections.afterCall
  split_ifs
  · rw [serving_update]
    cases conns wsi <;> simp
  · rfl

/-- Calls change what is served only if one of them completes the transaction. -/
theorem serving_afterCalls (conns : Connections) (wsi : ℕ) (calls : List LwsCall) :
    (conns.afterCalls wsi calls).serving =
      if calls.any LwsCall.completes then Function.update conns.serving wsi none
      else conns.serving := by
  induction calls generalizing conns with
  | nil => simp [Connections.afterCalls]
  | cons call calls ih =>
    have hrest := ih (conns.afterCall wsi call)
    rw [Connections.afterCalls] at hrest
    rw [Connections.afterCalls, List.foldl_cons, hrest, serving_afterCall, List.any_cons]
    cases call.completes <;> cases calls.any LwsCall.completes <;> simp

/-- What is served on a connection after a request on it and the calls that follow. -/
theorem serving_request (conns : Connections) (wsi connection request : ℕ) (calls : List LwsCall) :
    (Connections.afterCalls (Function.update conns wsi (some ⟨connection, some request⟩)) wsi
        calls).serving =
      Function.update conns.serving wsi
        (if calls.any LwsCall.completes then none else some (connection, request)) := by
  rw [serving_afterCalls, serving_update]
  split_ifs <;> simp

/-- Where only the last of the calls may complete the transaction, they all act on
the object's own request when the first one does. -/
theorem allActOnOwn_iff {o : HeldObject} {calls : List LwsCall} (conns : Connections)
    (hlast : ∀ call ∈ calls.dropLast, call.completes = false) :
    o.AllActOnOwn conns calls ↔ (calls ≠ [] → o.ActsOnOwn conns) := by
  induction calls with
  | nil => simp [HeldObject.AllActOnOwn]
  | cons call calls ih =>
    cases calls with
    | nil => simp [HeldObject.AllActOnOwn]
    | cons next calls =>
      rw [List.dropLast_cons_cons, List.forall_mem_cons] at hlast
      have hsame : conns.afterCall o.self.params.wsi call = conns := by
        simp [Connections.afterCall, hlast.1]
      rw [HeldObject.AllActOnOwn, hsame, ih hlast.2]
      simp

/-- Among the calls of an entry only the last one may complete the transaction. -/
theorem Entry.completes_dropLast (self : ULwsRequest) (entry : Entry) :
    ∀ call ∈ (entry.calls lws self).dropLast, call.completes = false := by
  cases entry with
  | sendResponse args =>
    intro call hcall
    rw [Entry.calls, HttpLws.sendResponse, sendResponseFrom_calls,
      List.dropLast_append_of_ne_nil (by simp), List.mem_append] at hcall
    rcases hcall with hcall | hcall
    · obtain ⟨i, _, rfl⟩ := List.mem_iff_getElem.mp hcall
      simp [LwsCall.completes]
    · simp only [List.dropLast, List.mem_cons, List.not_mem_nil, or_false] at hcall
      rcases hcall with rfl | rfl <;> rfl
  | getter queries =>
    intro call hcall
    obtain ⟨q, _, rfl⟩ := List.mem_map.mp (List.mem_of_mem_dropLast hcall)
    rfl

/-- Using an object keeps its lease. -/
theorem HeldObject.lease_after (o : HeldObject) (entry : Entry) :
    (o.after lws entry).lease = o.lease := by
  cases entry <;> rfl

/-- What links the objects to the connections at every moment. -/
structure World.Valid (s : World) : Prop where
  /-- The marks tell which objects still lead to their own request. -/
  leases : ∀ o ∈ s.objects, o.lease.Valid s.conns.serving
  /-- Request numbers are not given out twice. -/
  fresh : ∀ o ∈ s.objects, o.lease.occupant.2 < s.nextRequest

/-- Marking the objects of an address keeps the objects valid when no object's own
request comes to be served there. -/
theorem valid_map_endAt {s : World} (hs : s.Valid) (wsi : ℕ) {t : Option (ℕ × ℕ)}
    (hnew : ∀ o ∈ s.objects, t ≠ some o.lease.occupant) :
    ∀ o ∈ s.objects.map (·.endAt wsi), o.lease.Valid (Function.update s.conns.serving wsi t) ∧
      o.lease.occupant.2 < s.nextRequest := by
  intro o ho
  obtain ⟨o', ho', rfl⟩ := List.mem_map.mp ho
  exact ⟨(hs.leases o' ho').endAt_update fun _ => hnew o' ho', hs.fresh o' ho'⟩

/-- Opening a connection keeps the objects valid: nothing is served on it yet. -/
theorem valid_opened {s t : World} {owner : Owner} {wsi : ℕ} (hs : s.Valid)
    (hstep : s.step lws conv owner (.opened wsi) = some t) : t.Valid := by
  cases hconn : s.conns wsi with
  | some c => simp [World.step, hconn] at hstep
  | none =>
    simp only [World.step, hconn, Option.some.injEq] at hstep
    subst hstep
    have hnone : s.conns.serving wsi = none := by simp [Connections.serving, hconn]
    refine ⟨fun o ho => ?_, hs.fresh⟩
    rw [serving_update, Option.bind_some, Option.map_none, Function.update_eq_self_iff.mpr]
    · exact hs.leases o ho
    · exact hnone.symm

/-- Closing a connection keeps the objects valid. -/
theorem valid_closed {s t : World} {owner : Owner} {wsi : ℕ} {reason : LwsCallbackReasons}
    (hs : s.Valid) (hstep : s.step lws conv owner (.closed wsi reason) = some t) : t.Valid := by
  cases hconn : s.conns wsi with
  | none => simp [World.step, hconn] at hstep
  | some c =>
    simp only [World.step, hconn] at hstep
    split_ifs at hstep with hreason
    obtain ⟨result, _, rfl⟩ := Option.map_eq_some_iff.mp hstep
    have hall := valid_map_endAt hs wsi (t := none) (by simp)
    have hserving : Connections.serving
        (Function.update (s.conns.afterCalls wsi result.calls) wsi none) =
        Function.update s.conns.serving wsi none := by
      rw [serving_update, serving_afterCalls]
      split_ifs <;> simp
    exact ⟨fun o ho => hserving ▸ (hall o ho).1, fun o ho => (hall o ho).2⟩

/-- Using an object keeps the objects valid: an answer ends the leases of its address. -/
theorem valid_use {s t : World} {owner : Owner} {i : ℕ} {entry : Entry} (hs : s.Valid)
    (hstep : s.step lws conv owner (.use i entry) = some t) : t.Valid := by
  cases hobject : s.objects[i]? with
  | none => simp [World.step, hobject] at hstep
  | some o =>
    simp only [World.step, hobject, Option.some.injEq] at hstep
    subst hstep
    have ho : o ∈ s.objects := List.mem_of_getElem? hobject
    have hall : ∀ o' ∈ s.objects.map fun o' =>
        if (entry.calls lws o.self).any LwsCall.completes then o'.endAt o.self.params.wsi else o',
        o'.lease.Valid (s.conns.afterCalls o.self.params.wsi (entry.calls lws o.self)).serving ∧
          o'.lease.occupant.2 < s.nextRequest := by
      rw [serving_afterCalls]
      split_ifs
      · exact valid_map_endAt hs o.self.params.wsi (by simp)
      · simp only [List.map_id_fun', id_eq]
        exact fun o' ho' => ⟨hs.leases o' ho', hs.fresh o' ho'⟩
    have hset : ∀ o' ∈ (s.objects.map fun o' =>
          if (entry.calls lws o.self).any LwsCall.completes then o'.endAt o.self.params.wsi
          else o').set i
        ((if (entry.calls lws o.self).any LwsCall.completes then o.endAt o.self.params.wsi
          else o).after lws entry),
        o'.lease.Valid (s.conns.afterCalls o.self.params.wsi (entry.calls lws o.self)).serving ∧
          o'.lease.occupant.2 < s.nextRequest := by
      intro o' ho'
      rcases List.mem_or_eq_of_mem_set ho' with ho' | rfl
      · exact hall o' ho'
      · rw [HeldObject.lease_after]
        exact hall _ (List.mem_map_of_mem ho)
    exact ⟨fun o' ho' => (hset o' ho').1, fun o' ho' => (hset o' ho').2⟩

/-- A callback whose handlers do nothing yet: an accepted request is handed out, a
refused one is answered by the default handler. -/
theorem callbackHttp_unhandled (owner : Owner) (r : HttpRequest) :
    callbackHttp lws conv (some owner) r.params ⟨[], []⟩ =
      some (if r.accepted conv owner then ⟨some (.http (.newObject r.params)), [], 0⟩
        else ⟨none, [.callbackHttpDummy .lwsCallbackHttp], lws.httpDummy r.params⟩) := by
  rw [callbackHttp_request]
  simp [ULwsRequest.answer]

/-- A request keeps the objects valid: it ends the leases of its address, and the
new object is made for it. -/
theorem valid_http {s t : World} {owner : Owner} {r : HttpRequest} (hs : s.Valid)
    (hstep : s.step lws conv owner (.http r) = some t) : t.Valid := by
  cases hconn : s.conns r.wsi with
  | none => simp [World.step, hconn] at hstep
  | some c =>
    simp only [World.step, hconn, callbackHttp_unhandled, Option.map_some,
      Option.some.injEq] at hstep
    subst hstep
    have hnew : ∀ o ∈ s.objects, some (c.id, s.nextRequest) ≠ some o.lease.occupant := by
      intro o ho heq
      have hlt := hs.fresh o ho
      rw [← Option.some.inj heq] at hlt
      exact absurd hlt (lt_irrefl _)
    split_ifs with haccepted
    · have hall := valid_map_endAt hs r.wsi hnew
      refine ⟨fun o ho => ?_, fun o ho => ?_⟩
      · rw [serving_request, List.any_nil, if_neg Bool.false_ne_true]
        rcases List.mem_append.mp ho with ho | ho
        · exact (hall o ho).1
        · obtain rfl := List.mem_singleton.mp ho
          exact Lease.valid_new (Function.update_self _ _ _)
      · rcases List.mem_append.mp ho with ho | ho
        · exact Nat.lt_succ_of_lt (hall o ho).2
        · obtain rfl := List.mem_singleton.mp ho
          exact Nat.lt_succ_self _
    · have hall := valid_map_endAt hs r.wsi (t := none) (by simp)
      have hcompletes : [LwsCall.callbackHttpDummy .lwsCallbackHttp].any LwsCall.completes =
          true := rfl
      refine ⟨fun o ho => ?_, fun o ho => ?_⟩
      · rw [serving_request, if_pos hcompletes]
        exact (hall o (by simpa [newlyHeld] using ho)).1
      · exact Nat.lt_succ_of_lt (hall o (by simpa [newlyHeld] using ho)).2

/-- Every step keeps the objects valid. -/
theorem valid_step {s t : World} {owner : Owner} {e : Event} (hs : s.Valid)
    (hstep : s.step lws conv owner e = some t) : t.Valid := by
  cases e with
  | opened wsi => exact valid_opened lws conv hs hstep
  | closed wsi reason => exact valid_closed lws conv hs hstep
  | http r => exact valid_http lws conv hs hstep
  | use i entry => exact valid_use lws conv hs hstep

/-- On valid objects, a step is in time exactly when its calls act on the own request. -/
theorem usedInTime_iff {s : World} (hs : s.Valid) (e : Event) (t : World) :
    UsedInTime lws s e t ↔ ActOnOwnRequest lws s e t := by
  cases e with
  | use i entry =>
    cases hobject : s.objects[i]? with
    | none => simp [UsedInTime, ActOnOwnRequest, hobject]
    | some o =>
      have hlease := hs.leases o (List.mem_of_getElem? hobject)
      rw [Lease.Valid, ← o.sameAddress] at hlease
      simp only [UsedInTime, ActOnOwnRequest, hobject,
        allActOnOwn_iff s.conns (entry.completes_dropLast lws o.self), HeldObject.ActsOnOwn, hlease]
  | _ => simp [UsedInTime, ActOnOwnRequest]

/-- **Calls and their own requests.** In every run, all calls made through request
objects act on the connection and request that the object was made for, if and only
if no object is used for library calls after its connection was closed, a later
request came on it, or the request was completed by an answer. -/
theorem calls_act_on_own_request_iff (owner : Owner) (events : List Event) :
    Runs.EachStep (World.step lws conv owner) (ActOnOwnRequest lws) World.init events ↔
      Runs.EachStep (World.step lws conv owner) (UsedInTime lws) World.init events := by
  have hinit : World.init.Valid := ⟨by simp [World.init], by simp [World.init]⟩
  exact (Runs.eachStep_iff_of_invariant World.Valid
    (fun s e t hs _ => usedInTime_iff lws hs e t)
    (fun s e t hs hstep _ => valid_step lws conv hs hstep) hinit).symm

/-- The rule for calls is decided one call after another. -/
def HeldObject.decideAllActOnOwn (o : HeldObject) :
    (conns : Connections) → (calls : List LwsCall) → Decidable (o.AllActOnOwn conns calls)
  | _, [] => .isTrue trivial
  | conns, call :: calls =>
      have := o.decideAllActOnOwn (conns.afterCall o.self.params.wsi call) calls
      inferInstanceAs (Decidable (conns.serving o.self.params.wsi = _ ∧ _))

instance (s : World) : (e : Event) → (t : World) → Decidable (ActOnOwnRequest lws s e t)
  | .use i entry, _ =>
      match h : s.objects[i]? with
      | none => .isTrue (by simp [ActOnOwnRequest, h])
      | some o =>
          have := o.decideAllActOnOwn s.conns (entry.calls lws o.self)
          decidable_of_iff (o.AllActOnOwn s.conns (entry.calls lws o.self))
            (by simp [ActOnOwnRequest, h])
  | .opened _, _ => .isTrue trivial
  | .closed _ _, _ => .isTrue trivial
  | .http _, _ => .isTrue trivial

/-- A request, the closing of its connection, a new connection at the same address,
and only then the answer: it is written to the new connection. -/
theorem late_answer_on_reused_address :
    ¬Runs.EachStep (World.step Lws.plain .latin1 ⟨⟨ascii "api", 3⟩⟩) (ActOnOwnRequest Lws.plain)
      World.init [.opened 1, .http timeRequest, .closed 1 .lwsCallbackClosedHttp, .opened 1,
        .use 0 (.sendResponse (.plainText (text "noon")))] := by
  decide +kernel

end HttpLws
