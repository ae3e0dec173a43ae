import HttpLws.Info
import HttpLws.Request

/-!
# The callback

`Callback_HTTP` is called by the library for every event of a connection. It
filters the request URI, makes an object for the event and hands it to the
subscribers of the delegate and then to the actor's own event.
-/

namespace HttpLws

variable (lws : Lws)

/-- `LwsPoints`: an address in narrow characters. -/
structure LwsPoints where
  /-- The C string at `Data`; a null pointer counts as the empty string. -/
  data : List UInt8
  /-- `Lenght` -/
  lenght : ℕ

/-- The part of `FHTTP_Thread_LibWebSocket` that its callback reads. -/
structure Owner where
  /-- `ApiUri` -/
  apiUri : LwsPoints

/-- What the handlers of one event do with the request they receive: the answers
that each sends, in order. -/
structure Reactions where
  /-- The subscribers of `DelegateLwsHttp`, in the order of the broadcast. -/
  delegateLwsHttp : List (List ResponseArgs)
  /-- `OnLwsHttp` -/
  onLwsHttp : List ResponseArgs

/-- What is handed to the handlers of an event. -/
inductive Notified
  /-- A request, as it is after the handlers have used it. -/
  | http (request : ULwsRequest)
  /-- A chunk of a body. -/
  | body (info : ULwsInfos)
  /-- The URI of a connection that is about to be served. -/
  | filter (requestUri : FString)

/-- What one run of the callback leaves behind. -/
structure CallbackResult where
  /-- What the handlers were given. -/
  notified : Option Notified
  /-- The library calls made on the connection while the callback ran. -/
  calls : List LwsCall
  /-- The return value. -/
  result : ℤ

/-- A handler sends answers through a request object, one after the other. -/
def ULwsRequest.answer (self : ULwsRequest) : List ResponseArgs → ULwsRequest × List LwsCall
  | [] => (self, [])
  | args :: rest =>
      let sent := sendResponse lws self args
      let after := sent.self.answer rest
      (after.1, sent.calls ++ after.2)

/-- Answers do not change the parameters of a request. -/
theorem params_answer (self : ULwsRequest) (answers : List ResponseArgs) :
    (self.answer lws answers).1.params = self.params := by
  induction answers generalizing self with
  | nil => rfl
  | cons args answers ih =>
    rw [ULwsRequest.answer]
    dsimp only
    rw [ih]
    rfl

/-- `FHTTP_Thread_LibWebSocket::Callback_HTTP`; `owner` is the context's user pointer. -/
def callbackHttp (conv : AnsiConversion) (owner : Option Owner) (params : FLwsParams)
    (reactions : Reactions) : Option CallbackResult :=
  let dummy : CallbackResult :=
    ⟨none, [.callbackHttpDummy params.reason], lws.httpDummy params⟩
  match owner with
  | none => some dummy
  | some owner =>
      (FString.appendChars conv [] (params.inData.getD []) (toInt32 params.len)).map
        fun requestUri =>
          match params.reason with
          | .lwsCallbackHttp =>
              if !requestUri.contains (owner.apiUri.data.map conv.widen) then dummy
              else
                let request := ULwsRequest.newObject params
                let broadcast := request.answer lws reactions.delegateLwsHttp.flatten
                let called := broadcast.1.answer lws reactions.onLwsHttp
                ⟨some (.http called.1), broadcast.2 ++ called.2, 0⟩
          | .lwsCallbackHttpBody => ⟨some (.body (.newObject params)), [], 0⟩
          | .lwsCallbackFilterHttpConnection => ⟨some (.filter requestUri), [], 0⟩
          | _ => ⟨none, [], 0⟩

/-- A request for which the callback runs. -/
structure HttpRequest where
  /-- The connection. -/
  wsi : ℕ
  /-- The address of the per-session data. -/
  user : ℕ
  /-- The path of the request URI. -/
  uri : List UInt8
  /-- The memory behind the path. -/
  behind : List UInt8
  /-- The library counts the path in an `int`. -/
  uri_fits : uri.length < 2 ^ 31

/-- The callback's arguments for a request. -/
def HttpRequest.params (r : HttpRequest) : FLwsParams :=
  ⟨r.wsi, some (r.uri ++ r.behind), r.user, .lwsCallbackHttp, r.uri.length⟩

/-- The filter lets the request pass to the handlers. -/
def HttpRequest.accepted (conv : AnsiConversion) (owner : Owner) (r : HttpRequest) : Bool :=
  FString.contains (r.uri.map conv.widen) (owner.apiUri.data.map conv.widen)

/-- The callback accepts or refuses a request; an accepted one goes to the
subscribers and then to the actor. -/
theorem callbackHttp_request (conv : AnsiConversion) (owner : Owner) (r : HttpRequest)
    (reactions : Reactions) :
    callbackHttp lws conv (some owner) r.params reactions =
      some (if r.accepted conv owner then
          ⟨some (.http ((((ULwsRequest.newObject r.params).answer lws
              reactions.delegateLwsHttp.flatten).1.answer lws reactions.onLwsHttp).1)),
            ((ULwsRequest.newObject r.params).answer lws
                reactions.delegateLwsHttp.flatten).2 ++
              (((ULwsRequest.newObject r.params).answer lws
                reactions.delegateLwsHttp.flatten).1.answer lws reactions.onLwsHttp).2, 0⟩
        else ⟨none, [.callbackHttpDummy .lwsCallbackHttp], lws.httpDummy r.params⟩) := by
  have hin : r.params.inData.getD [] = r.uri ++ r.behind := rfl
  have hlen : toInt32 r.params.len = (r.uri.length : ℤ) := toInt32_of_lt r.uri_fits
  have hreason : r.params.reason = .lwsCallbackHttp := rfl
  simp only [callbackHttp, hin, hlen, appendChars_append, hreason, List.nil_append,
    Option.map_some, Option.some.injEq]
  by_cases hpass : r.accepted conv owner = true
  · have hcontains := hpass
    rw [HttpRequest.accepted] at hcontains
    simp [hpass, hcontains]
  · have hcontains := hpass
    rw [HttpRequest.accepted] at hcontains
    simp [hpass, hcontains]

end HttpLws
