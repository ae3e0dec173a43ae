import HttpLws.Lib.Runs
import HttpLws.Thread
import HttpLws.RequestCalls

/-!
# One answer for each request

`SendResponse` writes a response and then calls the library's default handler,
which answers a request with a response of its own. The response heads that reach
a connection are counted over sequences of requests, with any handlers.
-/

namespace HttpLws

variable (lws : Lws) (conv : AnsiConversion)

/-- The call writes a response head. The default handler does so for a request. -/
def LwsCall.writesHead : LwsCall → Bool
  | .write _ _ .lwsWriteHttpHeaders => true
  | .callbackHttpDummy .lwsCallbackHttp => true
  | _ => false

/-- The call completes the transaction of a request. -/
def LwsCall.completes : LwsCall → Bool
  | .callbackHttpDummy .lwsCallbackHttp => true
  | _ => false

/-- A request together with what the handlers do if they receive it. -/
structure HandledRequest extends HttpRequest where
  /-- The answers sent while the callback runs. -/
  reactions : Reactions

/-- The answers that the handlers send, subscribers first. -/
def HandledRequest.answers (r : HandledRequest) : List ResponseArgs :=
  r.reactions.delegateLwsHttp.flatten ++ r.reactions.onLwsHttp

/-- The library calls made so far, with the connection of each. -/
abbrev Wire := List (ℕ × LwsCall)

/-- The number of response heads on a connection. -/
def heads (wsi : ℕ) (wire : Wire) : ℕ := wire.countP fun c => c.1 == wsi && c.2.writesHead

/-- The number of transactions completed on a connection. -/
def completions (wsi : ℕ) (wire : Wire) : ℕ := wire.countP fun c => c.1 == wsi && c.2.completes

/-- The callback runs for a request. -/
def serve (owner : Owner) (wire : Wire) (r : HandledRequest) : Option Wire :=
  (callbackHttp lws conv (some owner) r.params r.reactions).map fun result =>
    wire ++ result.calls.map (r.wsi, ·)

/-- What one request may put on the wire. -/
structure OneResponse (owner : Owner) (wire : Wire) (r : HandledRequest) (after : Wire) : Prop where
  /-- A request that is answered gets one response head and is completed once. -/
  answered : r.accepted conv owner → r.answers ≠ [] →
    heads r.wsi after = heads r.wsi wire + 1 ∧
      completions r.wsi after = completions r.wsi wire + 1
  /-- A refused request gets one response head. -/
  refused : ¬r.accepted conv owner → heads r.wsi after = heads r.wsi wire + 1
  /-- No request gets two response heads. -/
  notTwice : heads r.wsi after ≤ heads r.wsi wire + 1
  /-- Other connections get none. -/
  elsewhere : ∀ wsi, wsi ≠ r.wsi → heads wsi after = heads wsi wire

/-- One answer to a request writes two heads, its own and that of the default
handler, which also completes the transaction. -/
theorem countP_sendResponse (self : ULwsRequest) (args : ResponseArgs)
    (hreason : self.params.reason = .lwsCallbackHttp) :
    (sendResponse lws self args).calls.countP LwsCall.writesHead = 2 ∧
      (sendResponse lws self args).calls.countP LwsCall.completes = 1 := by
  have hheaders : ∀ (p : LwsCall → Bool) (calls : List HeaderCall) (flags : List Bool),
      (∀ call ok, p (.header call ok) = false) →
        (List.zipWith LwsCall.header calls flags).countP p = 0 := by
    intro p calls flags hp
    rw [List.countP_eq_zero]
    intro call hmem
    obtain ⟨i, _, rfl⟩ := List.mem_iff_getElem.mp hmem
    simp [hp]
  rw [sendResponse, sendResponseFrom_calls, hreason, List.countP_append, List.countP_append,
    hheaders _ _ _ (by simp [LwsCall.writesHead]), hheaders _ _ _ (by simp [LwsCall.completes])]
  simp [List.countP_cons, LwsCall.writesHead, LwsCall.completes]

/-- A handler that sends a number of answers writes twice as many heads. The
request keeps its parameters. -/
theorem countP_answer (self : ULwsRequest) (answers : List ResponseArgs)
    (hreason : self.params.reason = .lwsCallbackHttp) :
    (self.answer lws answers).1.params = self.params ∧
      (self.answer lws answers).2.countP LwsCall.writesHead = 2 * answers.length ∧
      (self.answer lws answers).2.countP LwsCall.completes = answers.length := by
  induction answers generalizing self with
  | nil => simp [ULwsRequest.answer]
  | cons args answers ih =>
    have hself : (sendResponse lws self args).self.params = self.params := rfl
    obtain ⟨hparams, hheads, hcompletes⟩ := ih (sendResponse lws self args).self hreason
    obtain ⟨htwo, hone⟩ := countP_sendResponse lws self args hreason
    simp only [ULwsRequest.answer, List.countP_append, List.length_cons]
    exact ⟨hparams.trans hself, by omega, by omega⟩

/-- **What a request puts on the wire**: two heads and one completion for each
answer of an accepted request, one of each for a refused request. -/
theorem serve_eq (owner : Owner) (wire : Wire) (r : HandledRequest) :
    ∃ calls : List LwsCall, serve lws conv owner wire r = some (wire ++ calls.map (r.wsi, ·)) ∧
      calls.countP LwsCall.writesHead =
        (if r.accepted conv owner then 2 * r.answers.length else 1) ∧
      calls.countP LwsCall.completes =
        (if r.accepted conv owner then r.answers.length else 1) := by
  rw [serve, callbackHttp_request]
  refine ⟨_, rfl, ?_⟩
  split_ifs
  · obtain ⟨hparams, hheads, hcompletes⟩ := countP_answer lws (.newObject r.params)
      r.reactions.delegateLwsHttp.flatten rfl
    obtain ⟨_, hheads', hcompletes'⟩ := countP_answer lws
      ((ULwsRequest.newObject r.params).answer lws r.reactions.delegateLwsHttp.flatten).1
      r.reactions.onLwsHttp (by rw [hparams]; rfl)
    simp only [List.countP_append, HandledRequest.answers, List.length_append]
    omega
  · simp [LwsCall.writesHead, LwsCall.completes]

/-- Calls on one connection add to the counts of that connection only. -/
theorem countP_wire (p : LwsCall → Bool) (wsi r : ℕ) (wire : Wire) (calls : List LwsCall) :
    (wire ++ calls.map (r, ·)).countP (fun c => c.1 == wsi && p c.2) =
      wire.countP (fun c => c.1 == wsi && p c.2) + if r = wsi then calls.countP p else 0 := by
  rw [List.countP_append, List.countP_map]
  split_ifs with h
  · simp [h, Function.comp_def]
  · simp [h, Function.comp_def]

/-- A step meets the rule exactly when the request is not accepted and answered. -/
theorem oneResponse_serve_iff (owner : Owner) {wire after : Wire} {r : HandledRequest}
    (hserve : serve lws conv owner wire r = some after) :
    OneResponse conv owner wire r after ↔ (r.accepted conv owner → r.answers = []) := by
  obtain ⟨calls, hcalls, hheads, hcompletes⟩ := serve_eq lws conv owner wire r
  rw [hcalls, Option.some.injEq] at hserve
  subst hserve
  have hadded : ∀ wsi, heads wsi (wire ++ calls.map (r.wsi, ·)) =
      heads wsi wire + if r.wsi = wsi then calls.countP LwsCall.writesHead else 0 :=
    fun wsi => countP_wire _ wsi r.wsi wire calls
  constructor
  · intro hone haccepted
    by_contra hanswers
    have htwo := hone.notTwice
    have hpos := List.length_pos_iff.mpr hanswers
    rw [hadded, if_pos rfl, hheads, if_pos haccepted] at htwo
    omega
  · intro hquiet
    have hle : calls.countP LwsCall.writesHead ≤ 1 := by
      rw [hheads]
      split_ifs with haccepted
      · simp [hquiet haccepted]
      · exact le_rfl
    refine ⟨fun haccepted hne => absurd (hquiet haccepted) hne, fun hrefused => ?_, ?_, ?_⟩
    · rw [hadded, if_pos rfl, hheads, if_neg hrefused]
    · rw [hadded, if_pos rfl]
      omega
    · intro wsi hother
      rw [hadded, if_neg (Ne.symm hother), Nat.add_zero]

/-- **One response for each request.** Over any sequence of requests, every request
gets at most one response head, and exactly one with one completion when it is
answered, if and only if no request of the sequence that passes the filter is
answered with `SendResponse` while the callback runs. -/
theorem each_request_one_response_iff (owner : Owner) (wire : Wire)
    (requests : List HandledRequest) :
    Runs.EachStep (serve lws conv owner) (OneResponse conv owner) wire requests ↔
      ∀ r ∈ requests, r.accepted conv owner → r.answers = [] := by
  induction requests generalizing wire with
  | nil => simp
  | cons r requests ih =>
    obtain ⟨calls, hserve, _⟩ := serve_eq lws conv owner wire r
    rw [Runs.eachStep_cons_some hserve, oneResponse_serve_iff lws conv owner hserve, ih,
      List.forall_mem_cons]

/-- A request below the API path on the connection at address 1. -/
def timeRequest : HttpRequest := ⟨1, 0, ascii "/api/time", [], by decide⟩

/-- The request, answered once by `OnLwsHttp`. -/
def answeredOnce : HandledRequest := ⟨timeRequest, ⟨[], [.plainText (text "noon")]⟩⟩

/-- One answer to one request puts two response heads on its connection. -/
theorem answered_once_two_heads :
    ¬Runs.EachStep (serve Lws.plain .latin1 ⟨⟨ascii "api", 3⟩⟩)
      (OneResponse .latin1 ⟨⟨ascii "api", 3⟩⟩) [] [answeredOnce] := by
  intro hrun
  obtain ⟨calls, hserve, _⟩ := serve_eq Lws.plain .latin1 ⟨⟨ascii "api", 3⟩⟩ [] answeredOnce
  rw [Runs.eachStep_cons_some hserve, oneResponse_serve_iff _ _ _ hserve] at hrun
  exact absurd (hrun.1 (by decide)) (by simp [answeredOnce, HandledRequest.answers])

end HttpLws
