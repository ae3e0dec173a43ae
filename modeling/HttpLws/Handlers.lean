import HttpLws.CustomHeaders
import HttpLws.FailedReads
import HttpLws.KnownHeaders
import HttpLws.Stream
import HttpLws.UrlParam

/-!
# Handlers that read and answer

The code behind `DelegateLwsHttp` and `OnLwsHttp` reads from the objects it has and
answers, in any order. A reader asks the library and sends nothing, so on the
connections such handlers cannot be told from handlers that only answer. What a
reader can do is abort: five of the ten pass on a count that may be unusable.
-/

namespace HttpLws

variable (conv : AnsiConversion) (lws : Lws)

/-- The call only reads. -/
def LwsCall.reads : LwsCall → Bool
  | .query _ => true
  | _ => false

@[simp] theorem reads_query (query : HeaderQuery) : (LwsCall.query query).reads = true := rfl

/-- All library calls of a reader only read. -/
def OnlyReads {α : Type} (r : Option (GetResult α)) : Prop :=
  ∀ got, r = some got → ∀ call ∈ got.calls, call.reads = true

/-- The readers accept an object that was made for a request or for its body. -/
def FLwsParams.Readable (params : FLwsParams) : Prop :=
  params.reason = .lwsCallbackHttp ∨ params.reason = .lwsCallbackHttpBody

/-- The reader is given a usable count, or does not come to use one. -/
def Getter.Completes (stored : StoredRequest) (params : FLwsParams) : Getter → Prop
  | .getCustomHeader key =>
      params.Readable → customValue stored.customHeaders (nameBytes key) ≠ none
  | .getAllCustomHeaders inHeaders =>
      params.Readable → ∀ key ∈ inHeaders, customValue stored.customHeaders (nameBytes key) ≠ none
  | .getUrlParam key bufferSize =>
      params.Readable →
        handedOver stored.overlong stored.urlArguments key (bufferBytes bufferSize) ≠ none
  | .getUri =>
      params.reason = .lwsCallbackHttp → params.inData ≠ none →
        0 ≤ stored.uriAndMethod.2 ∧ stored.uriAndMethod.2 ≤ stored.uriAndMethod.1.length
  | .getBody =>
      params.reason = .lwsCallbackHttpBody → ∀ body ∈ params.inData,
        0 ≤ toInt32 params.len ∧ toInt32 params.len ≤ body.length
  | .getMethod | .getKnownHeaderEnum _ | .getKnownHeaderInt _ | .getAllKnownHeaders
  | .getAllUrlParameters => True

/-- Appending characters aborts at a count that is negative or past the memory. -/
theorem appendChars_ne_none_iff {s : FString} {str : List UInt8} {count : ℤ} :
    s.appendChars conv str count ≠ none ↔ 0 ≤ count ∧ count ≤ str.length := by
  unfold FString.appendChars
  split_ifs with hcount
  · exact iff_of_true (Option.some_ne_none _) hcount
  · exact iff_of_false (fun h => h rfl) hcount

/-- What a reader does on an object that it accepts is all that can abort it. -/
theorem ne_none_iff_of_turned {α : Type} {params : FLwsParams} {r : Option α} {P : Prop}
    (hturned : ¬params.Readable → r ≠ none) (hread : params.Readable → (r ≠ none ↔ P)) :
    r ≠ none ↔ (params.Readable → P) := by
  by_cases hreason : params.Readable
  · rw [hread hreason]
    exact ⟨fun h _ => h, fun h => h hreason⟩
  · exact iff_of_true (hturned hreason) fun h => absurd h hreason

section

variable (stored : StoredRequest) (params : FLwsParams)

/-- A reader that does not accept the object returns. -/
theorem call_ne_none_of_turned (hreason : ¬params.Readable) (g : Getter) (out : g.Out) :
    g.call conv lws stored params out ≠ none := by
  obtain ⟨hrequest, hbody⟩ := not_or.mp hreason
  rw [call_turnedAway conv lws stored params hrequest hbody]
  exact Option.some_ne_none _

/-- `GetCustomHeader` aborts at a header that the library does not find. -/
theorem getCustomHeader_ne_none_iff (hreason : params.Readable) (key value : FString) :
    getCustomHeader conv stored.customHeaders params value key ≠ none ↔
      customValue stored.customHeaders (nameBytes key) ≠ none := by
  rw [getCustomHeader_eq conv _ _ _ hreason, ne_eq, Option.map_eq_none_iff]

/-- `GetAllCustomHeaders` aborts at the first such header of its list. -/
theorem getAllCustomHeaders_ne_none_iff (hreason : params.Readable) (inHeaders : List FString)
    (outHeaders : FStringMap FString) :
    getAllCustomHeaders conv stored.customHeaders params inHeaders outHeaders ≠ none ↔
      ∀ key ∈ inHeaders, customValue stored.customHeaders (nameBytes key) ≠ none := by
  obtain ⟨calls, heq⟩ :=
    getAllCustomHeaders_eq conv stored.customHeaders inHeaders outHeaders hreason
  rw [heq]
  split_ifs with hfound
  · exact iff_of_true (Option.some_ne_none _) hfound
  · exact iff_of_false (fun h => h rfl) hfound

/-- Without arguments `GetAllUrlParameters` lists nothing. -/
theorem getAllUrlParameters_nil (hreason : params.Readable) {headers : HeaderTable}
    (hstored : headers .wsiTokenHttpUriArgs = []) (outParams : FStringMap FString) :
    getAllUrlParameters conv headers params outParams =
      some ⟨false, outParams, [.query .lwsHdrTotalLength]⟩ := by
  have hlength : lwsHdrTotalLength headers .wsiTokenHttpUriArgs = 0 := by
    rw [lwsHdrTotalLength, hstored, List.length_nil]
  rw [getAllUrlParameters, if_neg (not_turned_away hreason)]
  dsimp only
  rw [if_pos hlength]

/-- `GetAllUrlParameters` copies into a buffer that holds what is stored. -/
theorem getAllUrlParameters_ne_none (hreason : params.Readable) (outParams : FStringMap FString) :
    getAllUrlParameters conv stored.headers params outParams ≠ none := by
  by_cases hstored : stored.headers .wsiTokenHttpUriArgs = []
  · rw [getAllUrlParameters_nil conv params hreason hstored]
    exact Option.some_ne_none _
  · rw [getAllUrlParameters_eq conv outParams hreason hstored]
    exact Option.some_ne_none _

/-- `GetUrlParam` aborts when nothing usable is handed over. -/
theorem getUrlParam_ne_none_iff (hreason : params.Readable) (key : FString) (bufferSize : ℤ)
    (value : FString) :
    getUrlParam conv stored.overlong stored.urlArguments params value key bufferSize ≠ none ↔
      handedOver stored.overlong stored.urlArguments key (bufferBytes bufferSize) ≠ none := by
  rw [getUrlParam_eq conv _ _ _ _ _ hreason, ne_eq, Option.map_eq_none_iff]

/-- `GetUri` aborts at the count that comes with the path. -/
theorem getUri_ne_none_iff (outUri : FString) :
    getUri conv stored.uriAndMethod params outUri ≠ none ↔
      (params.reason = .lwsCallbackHttp → params.inData ≠ none →
        0 ≤ stored.uriAndMethod.2 ∧ stored.uriAndMethod.2 ≤ stored.uriAndMethod.1.length) := by
  rw [getUri]
  split_ifs with hreason hnull
  · exact iff_of_true (Option.some_ne_none _) fun h => absurd h hreason
  · exact iff_of_true (Option.some_ne_none _) fun _ h => absurd hnull h
  · rw [ne_eq, Option.map_eq_none_iff, ← ne_eq, appendChars_ne_none_iff]
    exact ⟨fun h _ _ => h, fun h => h (not_not.mp hreason) hnull⟩

/-- `GetBody` aborts at a length that does not count the chunk. -/
theorem getBody_ne_none_iff (outBody : FString) :
    ULwsInfos.getBody conv (.newObject params) outBody ≠ none ↔
      (params.reason = .lwsCallbackHttpBody → ∀ body ∈ params.inData,
        0 ≤ toInt32 params.len ∧ toInt32 params.len ≤ body.length) := by
  rw [ULwsInfos.getBody, ULwsInfos.newObject]
  dsimp only
  split_ifs with hreason
  · exact iff_of_true (Option.some_ne_none _) fun h => absurd h hreason
  · cases hbody : params.inData with
    | none => exact iff_of_true (Option.some_ne_none _) (by simp)
    | some body =>
      dsimp only
      rw [ne_eq, Option.map_eq_none_iff, ← ne_eq, appendChars_ne_none_iff]
      constructor
      · intro hcount _ body' hbody'
        obtain rfl : body = body' := Option.some.inj hbody'
        exact hcount
      · intro hcount
        exact hcount (not_not.mp hreason) body rfl

/-- **Where the readers abort.** Each of them does so exactly where its count is unusable. -/
theorem call_ne_none_iff (g : Getter) (out : g.Out) :
    g.call conv lws stored params out ≠ none ↔ g.Completes stored params := by
  have hturned := fun hreason => call_ne_none_of_turned conv lws stored params hreason g out
  cases g with
  | getMethod => exact iff_of_true (Option.some_ne_none _) trivial
  | getCustomHeader key =>
    apply ne_none_iff_of_turned hturned
    intro hreason
    exact getCustomHeader_ne_none_iff conv stored params hreason key out
  | getAllCustomHeaders inHeaders =>
    apply ne_none_iff_of_turned hturned
    intro hreason
    exact getAllCustomHeaders_ne_none_iff conv stored params hreason inHeaders out
  | getKnownHeaderEnum | getKnownHeaderInt =>
    refine iff_of_true ?_ trivial
    by_cases hreason : params.Readable
    · simp only [Getter.call, getKnownHeaderEnum, getKnownHeaderInt,
        readKnownHeader_eq conv _ _ out _ hreason]
      split_ifs
      · exact Option.some_ne_none _
      · exact Option.some_ne_none _
    · exact hturned hreason
  | getAllKnownHeaders =>
    refine iff_of_true ?_ trivial
    by_cases hreason : params.Readable
    · obtain ⟨calls, heq⟩ :=
        getAllKnownHeaders_eq conv lws stored.headers stored.stray out hreason
      rw [Getter.call, heq]
      exact Option.some_ne_none _
    · exact hturned hreason
  | getAllUrlParameters =>
    refine iff_of_true ?_ trivial
    by_cases hreason : params.Readable
    · exact getAllUrlParameters_ne_none conv stored params hreason out
    · exact hturned hreason
  | getUrlParam key bufferSize =>
    apply ne_none_iff_of_turned hturned
    intro hreason
    exact getUrlParam_ne_none_iff conv stored params hreason key bufferSize out
  | getUri => exact getUri_ne_none_iff conv stored params out
  | getBody =>
    rw [Getter.call, ne_eq, Option.map_eq_none_iff]
    exact getBody_ne_none_iff conv params out

end

/-- A return makes the calls that come with it. -/
theorem onlyReads_some {α : Type} {result : Bool} {out : α} {calls : List LwsCall}
    (hcalls : ∀ call ∈ calls, call.reads = true) : OnlyReads (some ⟨result, out, calls⟩) := by
  intro got hgot
  obtain rfl := Option.some.inj hgot
  exact hcalls

/-- So does a return behind a step that can abort. -/
theorem onlyReads_map {α β : Type} {done : Option β} {result : β → GetResult α}
    (hresult : ∀ b, done = some b → ∀ call ∈ (result b).calls, call.reads = true) :
    OnlyReads (done.map result) := by
  intro got hgot
  obtain ⟨b, hb, rfl⟩ := Option.map_eq_some_iff.mp hgot
  exact hresult b hb

/-- A test makes no calls. -/
theorem OnlyReads.ite {α : Type} (c : Prop) [Decidable c] {r s : Option (GetResult α)}
    (hr : OnlyReads r) (hs : OnlyReads s) : OnlyReads (if c then r else s) := by
  split_ifs
  · exact hr
  · exact hs

/-- The tests of `GetMethod` only read. -/
theorem reads_testMethods (headers : HeaderTable) (outMethod : FString)
    (tokens : List (LwsTokenIndexes × FString)) :
    ∀ call ∈ (testMethods headers outMethod tokens).calls, call.reads = true := by
  induction tokens with
  | nil => simp [testMethods]
  | cons entry tokens ih =>
    rw [testMethods]
    split_ifs
    · simp
    · exact List.forall_mem_cons.mpr ⟨reads_query _, ih⟩

section

variable (stored : StoredRequest) (params : FLwsParams)

/-- `GetCustomHeader` only reads. -/
theorem onlyReads_getCustomHeader (hreason : params.Readable) (value key : FString) :
    OnlyReads (getCustomHeader conv stored.customHeaders params value key) := by
  rw [getCustomHeader_eq conv _ _ _ hreason]
  exact onlyReads_map fun _ _ => by simp

/-- The loop of `GetAllCustomHeaders` only reads. -/
theorem onlyReads_getAllCustomHeaders (hreason : params.Readable) (inHeaders : List FString)
    (outHeaders : FStringMap FString) :
    OnlyReads (getAllCustomHeaders conv stored.customHeaders params inHeaders outHeaders) := by
  rw [getAllCustomHeaders, if_neg (not_turned_away hreason)]
  apply onlyReads_map
  intro temp hloop
  refine Runs.foldlM_invariant (fun temp => ∀ call ∈ temp.2, call.reads = true) ?_ (by simp) hloop
  intro before key after hbefore hstep
  obtain ⟨got, hgot, rfl⟩ := Option.map_eq_some_iff.mp hstep
  have hcalls := onlyReads_getCustomHeader conv stored params hreason [] key got hgot
  exact List.forall_mem_append.mpr ⟨hbefore, hcalls⟩

/-- A read of one known header only reads. -/
theorem onlyReads_readKnownHeader (hreason : params.Readable) (value : FString) (token : ℤ) :
    OnlyReads (readKnownHeader conv stored.headers stored.stray params value token) := by
  rw [readKnownHeader_eq conv _ _ _ _ hreason]
  apply OnlyReads.ite
  · exact onlyReads_some (by simp)
  · exact onlyReads_some (by simp)

/-- The loop of `GetAllKnownHeaders` only reads. -/
theorem onlyReads_getAllKnownHeaders (hreason : params.Readable)
    (outHeaders : FStringMap FLwsKnownHeaders) :
    OnlyReads (getAllKnownHeaders conv lws stored.headers stored.stray params outHeaders) := by
  rw [getAllKnownHeaders, if_neg (not_turned_away hreason)]
  apply onlyReads_map
  intro temp hloop
  refine Runs.foldlM_invariant (fun temp => ∀ call ∈ temp.2, call.reads = true) ?_ (by simp) hloop
  intro before index after hbefore hstep
  rw [addStoredHeader] at hstep
  split_ifs at hstep
  · obtain ⟨name, -, hcopied⟩ := Option.bind_eq_some_iff.mp hstep
    obtain ⟨string, -, rfl⟩ := Option.map_eq_some_iff.mp hcopied
    exact List.forall_mem_append.mpr ⟨hbefore, by simp⟩
  · obtain rfl := Option.some.inj hstep
    exact List.forall_mem_append.mpr ⟨hbefore, by simp⟩

/-- `GetAllUrlParameters` only reads. -/
theorem onlyReads_getAllUrlParameters (hreason : params.Readable)
    (outParams : FStringMap FString) :
    OnlyReads (getAllUrlParameters conv stored.headers params outParams) := by
  rw [getAllUrlParameters, if_neg (not_turned_away hreason)]
  apply OnlyReads.ite
  · exact onlyReads_some (by simp)
  · apply OnlyReads.ite
    · exact onlyReads_some (by simp)
    · exact onlyReads_map fun _ _ => by simp

/-- `GetUrlParam` only reads. -/
theorem onlyReads_getUrlParam (hreason : params.Readable) (value key : FString)
    (bufferSize : ℤ) :
    OnlyReads (getUrlParam conv stored.overlong stored.urlArguments params value key
      bufferSize) := by
  rw [getUrlParam_eq conv _ _ _ _ _ hreason]
  apply onlyReads_map
  intro bytes _
  split_ifs
  · simp
  · simp

/-- `GetMethod` only reads. -/
theorem onlyReads_getMethod (outMethod : FString) :
    OnlyReads (some (getMethod stored.headers params outMethod)) := by
  rw [getMethod]
  split_ifs
  · exact onlyReads_some (by simp)
  · exact onlyReads_some (reads_testMethods stored.headers outMethod methodTokens)

/-- `GetUri` only reads. -/
theorem onlyReads_getUri (outUri : FString) :
    OnlyReads (getUri conv stored.uriAndMethod params outUri) := by
  rw [getUri]
  apply OnlyReads.ite
  · exact onlyReads_some (by simp)
  · apply OnlyReads.ite
    · exact onlyReads_some (by simp)
    · exact onlyReads_map fun _ _ => by simp

/-- **Readers only read.** Whatever the library holds and whatever is asked for, no
reader sends anything on the connection. -/
theorem onlyReads_call (g : Getter) (out : g.Out) :
    OnlyReads (g.call conv lws stored params out) := by
  by_cases hreason : params.Readable
  · cases g with
    | getMethod => exact onlyReads_getMethod stored params out
    | getCustomHeader key => exact onlyReads_getCustomHeader conv stored params hreason out key
    | getAllCustomHeaders inHeaders =>
      exact onlyReads_getAllCustomHeaders conv stored params hreason inHeaders out
    | getKnownHeaderEnum key => exact onlyReads_readKnownHeader conv stored params hreason out _
    | getKnownHeaderInt key => exact onlyReads_readKnownHeader conv stored params hreason out key
    | getAllKnownHeaders =>
      exact onlyReads_getAllKnownHeaders conv lws stored params hreason out
    | getAllUrlParameters => exact onlyReads_getAllUrlParameters conv stored params hreason out
    | getUrlParam key bufferSize =>
      exact onlyReads_getUrlParam conv stored params hreason out key bufferSize
    | getUri => exact onlyReads_getUri conv stored params out
    | getBody => exact onlyReads_map fun _ _ => by simp
  · obtain ⟨hrequest, hbody⟩ := not_or.mp hreason
    rw [call_turnedAway conv lws stored params hrequest hbody]
    exact onlyReads_some (by simp)

end

/-- One thing that a handler of a request does. -/
inductive HandlerStep
  /-- It calls a reader on an object with some `Params`, its request or another object that
  it has. The library holds `stored`, and the out parameter holds `out`. -/
  | read (stored : StoredRequest) (params : FLwsParams) (getter : Getter) (out : getter.Out)
  /-- It answers the request. -/
  | sendResponse (args : ResponseArgs)

/-- What the handler answers with the step, if it answers. -/
def HandlerStep.answer : HandlerStep → Option ResponseArgs
  | .read .. => none
  | .sendResponse args => some args

/-- The step does not abort. -/
def HandlerStep.Completes : HandlerStep → Prop
  | .read stored params getter _ => getter.Completes stored params
  | .sendResponse _ => True

/-- One step of a handler: the request object and the library calls so far. -/
def HandlerStep.run (s : ULwsRequest × Wire) : HandlerStep → Option (ULwsRequest × Wire)
  | .read stored params getter out =>
      (getter.call conv lws stored params out).map fun got =>
        (s.1, s.2 ++ got.calls.map (params.wsi, ·))
  | .sendResponse args =>
      let sent := HttpLws.sendResponse lws s.1 args
      some (sent.self, s.2 ++ sent.calls.map (s.1.params.wsi, ·))

/-- A request with all that the handlers do if they receive it. -/
structure ReadingRequest extends HttpRequest where
  /-- The subscribers of `DelegateLwsHttp`, in the order of the broadcast. -/
  delegateLwsHttp : List (List HandlerStep)
  /-- `OnLwsHttp` -/
  onLwsHttp : List HandlerStep

/-- The steps of the handlers, subscribers first. -/
def ReadingRequest.steps (r : ReadingRequest) : List HandlerStep :=
  r.delegateLwsHttp.flatten ++ r.onLwsHttp

/-- The request when the handlers only answer. -/
def ReadingRequest.handled (r : ReadingRequest) : HandledRequest :=
  ⟨r.toHttpRequest, ⟨r.delegateLwsHttp.map (·.filterMap HandlerStep.answer),
    r.onLwsHttp.filterMap HandlerStep.answer⟩⟩

/-- `FHTTP_Thread_LibWebSocket::Callback_HTTP` for a request, with all that the handlers
do: the object they were given, and the library calls. -/
def callbackRequest (owner : Owner) (r : ReadingRequest) : Option (Option ULwsRequest × Wire) :=
  (FString.appendChars conv [] (r.params.inData.getD []) (toInt32 r.params.len)).bind
    fun requestUri =>
      if !requestUri.contains (owner.apiUri.data.map conv.widen) then
        some (none, [(r.wsi, .callbackHttpDummy r.params.reason)])
      else
        (Runs.exec (HandlerStep.run conv lws) (.newObject r.params, []) r.steps).map
          fun done => (some done.1, done.2)

/-- The callback runs for a request. -/
def serveReading (owner : Owner) (wire : Wire) (r : ReadingRequest) : Option Wire :=
  (callbackRequest conv lws owner r).map fun result => wire ++ result.2

/-- The calls that do more than read. -/
def withoutReads (wire : Wire) : Wire := wire.filter fun c => !c.2.reads

@[simp] theorem withoutReads_append (wire after : Wire) :
    withoutReads (wire ++ after) = withoutReads wire ++ withoutReads after :=
  List.filter_append ..

/-- Nothing is left of calls that only read. -/
theorem withoutReads_of_reads {calls : List LwsCall} (h : ∀ call ∈ calls, call.reads = true)
    (wsi : ℕ) : withoutReads (calls.map (wsi, ·)) = [] := by
  rw [withoutReads, List.filter_eq_nil_iff]
  intro c hc
  obtain ⟨call, hcall, rfl⟩ := List.mem_map.mp hc
  simp [h call hcall]

/-- An answer reads nothing. -/
theorem withoutReads_sendResponse (self : ULwsRequest) (args : ResponseArgs) (wsi : ℕ) :
    withoutReads ((sendResponse lws self args).calls.map (wsi, ·)) =
      (sendResponse lws self args).calls.map (wsi, ·) := by
  rw [withoutReads, List.filter_eq_self]
  intro c hc
  obtain ⟨call, hcall, rfl⟩ := List.mem_map.mp hc
  rw [sendResponse, sendResponseFrom_calls, List.mem_append] at hcall
  rcases hcall with hheader | hrest
  · obtain ⟨i, hi, rfl⟩ := List.mem_iff_getElem.mp hheader
    simp [LwsCall.reads]
  · simp only [List.mem_cons, List.not_mem_nil, or_false] at hrest
    rcases hrest with rfl | rfl | rfl
    · rfl
    · rfl
    · rfl

/-- The answers of a handler, one after the other. -/
def sendStep (s : ULwsRequest × Wire) (args : ResponseArgs) : Option (ULwsRequest × Wire) :=
  HandlerStep.run conv lws s (.sendResponse args)

/-- A handler that only answers. -/
theorem exec_sendStep (self : ULwsRequest) (wire : Wire) (answers : List ResponseArgs) :
    Runs.exec (sendStep conv lws) (self, wire) answers =
      some ((self.answer lws answers).1,
        wire ++ (self.answer lws answers).2.map (self.params.wsi, ·)) := by
  induction answers generalizing self wire with
  | nil => simp [Runs.exec, ULwsRequest.answer]
  | cons args answers ih =>
    have hfirst : sendStep conv lws (self, wire) args =
        some ((sendResponse lws self args).self,
          wire ++ (sendResponse lws self args).calls.map (self.params.wsi, ·)) := rfl
    have hparams : (sendResponse lws self args).self.params = self.params := rfl
    rw [Runs.exec, hfirst, Option.bind_some, ih, hparams, ULwsRequest.answer]
    simp

/-- **One step.** An answer does what it does alone, and a read goes unseen. -/
theorem run_withoutReads {step : HandlerStep} (hcompletes : step.Completes)
    (s : ULwsRequest × Wire) :
    (step.run conv lws s).map (Prod.map id withoutReads) =
      step.answer.elim (some (Prod.map id withoutReads s))
        (sendStep conv lws (Prod.map id withoutReads s)) := by
  obtain ⟨self, wire⟩ := s
  cases step with
  | read stored params getter out =>
    have hcall := (call_ne_none_iff conv lws stored params getter out).mpr hcompletes
    obtain ⟨got, hgot⟩ := Option.ne_none_iff_exists'.mp hcall
    have hreads := onlyReads_call conv lws stored params getter out got hgot
    simp [HandlerStep.run, HandlerStep.answer, hgot, withoutReads_of_reads hreads]
  | sendResponse args =>
    simp [HandlerStep.run, HandlerStep.answer, sendStep, withoutReads_sendResponse]

/-- A step that does not complete ends the handlers. -/
theorem run_eq_none {step : HandlerStep} (habort : ¬step.Completes) (s : ULwsRequest × Wire) :
    step.run conv lws s = none := by
  cases step with
  | read stored params getter out =>
    have hcall := (call_ne_none_iff conv lws stored params getter out).not.mpr habort
    rw [HandlerStep.run, not_not.mp hcall, Option.map_none]
  | sendResponse args => exact absurd trivial habort

/-- **All steps of the handlers.** When they complete, they leave the object and the calls
that the answers alone leave. -/
theorem exec_run_withoutReads {steps : List HandlerStep}
    (hcompletes : ∀ step ∈ steps, step.Completes) (self : ULwsRequest) :
    (Runs.exec (HandlerStep.run conv lws) (self, []) steps).map (Prod.map id withoutReads) =
      some ((self.answer lws (steps.filterMap HandlerStep.answer)).1,
        (self.answer lws (steps.filterMap HandlerStep.answer)).2.map (self.params.wsi, ·)) := by
  have herase := Runs.exec_filterMap _ _
    (fun step hstep => run_withoutReads conv lws (hcompletes step hstep)) (self, [])
  have hstart : Prod.map id withoutReads (self, ([] : Wire)) = (self, []) := rfl
  rw [herase, hstart, exec_sendStep, List.nil_append]

/-- The handlers answer what their steps answer, in this order. -/
theorem answers_handled (r : ReadingRequest) :
    r.handled.answers = r.steps.filterMap HandlerStep.answer := by
  rw [HandledRequest.answers, ReadingRequest.handled, ReadingRequest.steps, List.filterMap_append,
    List.filterMap_flatten]

/-- The callback for a request with handlers that read: an accepted request goes to them, a
refused one to the default handler. -/
theorem callbackRequest_eq (owner : Owner) (r : ReadingRequest) :
    callbackRequest conv lws owner r =
      if r.accepted conv owner then
        (Runs.exec (HandlerStep.run conv lws) (.newObject r.params, []) r.steps).map
          fun done => (some done.1, done.2)
      else some (none, [(r.wsi, .callbackHttpDummy .lwsCallbackHttp)]) := by
  have hin : r.params.inData.getD [] = r.uri ++ r.behind := rfl
  have hlen : toInt32 r.params.len = (r.uri.length : ℤ) := toInt32_of_lt r.uri_fits
  rw [callbackRequest, hin, hlen, appendChars_append, Option.bind_some, List.nil_append,
    ← HttpRequest.accepted]
  cases haccepted : r.accepted conv owner with
  | false => rfl
  | true => rfl

/-- A request is served when no step of a handler that receives it aborts. -/
theorem serveReading_ne_none_iff (owner : Owner) (wire : Wire) (r : ReadingRequest) :
    serveReading conv lws owner wire r ≠ none ↔
      (r.accepted conv owner → ∀ step ∈ r.steps, step.Completes) := by
  rw [serveReading, callbackRequest_eq]
  split_ifs with haccepted
  · constructor
    · intro hserved _ step hstep
      by_contra habort
      refine hserved ?_
      rw [Runs.exec_eq_none_of_mem (run_eq_none conv lws habort) hstep]
      rfl
    · intro hcompletes hnone
      have hrun := exec_run_withoutReads conv lws (hcompletes haccepted) (.newObject r.params)
      rw [Option.map_map, Option.map_eq_none_iff] at hnone
      rw [hnone] at hrun
      cases hrun
  · exact iff_of_true (Option.some_ne_none _) fun h => absurd h haccepted

/-- **One request.** When it is served, the wire is that of the answers alone, the reads
apart. -/
theorem serveReading_withoutReads {owner : Owner} {r : ReadingRequest}
    (hcompletes : r.accepted conv owner → ∀ step ∈ r.steps, step.Completes) (wire : Wire) :
    (serveReading conv lws owner wire r).map withoutReads =
      serve lws conv owner (withoutReads wire) r.handled := by
  rw [serveReading, callbackRequest_eq, serve_callsOf, callsOf, answers_handled]
  have hsame : r.handled.accepted conv owner = r.accepted conv owner := rfl
  rw [hsame]
  split_ifs with haccepted
  · have hrun := exec_run_withoutReads conv lws (hcompletes haccepted) (.newObject r.params)
    obtain ⟨done, hdone, hseen⟩ := Option.map_eq_some_iff.mp hrun
    have hwire : withoutReads done.2 = ((ULwsRequest.newObject r.params).answer lws
        (r.steps.filterMap HandlerStep.answer)).2.map (r.wsi, ·) := congrArg Prod.snd hseen
    rw [hdone, Option.map_some, Option.map_some, Option.map_some, withoutReads_append, hwire]
    rfl
  · have hdummy : withoutReads [(r.wsi, .callbackHttpDummy .lwsCallbackHttp)] =
        [(r.wsi, .callbackHttpDummy .lwsCallbackHttp)] := rfl
    rw [Option.map_some, Option.map_some, withoutReads_append, hdummy]
    rfl

/-- Reads put no bytes into the stream of a connection. -/
theorem connectionStream_withoutReads (dummy : ℕ → List UInt8) (wsi : ℕ) (wire : Wire) :
    connectionStream dummy wsi (withoutReads wire) = connectionStream dummy wsi wire := by
  have hbytes : ∀ calls : List LwsCall,
      sentBytes (dummy wsi) (calls.filter fun call => !call.reads) =
        sentBytes (dummy wsi) calls := by
    intro calls
    induction calls with
    | nil => rfl
    | cons call calls ih =>
      cases hreads : call.reads with
      | false => rw [List.filter_cons_of_pos (by simp [hreads]), sentBytes, sentBytes, ih]
      | true =>
        obtain ⟨query, rfl⟩ : ∃ query, call = .query query := by
          cases call with
          | query query => exact ⟨query, rfl⟩
          | _ => cases hreads
        have hquery : (LwsCall.query query).sent (dummy wsi) = some [] := rfl
        rw [List.filter_cons_of_neg (by simp), ih, sentBytes, hquery]
        cases sentBytes (dummy wsi) calls with
        | none => rfl
        | some bytes => rfl
  have hswap : ((withoutReads wire).filter (·.1 = wsi)).map (·.2) =
      ((wire.filter (·.1 = wsi)).map (·.2)).filter fun call => !call.reads := by
    rw [withoutReads, List.filter_map, List.filter_filter, List.filter_filter]
    congr 1
    apply List.filter_congr
    intro c _
    exact Bool.and_comm _ _
  rw [connectionStream, hswap, hbytes, ← connectionStream]

/-- **Reading handlers refine answering ones.** Requests of any connections are served in
any order, and the handlers read from any objects between their answers. The run ends
at the first reader that is given an unusable count, and at nothing else. If it does
not end, its calls that do more than read are those of the run in which the same
handlers only answer, and every connection is sent the same bytes. -/
theorem reading_run_refines (owner : Owner) (requests : List ReadingRequest) :
    (Runs.exec (serveReading conv lws owner) [] requests ≠ none ↔
      ∀ r ∈ requests, r.accepted conv owner → ∀ step ∈ r.steps, step.Completes) ∧
    ∀ wire, Runs.exec (serveReading conv lws owner) [] requests = some wire →
      ∃ answered, Runs.exec (serve lws conv owner) [] (requests.map ReadingRequest.handled) =
          some answered ∧
        withoutReads wire = answered ∧
        ∀ dummy wsi, connectionStream dummy wsi wire = connectionStream dummy wsi answered := by
  have hseen (hcompletes : ∀ r ∈ requests, r.accepted conv owner →
      ∀ step ∈ r.steps, step.Completes) :
      (Runs.exec (serveReading conv lws owner) [] requests).map withoutReads =
        Runs.exec (serve lws conv owner) [] (requests.map ReadingRequest.handled) := by
    rw [← List.filterMap_eq_map]
    exact Runs.exec_filterMap withoutReads (some ∘ ReadingRequest.handled)
      (fun r hr wire => serveReading_withoutReads conv lws (hcompletes r hr) wire) []
  have hends : Runs.exec (serveReading conv lws owner) [] requests ≠ none ↔
      ∀ r ∈ requests, r.accepted conv owner → ∀ step ∈ r.steps, step.Completes := by
    constructor
    · intro hexec r hr
      by_contra habort
      have hnever : ∀ wire, serveReading conv lws owner wire r = none := fun wire =>
        not_not.mp ((serveReading_ne_none_iff conv lws owner wire r).not.mpr habort)
      exact hexec (Runs.exec_eq_none_of_mem hnever hr [])
    · intro hcompletes hnone
      have hanswered := hseen hcompletes
      rw [hnone, exec_serve] at hanswered
      cases hanswered
  refine ⟨hends, fun wire hexec => ⟨withoutReads wire, ?_, rfl, fun dummy wsi => ?_⟩⟩
  · have hcompletes := hends.mp (by rw [hexec]; exact Option.some_ne_none wire)
    rw [← hseen hcompletes, hexec, Option.map_some]
  · exact (connectionStream_withoutReads dummy wsi wire).symm

/-- What the library holds about a request with the argument `id=7`. -/
def storedId : StoredRequest :=
  ⟨fun _ => [], fun _ => [], [], [ascii "id=7"], fun _ _ => ([], -1), ([], 0)⟩

/-- `OnLwsHttp` reads an argument of a request on connection 1 and answers with 64 letters. -/
def readsAndAnswers (key : FString) : ReadingRequest :=
  ⟨timeRequest, [], [.read storedId timeRequest.params (.getUrlParam key 0) ([] : FString),
    .sendResponse (.plainText (List.replicate 64 120))]⟩

/-- With the argument that is there, the answer is sent as it is without the read. With
another one, the run ends. -/
theorem readsAndAnswers_refines :
    (∃ wire answered,
      Runs.exec (serveReading .latin1 Lws.plain ⟨⟨ascii "api", 3⟩⟩) []
          [readsAndAnswers (text "id")] = some wire ∧
        Runs.exec (serve Lws.plain .latin1 ⟨⟨ascii "api", 3⟩⟩) []
          [(readsAndAnswers (text "id")).handled] = some answered ∧
        ∀ dummy wsi, connectionStream dummy wsi wire = connectionStream dummy wsi answered) ∧
      Runs.exec (serveReading .latin1 Lws.plain ⟨⟨ascii "api", 3⟩⟩) []
        [readsAndAnswers (text "name")] = none := by
  constructor
  · obtain ⟨hends, hrefines⟩ := reading_run_refines .latin1 Lws.plain ⟨⟨ascii "api", 3⟩⟩
      [readsAndAnswers (text "id")]
    have hexec := hends.mpr (by
      intro r hr _ step hstep
      obtain rfl := List.mem_singleton.mp hr
      simp only [readsAndAnswers, ReadingRequest.steps, List.flatten_nil, List.nil_append,
        List.mem_cons, List.not_mem_nil, or_false] at hstep
      rcases hstep with rfl | rfl
      · intro _
        decide
      · trivial)
    obtain ⟨wire, hwire⟩ := Option.ne_none_iff_exists'.mp hexec
    obtain ⟨answered, hanswered, -, hstream⟩ := hrefines wire hwire
    exact ⟨wire, answered, hwire, hanswered, hstream⟩
  · obtain ⟨hends, -⟩ := reading_run_refines .latin1 Lws.plain ⟨⟨ascii "api", 3⟩⟩
      [readsAndAnswers (text "name")]
    by_contra hexec
    have hcompletes := hends.mp hexec _ (List.mem_singleton_self _) (by decide) _
      List.mem_cons_self
    exact hcompletes (Or.inl rfl) (by decide)

end HttpLws
