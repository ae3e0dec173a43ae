import HttpLws.Getters
import HttpLws.Info

/-!
# What a failed read leaves behind

Ten readers take an out parameter. They collect what they read in a variable of their
own and assign the out parameter in the statement before `return true`. In a normal
form, a reader either finds nothing or a value that does not depend on what the out
parameter held before; the form is kept by tests, by the loops and by reads that
follow one another into the same variable.
-/

namespace HttpLws

variable {α : Type}

/-- What the library holds about a request when one of the readers is called. -/
structure StoredRequest where
  /-- The headers that have a token. -/
  headers : HeaderTable
  /-- What stands outside of that table. -/
  stray : ℤ → List UInt8
  /-- The headers that have none. -/
  customHeaders : List CustomHeader
  /-- The URL arguments, decoded. -/
  urlArguments : List (List UInt8)
  /-- What a lookup does with an argument that does not fit its buffer. -/
  overlong : List UInt8 → ℕ → List UInt8 × ℤ
  /-- What `lws_http_get_uri_and_method` leaves in its two out parameters. -/
  uriAndMethod : List UInt8 × ℤ

/-- A call of one of the readers, with its arguments other than the out parameter. -/
inductive Getter
  | getMethod
  | getCustomHeader (key : FString)
  | getAllCustomHeaders (inHeaders : List FString)
  | getKnownHeaderEnum (key : ELwsKnownHeaders)
  | getKnownHeaderInt (key : ℤ)
  | getAllKnownHeaders
  | getAllUrlParameters
  | getUrlParam (key : FString) (bufferSize : ℤ)
  | getUri
  | getBody

/-- The type of a reader's out parameter. -/
def Getter.Out : Getter → Type
  | .getAllCustomHeaders _ | .getAllUrlParameters => FStringMap FString
  | .getAllKnownHeaders => FStringMap FLwsKnownHeaders
  | _ => FString

/-- The call on an object with the given `Params`, where `out` is the content of the
out parameter. -/
def Getter.call (conv : AnsiConversion) (lws : Lws) (stored : StoredRequest)
    (params : FLwsParams) : (g : Getter) → g.Out → Option (GetResult g.Out)
  | .getMethod, out => some (HttpLws.getMethod stored.headers params out)
  | .getCustomHeader key, out =>
      HttpLws.getCustomHeader conv stored.customHeaders params out key
  | .getAllCustomHeaders inHeaders, out =>
      HttpLws.getAllCustomHeaders conv stored.customHeaders params inHeaders out
  | .getKnownHeaderEnum key, out =>
      HttpLws.getKnownHeaderEnum conv stored.headers stored.stray params out key
  | .getKnownHeaderInt key, out =>
      HttpLws.getKnownHeaderInt conv stored.headers stored.stray params out key
  | .getAllKnownHeaders, out =>
      HttpLws.getAllKnownHeaders conv lws stored.headers stored.stray params out
  | .getAllUrlParameters, out => HttpLws.getAllUrlParameters conv stored.headers params out
  | .getUrlParam key bufferSize, out =>
      HttpLws.getUrlParam conv stored.overlong stored.urlArguments params out key bufferSize
  | .getUri, out => HttpLws.getUri conv stored.uriAndMethod params out
  | .getBody, out => (ULwsInfos.getBody conv (.newObject params) out).map fun got =>
      ⟨got.1, got.2, []⟩

/-- What the readers promise about an out parameter that held `out`. -/
structure ErrorContract (params : FLwsParams) (out : α) (r : Option (GetResult α)) : Prop where
  /-- After a return value of false the out parameter is what it was. -/
  keeps : ∀ got, r = some got → got.result = false → got.out = out
  /-- Outside of a request and its body the answer is false, without a library call. -/
  turnedAway : params.reason ≠ .lwsCallbackHttp → params.reason ≠ .lwsCallbackHttpBody →
    r = some ⟨false, out, []⟩

/-- What a finding makes of an out parameter that held `out`: a value replaces it, and
without one it is left alone. -/
def deliver (out : α) (finding : Option α × List LwsCall) : GetResult α :=
  ⟨finding.1.isSome, finding.1.getD out, finding.2⟩

/-- A reader whose findings do not depend on the out parameter, and which assigns it
only when it has found something. -/
def WritesOnSuccess (read : α → Option (GetResult α)) : Prop :=
  ∃ finding : Option (Option α × List LwsCall), ∀ out, read out = finding.map (deliver out)

/-- A failed read leaves the out parameter as it was. -/
theorem WritesOnSuccess.keeps {read : α → Option (GetResult α)} (h : WritesOnSuccess read)
    {out : α} {got : GetResult α} (hgot : read out = some got) (hfailed : got.result = false) :
    got.out = out := by
  obtain ⟨finding, hread⟩ := h
  rw [hread, Option.map_eq_some_iff] at hgot
  obtain ⟨⟨found, calls⟩, -, rfl⟩ := hgot
  cases found with
  | none => rfl
  | some value => simp [deliver] at hfailed

/-- What a successful read stores does not depend on the earlier content. -/
theorem WritesOnSuccess.overwrites {read : α → Option (GetResult α)} (h : WritesOnSuccess read)
    {out : α} {got : GetResult α} (hgot : read out = some got) (hdone : got.result = true)
    (earlier : α) : read earlier = some got := by
  obtain ⟨finding, hread⟩ := h
  rw [hread, Option.map_eq_some_iff] at hgot
  obtain ⟨⟨found, calls⟩, hfinding, rfl⟩ := hgot
  cases found with
  | none => simp [deliver] at hdone
  | some value =>
    rw [hread, hfinding]
    rfl

/-- Reads one after another into the same variable: its content in the end, and what
each of the reads returned. -/
def readInto : List (α → Option (GetResult α)) → α → Option (α × List (GetResult α))
  | [], out => some (out, [])
  | read :: reads, out =>
      (read out).bind fun got =>
        (readInto reads got.out).map fun rest => (rest.1, got :: rest.2)

/-- A variable that is used for several reads holds what the last successful one stored,
or what it held before if there is none. -/
theorem readInto_eq_last {reads : List (α → Option (GetResult α))}
    (hreads : ∀ read ∈ reads, WritesOnSuccess read) {out final : α}
    {results : List (GetResult α)} (hrun : readInto reads out = some (final, results)) :
    final = ((results.filter (·.result)).map (·.out)).getLastD out := by
  induction reads generalizing out results with
  | nil =>
    obtain ⟨rfl, rfl⟩ := Prod.mk.inj (Option.some.inj hrun)
    rfl
  | cons read reads ih =>
    obtain ⟨hread, hrest⟩ := List.forall_mem_cons.mp hreads
    obtain ⟨got, hgot, hmap⟩ := Option.bind_eq_some_iff.mp hrun
    obtain ⟨⟨last, rest⟩, hlater, hpair⟩ := Option.map_eq_some_iff.mp hmap
    obtain ⟨rfl, rfl⟩ := Prod.mk.inj hpair
    have hlast := ih hrest hlater
    cases hresult : got.result with
    | false =>
      have hkept : got.out = out := hread.keeps hgot hresult
      rw [List.filter_cons_of_neg (by simp [hresult]), hlast, hkept]
    | true =>
      rw [List.filter_cons_of_pos hresult, List.map_cons, List.getLastD_cons, hlast]

/-- After a successful read, nothing depends on what the variable held before it. -/
theorem readInto_of_succeeds {read : α → Option (GetResult α)} (hread : WritesOnSuccess read)
    {out : α} {got : GetResult α} (hgot : read out = some got) (hdone : got.result = true)
    (reads : List (α → Option (GetResult α))) (earlier : α) :
    readInto (read :: reads) earlier = readInto (read :: reads) out := by
  have hsame : read earlier = some got := hread.overwrites hgot hdone earlier
  rw [readInto, readInto, hsame, hgot]

/-- An early return of false. -/
theorem writesOnSuccess_refused (calls : List LwsCall) :
    WritesOnSuccess fun out : α => some ⟨false, out, calls⟩ :=
  ⟨some (none, calls), fun _ => rfl⟩

/-- The assignment of what was read, followed by a return of true. -/
theorem writesOnSuccess_stored {β : Type} (done : Option β) (value : β → α)
    (calls : β → List LwsCall) :
    WritesOnSuccess fun _ : α => done.map fun b => ⟨true, value b, calls b⟩ := by
  refine ⟨done.map fun b => (some (value b), calls b), fun out => ?_⟩
  rw [Option.map_map]
  rfl

/-- A test that does not look at the out parameter. -/
theorem WritesOnSuccess.ite (c : Prop) [Decidable c] {read other : α → Option (GetResult α)}
    (hread : WritesOnSuccess read) (hother : WritesOnSuccess other) :
    WritesOnSuccess fun out => if c then read out else other out := by
  by_cases hc : c
  · simpa only [if_pos hc] using hread
  · simpa only [if_neg hc] using hother

/-- A guard that returns false before the rest of a reader. -/
theorem WritesOnSuccess.guarded (c : Prop) [Decidable c] (calls : List LwsCall)
    {read : α → Option (GetResult α)} (hread : WritesOnSuccess read) :
    WritesOnSuccess fun out => if c then some ⟨false, out, calls⟩ else read out :=
  .ite c (writesOnSuccess_refused calls) hread

/-- The chain of tests in `GetMethod` finds a method or nothing. -/
theorem testMethods_finds (headers : HeaderTable) (tokens : List (LwsTokenIndexes × FString)) :
    ∃ finding, ∀ out, testMethods headers out tokens = deliver out finding := by
  induction tokens with
  | nil => exact ⟨(none, []), fun _ => rfl⟩
  | cons entry tokens ih =>
    obtain ⟨later, hlater⟩ := ih
    by_cases hstored : lwsHdrTotalLength headers entry.1 > 0
    · refine ⟨(some entry.2, [.query .lwsHdrTotalLength]), fun out => ?_⟩
      rw [testMethods, if_pos hstored]
      rfl
    · refine ⟨(later.1, .query .lwsHdrTotalLength :: later.2), fun out => ?_⟩
      rw [testMethods, if_neg hstored, hlater]
      rfl

/-- `GetMethod` writes on success. -/
theorem writesOnSuccess_getMethod (headers : HeaderTable) (params : FLwsParams) :
    WritesOnSuccess fun out => some (getMethod headers params out) := by
  obtain ⟨finding, htests⟩ := testMethods_finds headers methodTokens
  have hchain : WritesOnSuccess fun out => some (testMethods headers out methodTokens) :=
    ⟨some finding, fun out => congrArg some (htests out)⟩
  simpa only [getMethod, apply_ite] using hchain.guarded (params.reason ≠ .lwsCallbackHttp) []

section

variable (conv : AnsiConversion) (lws : Lws) (stored : StoredRequest) (params : FLwsParams)

/-- `GetUri` writes on success. -/
theorem writesOnSuccess_getUri : WritesOnSuccess (getUri conv stored.uriAndMethod params) := by
  unfold getUri
  apply WritesOnSuccess.guarded
  apply WritesOnSuccess.guarded
  exact writesOnSuccess_stored _ _ _

/-- `GetCustomHeader` writes on success: it fails only at its guard. -/
theorem writesOnSuccess_getCustomHeader (key : FString) :
    WritesOnSuccess fun out => getCustomHeader conv stored.customHeaders params out key := by
  unfold getCustomHeader
  apply WritesOnSuccess.guarded
  exact writesOnSuccess_stored _ _ _

/-- `GetAllCustomHeaders` writes on success: the nested reads fill the map of the loop. -/
theorem writesOnSuccess_getAllCustomHeaders (inHeaders : List FString) :
    WritesOnSuccess (getAllCustomHeaders conv stored.customHeaders params inHeaders) := by
  unfold getAllCustomHeaders
  apply WritesOnSuccess.guarded
  exact writesOnSuccess_stored _ _ _

/-- A read of one known header writes on success; without a value it returns false. -/
theorem writesOnSuccess_readKnownHeader (token : ℤ) :
    WritesOnSuccess fun out =>
      readKnownHeader conv stored.headers stored.stray params out token := by
  unfold readKnownHeader
  apply WritesOnSuccess.guarded
  apply WritesOnSuccess.ite
  · exact writesOnSuccess_stored _ _ _
  · exact writesOnSuccess_refused _

/-- `GetAllKnownHeaders` writes on success: the loop over all tokens fills its own map. -/
theorem writesOnSuccess_getAllKnownHeaders :
    WritesOnSuccess (getAllKnownHeaders conv lws stored.headers stored.stray params) := by
  unfold getAllKnownHeaders
  apply WritesOnSuccess.guarded
  exact writesOnSuccess_stored _ _ _

/-- `GetAllUrlParameters` writes on success. It can also give up when the arguments
are absent, and when they were copied. -/
theorem writesOnSuccess_getAllUrlParameters :
    WritesOnSuccess (getAllUrlParameters conv stored.headers params) := by
  unfold getAllUrlParameters
  apply WritesOnSuccess.guarded
  apply WritesOnSuccess.guarded
  apply WritesOnSuccess.guarded
  exact writesOnSuccess_stored _ _ _

/-- `GetUrlParam` writes on success. -/
theorem writesOnSuccess_getUrlParam (key : FString) (bufferSize : ℤ) :
    WritesOnSuccess fun out =>
      getUrlParam conv stored.overlong stored.urlArguments params out key bufferSize := by
  unfold getUrlParam
  apply WritesOnSuccess.guarded
  apply WritesOnSuccess.guarded
  exact writesOnSuccess_stored _ _ _

/-- `GetBody` writes on success. -/
theorem writesOnSuccess_getBody :
    WritesOnSuccess fun out => (ULwsInfos.getBody conv (.newObject params) out).map fun got =>
      ⟨got.1, got.2, []⟩ := by
  by_cases hreason : params.reason ≠ .lwsCallbackHttpBody
  · have hturned (out : FString) :
        ULwsInfos.getBody conv (.newObject params) out = some (false, out) := by
      rw [ULwsInfos.getBody, ULwsInfos.newObject, if_pos hreason]
    simpa only [hturned, Option.map_some] using writesOnSuccess_refused []
  · cases hbody : params.inData with
    | none =>
      have hnull (out : FString) :
          ULwsInfos.getBody conv (.newObject params) out = some (false, out) := by
        simp only [ULwsInfos.getBody, ULwsInfos.newObject, if_neg hreason, hbody]
      simpa only [hnull, Option.map_some] using writesOnSuccess_refused []
    | some body =>
      have hread (out : FString) : ULwsInfos.getBody conv (.newObject params) out =
          (FString.appendChars conv [] body (toInt32 params.len)).map fun bodyString =>
            (true, bodyString) := by
        simp only [ULwsInfos.getBody, ULwsInfos.newObject, if_neg hreason, hbody]
      simp only [hread, Option.map_map]
      exact writesOnSuccess_stored _ _ _

/-- **All ten readers write on success only.** -/
theorem writesOnSuccess_call (g : Getter) : WritesOnSuccess (g.call conv lws stored params) := by
  cases g with
  | getMethod => exact writesOnSuccess_getMethod stored.headers params
  | getCustomHeader key => exact writesOnSuccess_getCustomHeader conv stored params key
  | getAllCustomHeaders inHeaders =>
    exact writesOnSuccess_getAllCustomHeaders conv stored params inHeaders
  | getKnownHeaderEnum key => exact writesOnSuccess_readKnownHeader conv stored params _
  | getKnownHeaderInt key => exact writesOnSuccess_readKnownHeader conv stored params key
  | getAllKnownHeaders => exact writesOnSuccess_getAllKnownHeaders conv lws stored params
  | getAllUrlParameters => exact writesOnSuccess_getAllUrlParameters conv stored params
  | getUrlParam key bufferSize =>
    exact writesOnSuccess_getUrlParam conv stored params key bufferSize
  | getUri => exact writesOnSuccess_getUri conv stored params
  | getBody => exact writesOnSuccess_getBody conv params

/-- Every reader begins with a test of the reason, before it calls the library. -/
theorem call_turnedAway (hrequest : params.reason ≠ .lwsCallbackHttp)
    (hbody : params.reason ≠ .lwsCallbackHttpBody) (g : Getter) (out : g.Out) :
    g.call conv lws stored params out = some ⟨false, out, []⟩ := by
  have hneither : params.reason ≠ .lwsCallbackHttp ∧ params.reason ≠ .lwsCallbackHttpBody :=
    ⟨hrequest, hbody⟩
  cases g with
  | getMethod => exact congrArg some (if_pos hrequest)
  | getUri => exact if_pos hrequest
  | getBody =>
    have hturned : ULwsInfos.getBody conv (.newObject params) out = some (false, out) :=
      if_pos hbody
    rw [Getter.call, hturned]
    rfl
  | getCustomHeader | getAllCustomHeaders | getKnownHeaderEnum | getKnownHeaderInt
  | getAllKnownHeaders | getAllUrlParameters | getUrlParam => exact if_pos hneither

/-- **What a failed read leaves behind.** When one of the ten readers returns false, its
out parameter is what it was before the call; outside of a request and its body, all
of them return false without a library call. -/
theorem read_errorContract (g : Getter) (out : g.Out) :
    ErrorContract params out (g.call conv lws stored params out) := by
  constructor
  · intro got hgot hfailed
    exact (writesOnSuccess_call conv lws stored params g).keeps hgot hfailed
  · intro hrequest hbody
    exact call_turnedAway conv lws stored params hrequest hbody g out

end

end HttpLws
