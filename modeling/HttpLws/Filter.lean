import HttpLws.Address

/-!
# The filter of the callback and the mount

The API address is declared to the library as a mount, whose URIs begin with it. The
callback tests the URI once more, but asks only whether it contains the address
somewhere, without regard to case. The handlers get what the mount covers exactly
when the two tests agree on the URI.
-/

namespace HttpLws

variable (lws : Lws) (conv : AnsiConversion) (loc : Locale)

/-- The URI lies under the API mount: behind its leading slash, it begins with the address. -/
def UnderMount (apiUri : FString) (uri : List UInt8) : Prop :=
  ∃ address, loc.encodeAll apiUri = some address ∧ 47 :: address <+: uri

/-- The URI contains the narrowed address somewhere, letters compared without case. -/
def containsAddress (apiUri : FString) (uri : List UInt8) : Bool :=
  FString.contains (uri.map conv.widen) ((convertAddress loc apiUri false).data.map conv.widen)

/-- What the callback has to do with a request, by whether its URI is under the mount. -/
structure FollowsMount (r : HttpRequest) (under : Prop) (result : Option CallbackResult) :
    Prop where
  /-- A request under the mount goes to the handlers. -/
  handed : under → ∃ c request, result = some c ∧ c.notified = some (.http request) ∧
    request.params = r.params
  /-- Every other one goes to the default handler, and no handler is notified. -/
  refused : ¬under →
    result = some ⟨none, [.callbackHttpDummy .lwsCallbackHttp], lws.httpDummy r.params⟩

/-- The URI contains the address if it is under the mount, and only then. -/
structure FilterFits (apiUri : FString) (uri : List UInt8) : Prop where
  /-- Under the mount the filter finds the address. -/
  inside : UnderMount loc apiUri uri → containsAddress conv loc apiUri uri = true
  /-- Elsewhere it does not. -/
  outside : ¬UnderMount loc apiUri uri → containsAddress conv loc apiUri uri = false

/-- The callback follows the mount exactly when its filter agrees with it. -/
theorem followsMount_iff_filterFits (paths : ServerPaths) (r : HttpRequest)
    (reactions : Reactions) :
    FollowsMount lws r (UnderMount loc paths.apiUri r.uri)
        (callbackHttp lws conv (some ⟨(ThreadAddresses.new loc paths).apiUri⟩) r.params reactions) ↔
      FilterFits conv loc paths.apiUri r.uri := by
  have haccepted : r.accepted conv ⟨(ThreadAddresses.new loc paths).apiUri⟩ =
      containsAddress conv loc paths.apiUri r.uri := by
    rw [HttpRequest.accepted, new_apiUri_data, containsAddress]
  rw [callbackHttp_request, haccepted]
  cases hcontains : containsAddress conv loc paths.apiUri r.uri with
  | true =>
    rw [if_pos rfl]
    constructor
    · rintro ⟨-, hrefused⟩
      refine ⟨fun _ => hcontains, fun hnot => ?_⟩
      have hnone := congrArg (Option.map CallbackResult.notified) (hrefused hnot)
      cases hnone
    · rintro ⟨-, houtside⟩
      refine ⟨fun _ => ⟨_, _, rfl, rfl, ?_⟩, fun hnot => ?_⟩
      · rw [params_answer, params_answer]
        rfl
      · rw [hcontains] at houtside
        exact absurd (houtside hnot) (by decide)
  | false =>
    rw [if_neg (by decide)]
    constructor
    · rintro ⟨hhanded, -⟩
      refine ⟨fun hunder => ?_, fun _ => hcontains⟩
      obtain ⟨c, request, hc, hnotified, -⟩ := hhanded hunder
      obtain rfl := Option.some.inj hc
      cases hnotified
    · rintro ⟨hinside, -⟩
      refine ⟨fun hunder => ?_, fun _ => rfl⟩
      rw [hcontains] at hinside
      exact absurd (hinside hunder) (by decide)

/-- Widened bytes without a zero lie before the end of the string. -/
theorem cString_widen_append {bs : List UInt8} (hzero : 0 ∉ bs) (s : FString) :
    FString.cString (bs.map conv.widen ++ s) = bs.map conv.widen ++ s.cString := by
  apply Terminator.takeWhile_append
  exact (conv.not_mem_map_widen_iff (by decide) (by decide) conv.widen_zero bs).mpr hzero

/-- A URI under the mount of an address that is narrowed whole contains the address. -/
theorem containsAddress_of_underMount {apiUri : FString} {uri : List UInt8} (hne : apiUri ≠ [])
    (hfit : OneByteEach loc apiUri) (hunder : UnderMount loc apiUri uri) :
    containsAddress conv loc apiUri uri = true := by
  obtain ⟨address, haddress, rest, rfl⟩ := hunder
  obtain ⟨hwhole, -⟩ := convertAddress_of_oneByteEach loc hfit
  have hdata : (convertAddress loc apiUri false).data = address := by
    rw [haddress, Option.some.injEq] at hwhole
    exact hwhole.symm
  have hzero : 0 ∉ address := loc.not_mem_encodeAll
    (fun u hu b hb => loc.zero_not_mem u b (hfit u hu).1 hb) haddress
  have hnonempty : address ≠ [] := by
    have hlen := loc.length_le haddress
    have hpos := List.length_pos_iff.mpr hne
    exact List.length_pos_iff.mp (by omega)
  have hsub : FString.cString (address.map conv.widen) = address.map conv.widen := by
    have h := cString_widen_append conv hzero []
    rw [List.append_nil] at h
    rw [h]
    exact List.append_nil _
  have huri : FString.cString ((47 :: address ++ rest).map conv.widen) =
      (47 :: address).map conv.widen ++ FString.cString (rest.map conv.widen) := by
    rw [List.map_append]
    apply cString_widen_append
    rw [List.mem_cons, not_or]
    exact ⟨by decide, hzero⟩
  rw [containsAddress, hdata, FString.contains, decide_eq_true_eq, hsub, huri]
  refine ⟨by simpa using hnonempty, ?_⟩
  refine ⟨[lowerChar (conv.widen 47)], FString.lower (FString.cString (rest.map conv.widen)), ?_⟩
  simp [FString.lower]

/-- **The filter and the mount.** The handlers get exactly the requests under the API
mount when the filter's search agrees with the mount on the URI. For an address that
is narrowed whole this fails exactly for the URIs that contain the address, up to
case, without beginning with it. -/
theorem filter_follows_mount_iff (paths : ServerPaths) (r : HttpRequest)
    (reactions : Reactions) :
    (FollowsMount lws r (UnderMount loc paths.apiUri r.uri)
        (callbackHttp lws conv (some ⟨(ThreadAddresses.new loc paths).apiUri⟩) r.params reactions) ↔
      FilterFits conv loc paths.apiUri r.uri) ∧
    (paths.apiUri ≠ [] → OneByteEach loc paths.apiUri →
      (FilterFits conv loc paths.apiUri r.uri ↔ UnderMount loc paths.apiUri r.uri ∨
        containsAddress conv loc paths.apiUri r.uri = false)) := by
  refine ⟨followsMount_iff_filterFits lws conv loc paths r reactions, fun hne hfit => ?_⟩
  constructor
  · rintro ⟨-, houtside⟩
    by_cases hunder : UnderMount loc paths.apiUri r.uri
    · exact Or.inl hunder
    · exact Or.inr (houtside hunder)
  · rintro (hunder | hcontains)
    · exact ⟨fun h => containsAddress_of_underMount conv loc hne hfit h, fun h => absurd hunder h⟩
    · refine ⟨fun h => ?_, fun _ => hcontains⟩
      exact containsAddress_of_underMount conv loc hne hfit h

/-- A server with the API address `api`. -/
def apiPaths : ServerPaths := ⟨[], [], text "api"⟩

/-- The request for `/api/status`. -/
def mountedRequest : HttpRequest := ⟨1, 0, ascii "/api/status", [], by decide⟩

/-- The request for `/docs/API.html`. -/
def docsRequest : HttpRequest := ⟨1, 0, ascii "/docs/API.html", [], by decide⟩

/-- The handlers get the request for `/api/status`. -/
theorem mounted_request_follows_mount :
    FollowsMount Lws.plain mountedRequest (UnderMount .c apiPaths.apiUri mountedRequest.uri)
      (callbackHttp Lws.plain .latin1 (some ⟨(ThreadAddresses.new .c apiPaths).apiUri⟩)
        mountedRequest.params ⟨[], []⟩) := by
  have hne : apiPaths.apiUri ≠ [] := by decide
  have hfit : OneByteEach .c apiPaths.apiUri := by
    intro u hu
    have hall : apiPaths.apiUri = [97, 112, 105] := by decide
    rw [hall] at hu
    simp only [List.mem_cons, List.not_mem_nil, or_false] at hu
    rcases hu with rfl | rfl | rfl <;> exact ⟨by decide, _, rfl⟩
  have hunder : UnderMount .c apiPaths.apiUri mountedRequest.uri :=
    ⟨ascii "api", by decide, ascii "/status", by decide⟩
  obtain ⟨hfollows, hkind⟩ :=
    filter_follows_mount_iff Lws.plain .latin1 .c apiPaths mountedRequest ⟨[], []⟩
  exact hfollows.mpr ((hkind hne hfit).mpr (Or.inl hunder))

/-- The handlers get the request for `/docs/API.html` as well, although it does not lie
under the mount. -/
theorem docs_request_handed_over :
    ¬FollowsMount Lws.plain docsRequest (UnderMount .c apiPaths.apiUri docsRequest.uri)
      (callbackHttp Lws.plain .latin1 (some ⟨(ThreadAddresses.new .c apiPaths).apiUri⟩)
        docsRequest.params ⟨[], []⟩) := by
  rw [followsMount_iff_filterFits]
  rintro ⟨-, houtside⟩
  have hcontains : containsAddress .latin1 .c apiPaths.apiUri docsRequest.uri = true := by
    decide +kernel
  have hnot : ¬UnderMount .c apiPaths.apiUri docsRequest.uri := by
    rintro ⟨address, haddress, hprefix⟩
    have hapi : Locale.c.encodeAll apiPaths.apiUri = some (ascii "api") := by decide
    rw [hapi] at haddress
    obtain rfl := Option.some.inj haddress
    exact absurd hprefix (by decide)
  rw [houtside hnot] at hcontains
  cases hcontains

end HttpLws
