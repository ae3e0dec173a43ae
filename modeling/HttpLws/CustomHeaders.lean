import HttpLws.Getters
import HttpLws.Lib.FirstMatch

/-!
# Reading custom headers

`GetCustomHeader` adds one to the library's length and copies that many bytes. For a
missing header both calls report -1, and the second -1 is passed on as a count. So one
requested name that was not received aborts the getter, and the list function with it.
-/

namespace HttpLws

open Unicode FirstMatch

variable (conv : AnsiConversion)

/-- The header has the name `key`, which is a text. -/
def CustomHeader.Named (key : FString) (h : CustomHeader) : Prop :=
  ∃ name, Encodes name key ∧ h.name = name ++ [58]

/-- The first received header named `key` has the value. -/
def FirstReceived (headers : List CustomHeader) (key : FString) (value : List UInt8) : Prop :=
  ∃ h, IsFirst (CustomHeader.Named key) headers h ∧ h.value = value

/-- What a lookup of `key` has to leave behind, with `value` in the out parameter before. -/
structure ReadsCustom (headers : List CustomHeader) (key value : FString)
    (r : Option (GetResult FString)) : Prop where
  /-- A received header is read with its full value. -/
  present : ∀ v, FirstReceived headers key v →
    ∃ g, r = some g ∧ g.result = true ∧ g.out = v.map conv.widen
  /-- Without the header, the getter fails and keeps the out parameter. -/
  absent : (∀ h ∈ headers, ¬h.Named key) → ∃ g, r = some g ∧ g.result = false ∧ g.out = value

/-- What reading a list of keys has to leave behind: a map of exactly the requested
keys that were received. -/
structure ReadsAllCustom (headers : List CustomHeader) (inHeaders : List FString)
    (r : Option (GetResult (FStringMap FString))) : Prop where
  /-- No count is negative, and the getter succeeds. -/
  completes : ∃ g, r = some g ∧ g.result = true
  /-- Every entry is a requested key with its received value. -/
  requested : ∀ g, r = some g → ∀ p ∈ g.out.pairs, p.1 ∈ inHeaders ∧
    ∃ v, FirstReceived headers p.1 v ∧ p.2 = v.map conv.widen
  /-- Every requested key that was received has its value in the map. -/
  received : ∀ g, r = some g → ∀ key ∈ inHeaders, ∀ v, FirstReceived headers key v →
    ∃ p ∈ g.out.pairs, p.1.lower = key.lower ∧ p.2 = v.map conv.widen

/-- The library finds a value for the key, that of the received header. -/
def FoundAsReceived (headers : List CustomHeader) (key : FString) : Prop :=
  ∃ v w, customValue headers (nameBytes key) = some v ∧ FirstReceived headers key w ∧
    v.map conv.widen = w.map conv.widen

/-- A requested key with what the library finds for it. -/
def foundPair (headers : List CustomHeader) (key : FString) : FString × FString :=
  (key, ((customValue headers (nameBytes key)).getD []).map conv.widen)

/-- The library finds a value for every requested key, and among keys that differ only
in case the last one has a value that was received for all of them. -/
structure AllFoundAsReceived (headers : List CustomHeader) (inHeaders : List FString) : Prop where
  /-- There is a value for every key. -/
  found : ∀ key ∈ inHeaders, customValue headers (nameBytes key) ≠ none
  /-- The value of a last key was received for it. -/
  last : ∀ p, KeyedMap.IsLast FString.lower (inHeaders.map (foundPair conv headers)) p →
    ∃ v, FirstReceived headers p.1 v ∧ p.2 = v.map conv.widen
  /-- It was received for the other keys as well. -/
  same : ∀ key ∈ inHeaders, ∀ v, FirstReceived headers key v →
    ∀ p, KeyedMap.IsLast FString.lower (inHeaders.map (foundPair conv headers)) p →
      p.1.lower = key.lower → p.2 = v.map conv.widen

/-- `GetCustomHeader` by what the library finds: a missing header aborts. -/
theorem getCustomHeader_eq {params : FLwsParams} (headers : List CustomHeader)
    (value key : FString)
    (hreason : params.reason = .lwsCallbackHttp ∨ params.reason = .lwsCallbackHttpBody) :
    getCustomHeader conv headers params value key =
      (customValue headers (nameBytes key)).map fun v =>
        ⟨true, v.map conv.widen, [.query .lwsHdrCustomLength, .query .lwsHdrCustomCopy]⟩ := by
  rw [getCustomHeader, if_neg (not_turned_away hreason)]
  dsimp only
  cases hfound : customValue headers (nameBytes key) with
  | none => simp [lwsHdrCustomCopy, hfound, FString.appendChars]
  | some v =>
    have hroom : (v.length : ℤ) < v.length + 1 := by omega
    simp only [lwsHdrCustomLength, lwsHdrCustomCopy, hfound, if_pos hroom, appendChars_append,
      Option.map_some, List.nil_append]

/-- There is a first received header if one was received. -/
theorem exists_firstReceived_iff {headers : List CustomHeader} {key : FString} :
    (∃ v, FirstReceived headers key v) ↔ ∃ h ∈ headers, h.Named key := by
  rw [← exists_isFirst_iff]
  exact ⟨fun ⟨_, h, hfirst, _⟩ => ⟨h, hfirst⟩, fun ⟨h, hfirst⟩ => ⟨h.value, h, hfirst, rfl⟩⟩

/-- A key has one first received value. -/
theorem FirstReceived.unique {headers : List CustomHeader} {key : FString} {v w : List UInt8}
    (hv : FirstReceived headers key v) (hw : FirstReceived headers key w) : v = w := by
  obtain ⟨h, hfirst, rfl⟩ := hv
  obtain ⟨h', hfirst', rfl⟩ := hw
  rw [hfirst.unique hfirst']

/-- One key is read as it should be exactly when the library finds the received value. -/
theorem readsCustom_iff_found {params : FLwsParams} (headers : List CustomHeader)
    (value key : FString)
    (hreason : params.reason = .lwsCallbackHttp ∨ params.reason = .lwsCallbackHttpBody) :
    ReadsCustom conv headers key value (getCustomHeader conv headers params value key) ↔
      FoundAsReceived conv headers key := by
  rw [getCustomHeader_eq conv headers value key hreason]
  constructor
  · rintro ⟨hpresent, habsent⟩
    have hreceived : ∃ h ∈ headers, h.Named key := by
      by_contra hnone
      have hall : ∀ h ∈ headers, ¬h.Named key := fun h hh hnamed => hnone ⟨h, hh, hnamed⟩
      obtain ⟨g, hg, hresult, -⟩ := habsent hall
      obtain ⟨v, -, rfl⟩ := Option.map_eq_some_iff.mp hg
      exact absurd hresult (by simp)
    obtain ⟨w, hw⟩ := exists_firstReceived_iff.mpr hreceived
    obtain ⟨g, hg, -, hout⟩ := hpresent w hw
    obtain ⟨v, hv, rfl⟩ := Option.map_eq_some_iff.mp hg
    exact ⟨v, w, hv, hw, hout⟩
  · rintro ⟨v, w, hv, hw, hsame⟩
    rw [hv, Option.map_some]
    refine ⟨fun w' hw' => ⟨_, rfl, rfl, ?_⟩, fun hnone => ?_⟩
    · rw [hw'.unique hw]
      exact hsame
    · obtain ⟨h, hh, hnamed⟩ := exists_firstReceived_iff.mp ⟨w, hw⟩
      exact absurd hnamed (hnone h hh)

/-- The loop over the requested keys aborts at a key that the library does not find. -/
theorem foldlM_addReceivedHeader_eq_none {params : FLwsParams} {headers : List CustomHeader}
    {keys : List FString}
    (hreason : params.reason = .lwsCallbackHttp ∨ params.reason = .lwsCallbackHttpBody)
    (hmissing : ∃ key ∈ keys, customValue headers (nameBytes key) = none)
    (temp : FStringMap FString × List LwsCall) :
    keys.foldlM (addReceivedHeader conv headers params) temp = none := by
  induction keys generalizing temp with
  | nil => simp at hmissing
  | cons key keys ih =>
    rw [List.foldlM_cons, addReceivedHeader, getCustomHeader_eq conv headers [] key hreason]
    cases hfound : customValue headers (nameBytes key) with
    | none => rfl
    | some v =>
      obtain ⟨k, hk, hnone⟩ := hmissing
      rcases List.mem_cons.mp hk with rfl | hk
      · rw [hfound] at hnone
        cases hnone
      · exact ih ⟨k, hk, hnone⟩ _

/-- When the library finds every requested key, the loop adds all the pairs. -/
theorem foldlM_addReceivedHeader_eq_some {params : FLwsParams} {headers : List CustomHeader}
    {keys : List FString}
    (hreason : params.reason = .lwsCallbackHttp ∨ params.reason = .lwsCallbackHttpBody)
    (hfound : ∀ key ∈ keys, customValue headers (nameBytes key) ≠ none)
    (temp : FStringMap FString × List LwsCall) :
    ∃ calls, keys.foldlM (addReceivedHeader conv headers params) temp =
      some (temp.1.addAll (keys.map (foundPair conv headers)), calls) := by
  induction keys generalizing temp with
  | nil => exact ⟨temp.2, rfl⟩
  | cons key keys ih =>
    rw [List.forall_mem_cons] at hfound
    obtain ⟨v, hv⟩ := Option.ne_none_iff_exists'.mp hfound.1
    obtain ⟨calls, hrest⟩ := ih hfound.2 (temp.1.add key (v.map conv.widen),
      temp.2 ++ [.query .lwsHdrCustomLength, .query .lwsHdrCustomCopy])
    refine ⟨calls, ?_⟩
    rw [List.foldlM_cons, addReceivedHeader, getCustomHeader_eq conv headers [] key hreason, hv]
    simp only [Option.map_some, Option.bind_eq_bind, Option.bind_some, hrest, List.map_cons,
      KeyedMap.addAll, List.foldl_cons, foundPair, hv, Option.getD_some]

/-- `GetAllCustomHeaders` by what the library finds. -/
theorem getAllCustomHeaders_eq {params : FLwsParams} (headers : List CustomHeader)
    (inHeaders : List FString) (outHeaders : FStringMap FString)
    (hreason : params.reason = .lwsCallbackHttp ∨ params.reason = .lwsCallbackHttpBody) :
    ∃ calls, getAllCustomHeaders conv headers params inHeaders outHeaders =
      if ∀ key ∈ inHeaders, customValue headers (nameBytes key) ≠ none then
        some ⟨true, KeyedMap.empty.addAll (inHeaders.map (foundPair conv headers)), calls⟩
      else none := by
  rw [getAllCustomHeaders, if_neg (not_turned_away hreason)]
  by_cases hfound : ∀ key ∈ inHeaders, customValue headers (nameBytes key) ≠ none
  · obtain ⟨calls, hloop⟩ :=
      foldlM_addReceivedHeader_eq_some conv hreason hfound (.empty, [])
    refine ⟨calls, ?_⟩
    rw [if_pos hfound, hloop, Option.map_some]
  · have hmissing : ∃ key ∈ inHeaders, customValue headers (nameBytes key) = none := by
      by_contra hnone
      exact hfound fun key hkey h => hnone ⟨key, hkey, h⟩
    refine ⟨[], ?_⟩
    rw [if_neg hfound, foldlM_addReceivedHeader_eq_none conv hreason hmissing, Option.map_none]

/-- A list of keys is read as it should be exactly when the library finds the received
values. -/
theorem readsAllCustom_iff_found {params : FLwsParams} (headers : List CustomHeader)
    (inHeaders : List FString) (outHeaders : FStringMap FString)
    (hreason : params.reason = .lwsCallbackHttp ∨ params.reason = .lwsCallbackHttpBody) :
    ReadsAllCustom conv headers inHeaders
        (getAllCustomHeaders conv headers params inHeaders outHeaders) ↔
      AllFoundAsReceived conv headers inHeaders := by
  obtain ⟨calls, heq⟩ := getAllCustomHeaders_eq conv headers inHeaders outHeaders hreason
  rw [heq]
  constructor
  · rintro ⟨⟨g, hg, -⟩, hrequested, hreceived⟩
    have hfound : ∀ key ∈ inHeaders, customValue headers (nameBytes key) ≠ none := by
      by_contra hmissing
      rw [if_neg hmissing] at hg
      cases hg
    rw [if_pos hfound] at hrequested hreceived
    refine ⟨hfound, fun p hp => ?_, fun key hkey v hv p hp hsame => ?_⟩
    · exact (hrequested _ rfl p (KeyedMap.mem_addAll_empty_iff.mpr hp)).2
    · obtain ⟨q, hq, hlower, hvalue⟩ := hreceived _ rfl key hkey v hv
      have hpq := KeyedMap.eq_of_mem _ (KeyedMap.mem_addAll_empty_iff.mpr hp) hq
        (hsame.trans hlower.symm)
      rw [hpq]
      exact hvalue
  · rintro ⟨hfound, hlast, hsame⟩
    rw [if_pos hfound]
    refine ⟨⟨_, rfl, rfl⟩, fun g hg p hp => ?_, fun g hg key hkey v hv => ?_⟩
    · obtain rfl := Option.some.inj hg
      have hp' := KeyedMap.mem_addAll_empty_iff.mp hp
      refine ⟨?_, hlast p hp'⟩
      obtain ⟨key, hkey, rfl⟩ := List.mem_map.mp hp'.mem
      exact hkey
    · obtain rfl := Option.some.inj hg
      have hmem : foundPair conv headers key ∈ inHeaders.map (foundPair conv headers) :=
        List.mem_map_of_mem hkey
      obtain ⟨p, hp, hlower⟩ := KeyedMap.exists_isLast FString.lower hmem
      exact ⟨p, KeyedMap.mem_addAll_empty_iff.mpr hp, hlower, hsame key hkey v hv p hp hlower⟩

/-- The name under which a text without NUL is looked up. -/
theorem nameBytes_utf16 {t : List Char} (h : '\x00' ∉ t) :
    nameBytes (utf16 t) = utf8 t ++ [58] :=
  takeWhile_tcharToUtf8_append_text h (by decide)

/-- The library finds the value under the name of a text without NUL. -/
theorem customValue_utf16_iff {headers : List CustomHeader} {t : List Char} (h : '\x00' ∉ t)
    {v : List UInt8} :
    customValue headers (nameBytes (utf16 t)) = some v ↔ FirstReceived headers (utf16 t) v := by
  have hnamed : ∀ a ∈ headers,
      decide (a.name = nameBytes (utf16 t)) = true ↔ a.Named (utf16 t) := by
    intro a _
    rw [decide_eq_true_eq, nameBytes_utf16 h]
    constructor
    · exact fun heq => ⟨utf8 t, encodes_utf16_iff.mpr rfl, heq⟩
    · rintro ⟨name, hname, heq⟩
      rw [heq, encodes_utf16_iff.mp hname]
  rw [customValue, Option.map_eq_some_iff]
  simp only [find?_eq_some_iff hnamed]
  rfl

/-- For a text without NUL, the received value is found exactly when the header was received. -/
theorem foundAsReceived_utf16_iff {headers : List CustomHeader} {t : List Char} (h : '\x00' ∉ t) :
    FoundAsReceived conv headers (utf16 t) ↔ ∃ a ∈ headers, a.Named (utf16 t) := by
  rw [← exists_firstReceived_iff]
  constructor
  · rintro ⟨_, w, -, hw, -⟩
    exact ⟨w, hw⟩
  · rintro ⟨w, hw⟩
    exact ⟨w, w, (customValue_utf16_iff h).mpr hw, hw, rfl⟩

/-- For texts without NUL, the received values are found exactly when all headers were
received and keys that differ only in case have the same value. -/
theorem allFoundAsReceived_utf16_iff {headers : List CustomHeader} {inHeaders : List FString}
    (htext : ∀ key ∈ inHeaders, ∃ t, key = utf16 t ∧ '\x00' ∉ t) :
    AllFoundAsReceived conv headers inHeaders ↔
      (∀ key ∈ inHeaders, ∃ a ∈ headers, a.Named key) ∧
        ∀ key ∈ inHeaders, ∀ key' ∈ inHeaders, key.lower = key'.lower →
          ∀ v v', FirstReceived headers key v → FirstReceived headers key' v' →
            v.map conv.widen = v'.map conv.widen := by
  have hfound : ∀ key ∈ inHeaders, ∀ v,
      customValue headers (nameBytes key) = some v ↔ FirstReceived headers key v := by
    intro key hkey v
    obtain ⟨t, rfl, h⟩ := htext key hkey
    exact customValue_utf16_iff h
  have hpair : ∀ key ∈ inHeaders, ∀ v, FirstReceived headers key v →
      foundPair conv headers key = (key, v.map conv.widen) := by
    intro key hkey v hv
    rw [foundPair, (hfound key hkey v).mpr hv, Option.getD_some]
  constructor
  · rintro ⟨hall, -, hsame⟩
    refine ⟨fun key hkey => ?_, fun key hkey key' hkey' hlower v v' hv hv' => ?_⟩
    · obtain ⟨v, hv⟩ := Option.ne_none_iff_exists'.mp (hall key hkey)
      exact exists_firstReceived_iff.mp ⟨v, (hfound key hkey v).mp hv⟩
    · have hmem : foundPair conv headers key ∈ inHeaders.map (foundPair conv headers) :=
        List.mem_map_of_mem hkey
      obtain ⟨p, hp, hpkey⟩ := KeyedMap.exists_isLast FString.lower hmem
      rw [← hsame key hkey v hv p hp hpkey]
      exact hsame key' hkey' v' hv' p hp (hpkey.trans hlower)
  · rintro ⟨hreceived, hsame⟩
    have hvalue : ∀ key ∈ inHeaders, ∃ v, FirstReceived headers key v := fun key hkey =>
      exists_firstReceived_iff.mpr (hreceived key hkey)
    refine ⟨fun key hkey => ?_, fun p hp => ?_, fun key hkey v hv p hp hlower => ?_⟩
    · obtain ⟨v, hv⟩ := hvalue key hkey
      rw [(hfound key hkey v).mpr hv]
      exact Option.some_ne_none v
    · obtain ⟨key, hkey, rfl⟩ := List.mem_map.mp hp.mem
      obtain ⟨v, hv⟩ := hvalue key hkey
      rw [hpair key hkey v hv]
      exact ⟨v, hv, rfl⟩
    · obtain ⟨key', hkey', rfl⟩ := List.mem_map.mp hp.mem
      obtain ⟨v', hv'⟩ := hvalue key' hkey'
      rw [hpair key' hkey' v' hv'] at hlower ⊢
      exact hsame key' hkey' key hkey hlower v' v hv' hv

/-- **Reading custom headers.** One key is read as asked exactly when the library finds
the received value for it, and a list of keys exactly when it does so for all of
them. For keys that are texts without NUL this means that the header, and in the
list every header, was received, and that keys of the list which differ only in case
were received with the same value. -/
theorem customHeaders_read_iff (headers : List CustomHeader) (params : FLwsParams)
    (hreason : params.reason = .lwsCallbackHttp ∨ params.reason = .lwsCallbackHttpBody) :
    (∀ value key, ReadsCustom conv headers key value
        (getCustomHeader conv headers params value key) ↔ FoundAsReceived conv headers key) ∧
    (∀ inHeaders outHeaders, ReadsAllCustom conv headers inHeaders
        (getAllCustomHeaders conv headers params inHeaders outHeaders) ↔
      AllFoundAsReceived conv headers inHeaders) ∧
    (∀ t, '\x00' ∉ t →
      (FoundAsReceived conv headers (utf16 t) ↔ ∃ a ∈ headers, a.Named (utf16 t))) ∧
    ∀ inHeaders, (∀ key ∈ inHeaders, ∃ t, key = utf16 t ∧ '\x00' ∉ t) →
      (AllFoundAsReceived conv headers inHeaders ↔
        (∀ key ∈ inHeaders, ∃ a ∈ headers, a.Named key) ∧
          ∀ key ∈ inHeaders, ∀ key' ∈ inHeaders, key.lower = key'.lower →
            ∀ v v', FirstReceived headers key v → FirstReceived headers key' v' →
              v.map conv.widen = v'.map conv.widen) := by
  refine ⟨fun value key => ?_, fun inHeaders outHeaders => ?_, fun t h => ?_,
    fun inHeaders htext => ?_⟩
  · exact readsCustom_iff_found conv headers value key hreason
  · exact readsAllCustom_iff_found conv headers inHeaders outHeaders hreason
  · exact foundAsReceived_utf16_iff conv h
  · exact allFoundAsReceived_utf16_iff conv htext

/-- The header `x-id: 7` as it is stored. -/
def idHeader : CustomHeader := ⟨ascii "x-id:", ascii "7"⟩

/-- A received header is read under its key, and in a list of keys. -/
theorem received_id_read :
    ReadsCustom .latin1 [idHeader] (text "x-id") []
        (getCustomHeader .latin1 [idHeader] ⟨1, none, 0, .lwsCallbackHttp, 0⟩ [] (text "x-id")) ∧
      ReadsAllCustom .latin1 [idHeader] [text "x-id"]
        (getAllCustomHeaders .latin1 [idHeader] ⟨1, none, 0, .lwsCallbackHttp, 0⟩ [text "x-id"]
          .empty) := by
  have hnul : '\x00' ∉ "x-id".toList := by decide
  have hreceived : ∃ a ∈ [idHeader], a.Named (text "x-id") :=
    ⟨idHeader, by simp, ascii "x-id", ⟨"x-id".toList, rfl, rfl⟩, by decide⟩
  obtain ⟨hone, hall, hfound, hfoundAll⟩ := customHeaders_read_iff .latin1 [idHeader]
    ⟨1, none, 0, .lwsCallbackHttp, 0⟩ (Or.inl rfl)
  refine ⟨(hone [] (text "x-id")).mpr ((hfound _ hnul).mpr hreceived), (hall _ _).mpr ?_⟩
  have htext : ∀ key ∈ [text "x-id"], ∃ t, key = utf16 t ∧ '\x00' ∉ t := by
    intro key hkey
    exact ⟨"x-id".toList, List.mem_singleton.mp hkey, hnul⟩
  refine (hfoundAll _ htext).mpr ⟨?_, ?_⟩
  · intro key hkey
    rw [List.mem_singleton.mp hkey]
    exact hreceived
  · intro key hkey key' hkey' _ v v' hv hv'
    rw [List.mem_singleton] at hkey hkey'
    subst hkey hkey'
    rw [hv.unique hv']

/-- A header that was not received aborts the getter, and a list with its name as well. -/
theorem missing_header_not_read :
    ¬ReadsCustom .latin1 [idHeader] (text "x-name") []
        (getCustomHeader .latin1 [idHeader] ⟨1, none, 0, .lwsCallbackHttp, 0⟩ []
          (text "x-name")) ∧
      ¬ReadsAllCustom .latin1 [idHeader] [text "x-name", text "x-id"]
        (getAllCustomHeaders .latin1 [idHeader] ⟨1, none, 0, .lwsCallbackHttp, 0⟩
          [text "x-name", text "x-id"] .empty) := by
  have hmissing : customValue [idHeader] (nameBytes (text "x-name")) = none := by decide
  rw [readsCustom_iff_found .latin1 _ _ _ (Or.inl rfl),
    readsAllCustom_iff_found .latin1 _ _ _ (Or.inl rfl)]
  constructor
  · rintro ⟨v, _, hv, -⟩
    rw [hmissing] at hv
    cases hv
  · rintro ⟨hfound, -, -⟩
    exact hfound (text "x-name") (by simp) hmissing

end HttpLws
