import HttpLws.Getters

/-!
# Reading known headers

Three readers look into one table of headers: by the Blueprint enumeration, by the
number of a token, and all of it at once. The list is exact. The enumeration is not
translated at all, and the number is not checked against the size of the table, so the
three readers never agree.
-/

namespace HttpLws

variable (conv : AnsiConversion) (lws : Lws) (headers : HeaderTable) (stray : ℤ → List UInt8)

/-- The name of a token as a string. -/
def tokenName (token : LwsTokenIndexes) : FString :=
  ((lws.lwsTokenToString token).takeWhile (· ≠ 0)).map conv.widen

/-- The entry that the loop makes for a number with a stored value. -/
def storedEntry (i : ℕ) : Option (FString × FLwsKnownHeaders) :=
  if headerAt headers stray i = [] then none
  else some (tokenName conv lws (.ofNat i),
    ⟨(headerAt headers stray i).map conv.widen, i, convertBpHeader (.ofNat i)⟩)

/-- What reading the whole table has to leave behind: a map with exactly one entry for
each number with a stored value. -/
structure ListsHeaders (params : FLwsParams)
    (r : Option (GetResult (FStringMap FLwsKnownHeaders))) : Prop where
  /-- The getter succeeds. -/
  succeeds : ∃ g, r = some g ∧ g.result = true
  /-- A number with a value has one entry, under the name of its token. -/
  complete : ∀ g, r = some g → ∀ i < wsiTokenCount, headers (.ofNat i) ≠ [] →
    (∃! p, p ∈ g.out.pairs ∧ p.2.index = i) ∧
      ∀ p ∈ g.out.pairs, p.2.index = i → p.1 = tokenName conv lws (.ofNat i) ∧
        ∀ value, ∃ calls,
          getKnownHeaderInt conv headers stray params value i = some ⟨true, p.2.string, calls⟩
  /-- There are no other entries. -/
  exact : ∀ g, r = some g → ∀ p ∈ g.out.pairs,
    ∃ i < wsiTokenCount, headers (.ofNat i) ≠ [] ∧ p.2.index = i
  /-- A number without a value is not read. -/
  missing : ∀ i < wsiTokenCount, headers (.ofNat i) = [] → ∀ value, ∃ calls,
    getKnownHeaderInt conv headers stray params value i = some ⟨false, value, calls⟩

/-- Every token has a number in the table. -/
theorem ctorIdx_lt (token : LwsTokenIndexes) : token.ctorIdx < wsiTokenCount := by
  cases token <;> decide

/-- Every number in the table is that of its token. -/
theorem ctorIdx_ofNat {i : ℕ} (h : i < wsiTokenCount) : (LwsTokenIndexes.ofNat i).ctorIdx = i := by
  have hall : ∀ j < wsiTokenCount, (LwsTokenIndexes.ofNat j).ctorIdx = j := by decide +kernel
  exact hall i h

/-- What is found under a number in the table. -/
theorem headerAt_of_lt {i : ℕ} (h : i < wsiTokenCount) :
    headerAt headers stray i = headers (.ofNat i) := by
  have hin : (0 : ℤ) ≤ i ∧ (i : ℤ) < wsiTokenCount := by omega
  rw [headerAt, tokenAt, if_pos hin]
  rfl

/-- What is found under the number of a token. -/
theorem headerAt_ctorIdx (token : LwsTokenIndexes) :
    headerAt headers stray token.ctorIdx = headers token := by
  rw [headerAt_of_lt headers stray (ctorIdx_lt token), LwsTokenIndexes.ofNat_ctorIdx]

/-- Reading one value: an empty one counts as a failure, another one is widened. -/
theorem readKnownHeader_eq {params : FLwsParams} (value : FString) (token : ℤ)
    (hreason : params.reason = .lwsCallbackHttp ∨ params.reason = .lwsCallbackHttpBody) :
    readKnownHeader conv headers stray params value token =
      if headerAt headers stray token = [] then some ⟨false, value, [.query .lwsHdrTotalLength]⟩
      else some ⟨true, (headerAt headers stray token).map conv.widen,
        [.query .lwsHdrTotalLength, .query .lwsHdrCopy]⟩ := by
  rw [readKnownHeader, if_neg (not_turned_away hreason)]
  dsimp only [lwsHdrTotalLengthAt, lwsHdrCopyAt]
  by_cases hempty : headerAt headers stray token = []
  · simp [hempty]
  · have hlen : (headerAt headers stray token).length > 0 := List.length_pos_iff.mpr hempty
    rw [if_neg hempty, if_pos hlen, if_pos (Nat.lt_succ_self _)]
    simp [appendChars_append]

/-- One step of the loop over the table adds the entry of its number. -/
theorem addStoredHeader_eq (temp : FStringMap FLwsKnownHeaders × List LwsCall) (i : ℕ) :
    ∃ calls, addStoredHeader conv lws headers stray temp i =
      some (temp.1.addAll (storedEntry conv lws headers stray i).toList, calls) := by
  unfold addStoredHeader storedEntry
  dsimp only [lwsHdrTotalLengthAt, lwsHdrCopyAt]
  by_cases hempty : headerAt headers stray i = []
  · exact ⟨temp.2 ++ [.query .lwsHdrTotalLength], by simp [hempty, KeyedMap.addAll]⟩
  · have hlen : (headerAt headers stray i).length > 0 := List.length_pos_iff.mpr hempty
    refine ⟨temp.2 ++ [.query .lwsHdrTotalLength, .query .lwsHdrCopy], ?_⟩
    have hname := appendChars_append conv []
      ((lws.lwsTokenToString (.ofNat i)).takeWhile (· ≠ 0)) []
    rw [List.append_nil, List.nil_append] at hname
    rw [if_neg hempty, if_pos hlen, if_pos (Nat.lt_succ_self _), hname]
    simp [appendChars_append, KeyedMap.addAll, tokenName]

/-- The loop adds the entries of all numbers. -/
theorem foldlM_addStoredHeader_eq (is : List ℕ)
    (temp : FStringMap FLwsKnownHeaders × List LwsCall) :
    ∃ calls, is.foldlM (addStoredHeader conv lws headers stray) temp =
      some (temp.1.addAll (is.filterMap (storedEntry conv lws headers stray)), calls) := by
  induction is generalizing temp with
  | nil => exact ⟨temp.2, rfl⟩
  | cons i is ih =>
    obtain ⟨calls, hstep⟩ := addStoredHeader_eq conv lws headers stray temp i
    obtain ⟨calls', hrest⟩ :=
      ih (temp.1.addAll (storedEntry conv lws headers stray i).toList, calls)
    refine ⟨calls', ?_⟩
    have hsplit : (i :: is).filterMap (storedEntry conv lws headers stray) =
        (storedEntry conv lws headers stray i).toList ++
          is.filterMap (storedEntry conv lws headers stray) := by
      cases hentry : storedEntry conv lws headers stray i <;> simp [hentry]
    rw [List.foldlM_cons, hstep, Option.bind_eq_bind, Option.bind_some, hrest, hsplit,
      KeyedMap.addAll, KeyedMap.addAll, KeyedMap.addAll, List.foldl_append]

/-- `GetAllKnownHeaders` succeeds with the entries of the whole table, in a new map. -/
theorem getAllKnownHeaders_eq {params : FLwsParams} (outHeaders : FStringMap FLwsKnownHeaders)
    (hreason : params.reason = .lwsCallbackHttp ∨ params.reason = .lwsCallbackHttpBody) :
    ∃ calls, getAllKnownHeaders conv lws headers stray params outHeaders =
      some ⟨true, KeyedMap.empty.addAll
        ((List.range wsiTokenCount).filterMap (storedEntry conv lws headers stray)), calls⟩ := by
  obtain ⟨calls, hloop⟩ := foldlM_addStoredHeader_eq conv lws headers stray
    (List.range wsiTokenCount) (.empty, [])
  refine ⟨calls, ?_⟩
  rw [getAllKnownHeaders, if_neg (not_turned_away hreason), hloop, Option.map_some]

/-- The entries are those of the numbers in the table that have a value. -/
theorem mem_storedEntries_iff {p : FString × FLwsKnownHeaders} :
    p ∈ (List.range wsiTokenCount).filterMap (storedEntry conv lws headers stray) ↔
      ∃ i < wsiTokenCount, headers (.ofNat i) ≠ [] ∧
        p = (tokenName conv lws (.ofNat i),
          ⟨(headers (.ofNat i)).map conv.widen, i, convertBpHeader (.ofNat i)⟩) := by
  rw [List.mem_filterMap]
  constructor
  · rintro ⟨i, hi, hentry⟩
    have hlt := List.mem_range.mp hi
    rw [storedEntry, headerAt_of_lt headers stray hlt] at hentry
    split_ifs at hentry with hempty
    exact ⟨i, hlt, hempty, (Option.some.inj hentry).symm⟩
  · rintro ⟨i, hlt, hvalue, rfl⟩
    refine ⟨i, List.mem_range.mpr hlt, ?_⟩
    rw [storedEntry, headerAt_of_lt headers stray hlt, if_neg hvalue]

/-- When the stored tokens have different names, the entries have different keys. -/
theorem pairwise_storedEntries
    (hnames : ∀ s t, headers s ≠ [] → headers t ≠ [] →
      (tokenName conv lws s).lower = (tokenName conv lws t).lower → s = t) :
    ((List.range wsiTokenCount).filterMap (storedEntry conv lws headers stray)).Pairwise
      fun p q => FString.lower p.1 ≠ FString.lower q.1 := by
  rw [List.pairwise_filterMap]
  refine (List.nodup_iff_pairwise_ne.mp List.nodup_range).imp_of_mem ?_
  intro i j hi hj hne p hp q hq heq
  rw [List.mem_range] at hi hj
  rw [storedEntry, headerAt_of_lt headers stray hi] at hp
  rw [storedEntry, headerAt_of_lt headers stray hj] at hq
  split_ifs at hp with hempty
  split_ifs at hq with hempty'
  obtain rfl := Option.some.inj hp
  obtain rfl := Option.some.inj hq
  have hnumber := congrArg LwsTokenIndexes.ctorIdx (hnames _ _ hempty hempty' heq)
  rw [ctorIdx_ofNat hi, ctorIdx_ofNat hj] at hnumber
  exact hne hnumber

/-- When the stored tokens have different names, the map has an entry for each number
with a value, and no other. -/
theorem mem_getAllKnownHeaders_iff {params : FLwsParams} (outHeaders : FStringMap FLwsKnownHeaders)
    (hreason : params.reason = .lwsCallbackHttp ∨ params.reason = .lwsCallbackHttpBody)
    (hnames : ∀ s t, headers s ≠ [] → headers t ≠ [] →
      (tokenName conv lws s).lower = (tokenName conv lws t).lower → s = t) :
    ∃ g, getAllKnownHeaders conv lws headers stray params outHeaders = some g ∧
      g.result = true ∧ ∀ p, p ∈ g.out.pairs ↔ ∃ i < wsiTokenCount, headers (.ofNat i) ≠ [] ∧
        p = (tokenName conv lws (.ofNat i),
          ⟨(headers (.ofNat i)).map conv.widen, i, convertBpHeader (.ofNat i)⟩) := by
  obtain ⟨calls, heq⟩ := getAllKnownHeaders_eq conv lws headers stray outHeaders hreason
  refine ⟨_, heq, rfl, fun p => ?_⟩
  rw [KeyedMap.mem_addAll_empty_iff,
    KeyedMap.isLast_iff_mem (pairwise_storedEntries conv lws headers stray hnames),
    mem_storedEntries_iff]

/-- **Reading the whole table.** When the stored tokens have names that differ without
regard to case, `GetAllKnownHeaders` lists exactly the stored values, each under its
token's name and with its number, as `GetKnownHeader_Int` reads them. -/
theorem getAllKnownHeaders_lists (params : FLwsParams)
    (outHeaders : FStringMap FLwsKnownHeaders)
    (hreason : params.reason = .lwsCallbackHttp ∨ params.reason = .lwsCallbackHttpBody)
    (hnames : ∀ s t, headers s ≠ [] → headers t ≠ [] →
      (tokenName conv lws s).lower = (tokenName conv lws t).lower → s = t) :
    ListsHeaders conv lws headers stray params
      (getAllKnownHeaders conv lws headers stray params outHeaders) := by
  obtain ⟨g, hg, hresult, hmem⟩ :=
    mem_getAllKnownHeaders_iff conv lws headers stray outHeaders hreason hnames
  have hown : ∀ p ∈ g.out.pairs, ∀ i : ℕ, p.2.index = i → p = (tokenName conv lws (.ofNat i),
      ⟨(headers (.ofNat i)).map conv.widen, i, convertBpHeader (.ofNat i)⟩) := by
    intro p hp i hindex
    obtain ⟨j, -, -, rfl⟩ := (hmem p).mp hp
    have hnumber : (j : ℤ) = i := hindex
    obtain rfl : j = i := by omega
    rfl
  rw [hg]
  refine ⟨⟨g, rfl, hresult⟩, ?_, ?_, ?_⟩
  · intro g' hg' i hi hvalue
    obtain rfl := Option.some.inj hg'
    refine ⟨⟨_, ⟨(hmem _).mpr ⟨i, hi, hvalue, rfl⟩, rfl⟩, fun q hq => hown q hq.1 i hq.2⟩, ?_⟩
    intro p hp hindex
    rw [hown p hp i hindex]
    refine ⟨rfl, fun value => ⟨[.query .lwsHdrTotalLength, .query .lwsHdrCopy], ?_⟩⟩
    rw [getKnownHeaderInt, readKnownHeader_eq conv headers stray value i hreason,
      headerAt_of_lt headers stray hi, if_neg hvalue]
  · intro g' hg' p hp
    obtain rfl := Option.some.inj hg'
    obtain ⟨i, hi, hvalue, rfl⟩ := (hmem p).mp hp
    exact ⟨i, hi, hvalue, rfl⟩
  · intro i hi hempty value
    refine ⟨[.query .lwsHdrTotalLength], ?_⟩
    rw [getKnownHeaderInt, readKnownHeader_eq conv headers stray value i hreason,
      headerAt_of_lt headers stray hi, if_pos hempty]

/-- A table with the URI and the user agent of a request. -/
def agentTable : HeaderTable
  | .wsiTokenGetUri => ascii "/api"
  | .wsiTokenHttpUserAgent => ascii "curl"
  | _ => []

/-- A library that names these tokens. -/
def agentLws : Lws :=
  { Lws.plain with
    lwsTokenToString := fun t =>
      if t = .wsiTokenGetUri then ascii "get " else Lws.plain.lwsTokenToString t
    tokenStrings := by decide }

/-- The URI and the user agent of a request are listed. -/
theorem uri_and_agent_listed :
    ListsHeaders .latin1 agentLws agentTable (fun _ => []) ⟨1, none, 0, .lwsCallbackHttp, 0⟩
      (getAllKnownHeaders .latin1 agentLws agentTable (fun _ => [])
        ⟨1, none, 0, .lwsCallbackHttp, 0⟩ .empty) := by
  refine getAllKnownHeaders_lists .latin1 agentLws agentTable (fun _ => []) _ _ (Or.inl rfl) ?_
  have hstored : ∀ t, agentTable t ≠ [] → t = .wsiTokenGetUri ∨ t = .wsiTokenHttpUserAgent := by
    intro t ht
    cases t with
    | wsiTokenGetUri => exact Or.inl rfl
    | wsiTokenHttpUserAgent => exact Or.inr rfl
    | _ => exact absurd rfl ht
  intro s t hs ht heq
  rcases hstored s hs with rfl | rfl
  · rcases hstored t ht with rfl | rfl
    · rfl
    · exact absurd heq (by decide)
  · rcases hstored t ht with rfl | rfl
    · exact absurd heq (by decide)
    · rfl

/-- The agreement of the three readers: the enumeration reads the token that responses
use for it, listed entries of that token carry the enumeration's value, and a number
outside the table is refused without asking the library. -/
structure ReadersAgree (params : FLwsParams) : Prop where
  /-- By the enumeration and by the number of its token, status and value are the same. -/
  values : ∀ k ≠ ELwsKnownHeaders.none, ∀ value,
    (getKnownHeaderEnum conv headers stray params value k).map (fun g => (g.result, g.out)) =
      (getKnownHeaderInt conv headers stray params value (bpHeadersToLws k).ctorIdx).map
        fun g => (g.result, g.out)
  /-- The entry of the token has the enumeration's value. -/
  tags : ∀ k ≠ ELwsKnownHeaders.none, ∀ outHeaders g,
    getAllKnownHeaders conv lws headers stray params outHeaders = some g →
      ∀ p ∈ g.out.pairs, p.2.index = (bpHeadersToLws k).ctorIdx → p.2.headerEnum = k
  /-- A number outside the table is refused. -/
  range : ∀ key : ℤ, -2 ^ 31 ≤ key → key < 2 ^ 31 → (key < 0 ∨ wsiTokenCount ≤ key) →
    ∀ value, ∃ g, getKnownHeaderInt conv headers stray params value key = some g ∧
      g.result = false ∧ g.calls = []

/-- Every number is passed on to the library. -/
theorem getKnownHeaderInt_asks {params : FLwsParams} (value : FString) (key : ℤ)
    (hreason : params.reason = .lwsCallbackHttp ∨ params.reason = .lwsCallbackHttpBody) :
    ∃ g, getKnownHeaderInt conv headers stray params value key = some g ∧ g.calls ≠ [] := by
  rw [getKnownHeaderInt, readKnownHeader_eq conv headers stray value key hreason]
  split_ifs
  · exact ⟨_, rfl, List.cons_ne_nil _ _⟩
  · exact ⟨_, rfl, List.cons_ne_nil _ _⟩

/-- Every listed entry has the tag `NONE`. -/
theorem headerEnum_of_mem {params : FLwsParams} {outHeaders : FStringMap FLwsKnownHeaders}
    {g : GetResult (FStringMap FLwsKnownHeaders)}
    (hreason : params.reason = .lwsCallbackHttp ∨ params.reason = .lwsCallbackHttpBody)
    (hg : getAllKnownHeaders conv lws headers stray params outHeaders = some g)
    {p : FString × FLwsKnownHeaders} (hp : p ∈ g.out.pairs) : p.2.headerEnum = .none := by
  obtain ⟨calls, heq⟩ := getAllKnownHeaders_eq conv lws headers stray outHeaders hreason
  rw [heq] at hg
  obtain rfl := Option.some.inj hg
  have hentry := (KeyedMap.mem_addAll_empty_iff.mp hp).mem
  obtain ⟨i, -, -, rfl⟩ := (mem_storedEntries_iff conv lws headers stray).mp hentry
  rfl

/-- The enumeration always reads the URI of a GET request. -/
theorem values_agree_iff {params : FLwsParams} (k : ELwsKnownHeaders)
    (hreason : params.reason = .lwsCallbackHttp ∨ params.reason = .lwsCallbackHttpBody) :
    (∀ value,
      (getKnownHeaderEnum conv headers stray params value k).map (fun g => (g.result, g.out)) =
        (getKnownHeaderInt conv headers stray params value (bpHeadersToLws k).ctorIdx).map
          fun g => (g.result, g.out)) ↔
      (headers .wsiTokenGetUri).map conv.widen = (headers (bpHeadersToLws k)).map conv.widen := by
  simp only [getKnownHeaderEnum, getKnownHeaderInt, convertLwsHeader,
    readKnownHeader_eq conv headers stray _ _ hreason, headerAt_ctorIdx]
  by_cases huri : headers .wsiTokenGetUri = []
  · by_cases hvalue : headers (bpHeadersToLws k) = []
    · simp [huri, hvalue]
    · simp [huri, hvalue]
  · by_cases hvalue : headers (bpHeadersToLws k) = []
    · simp [huri, hvalue]
    · simp [huri, hvalue]

/-- **The three readers never agree.** In no table are numbers outside of it refused,
since every number is passed on to the library. Moreover the enumeration agrees with
the number of its token only where the token's value is the URI of a GET request,
and all listed entries have the tag `NONE`. -/
theorem known_readers_never_agree (params : FLwsParams)
    (hreason : params.reason = .lwsCallbackHttp ∨ params.reason = .lwsCallbackHttpBody) :
    ¬ReadersAgree conv lws headers stray params ∧
      (∀ value key, ∃ g, getKnownHeaderInt conv headers stray params value key = some g ∧
        g.calls ≠ []) ∧
      (∀ k, (∀ value,
        (getKnownHeaderEnum conv headers stray params value k).map (fun g => (g.result, g.out)) =
          (getKnownHeaderInt conv headers stray params value (bpHeadersToLws k).ctorIdx).map
            fun g => (g.result, g.out)) ↔
        (headers .wsiTokenGetUri).map conv.widen =
          (headers (bpHeadersToLws k)).map conv.widen) ∧
      ∀ outHeaders g, getAllKnownHeaders conv lws headers stray params outHeaders = some g →
        ∀ p ∈ g.out.pairs, p.2.headerEnum = .none := by
  refine ⟨fun hagree => ?_, fun value key => ?_, fun k => ?_, fun outHeaders g hg p hp => ?_⟩
  · obtain ⟨g, hg, -, hcalls⟩ :=
      hagree.range (-1) (by omega) (by omega) (Or.inl (by omega)) []
    obtain ⟨g', hg', hasked⟩ := getKnownHeaderInt_asks conv headers stray [] (-1) hreason
    rw [hg, Option.some.injEq] at hg'
    exact hasked (hg' ▸ hcalls)
  · exact getKnownHeaderInt_asks conv headers stray value key hreason
  · exact values_agree_iff conv headers stray k hreason
  · exact headerEnum_of_mem conv lws headers stray hreason hg hp

/-- An empty table. -/
theorem empty_table_readers_disagree :
    ¬ReadersAgree .latin1 Lws.plain (fun _ => []) (fun _ => [])
      ⟨1, none, 0, .lwsCallbackHttp, 0⟩ :=
  (known_readers_never_agree .latin1 Lws.plain (fun _ => []) (fun _ => []) _ (Or.inl rfl)).1

/-- With the user agent `curl` in the table, asking for it by the enumeration gives the
URI, and asking for number -1 asks the library. -/
theorem agent_readers_disagree :
    (getKnownHeaderEnum .latin1 agentTable (fun _ => []) ⟨1, none, 0, .lwsCallbackHttp, 0⟩ []
        .lwsHeaderUserAgent).map GetResult.out = some (text "/api") ∧
      (getKnownHeaderInt .latin1 agentTable (fun _ => []) ⟨1, none, 0, .lwsCallbackHttp, 0⟩ []
        (bpHeadersToLws .lwsHeaderUserAgent).ctorIdx).map GetResult.out = some (text "curl") ∧
      (getKnownHeaderInt .latin1 agentTable (fun _ => []) ⟨1, none, 0, .lwsCallbackHttp, 0⟩ []
        (-1)).map GetResult.calls = some [.query .lwsHdrTotalLength] ∧
      ¬ReadersAgree .latin1 agentLws agentTable (fun _ => [])
        ⟨1, none, 0, .lwsCallbackHttp, 0⟩ := by
  refine ⟨by decide, by decide, by decide, fun hagree => ?_⟩
  have hvalues := hagree.values .lwsHeaderUserAgent (by decide) []
  exact absurd hvalues (by decide)

end HttpLws
