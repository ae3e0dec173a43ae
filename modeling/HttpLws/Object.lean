import HttpLws.Libwebsockets

/-!
# Reading a request

`ULwsObject` is the base of requests and infos. Its getters read what the library
has stored about the request of `Params.wsi`: a value for each header token, the
URL arguments among them.
-/

namespace HttpLws

/-- The header values stored for a request; an absent header is empty. -/
abbrev HeaderTable := LwsTokenIndexes → List UInt8

/-- `lws_hdr_total_length` -/
def lwsHdrTotalLength (headers : HeaderTable) (h : LwsTokenIndexes) : ℕ := (headers h).length

/-- `lws_hdr_copy` into a buffer of `len` bytes: the bytes that are filled in, and
the return value. The value must leave room for its terminator. -/
def lwsHdrCopy (headers : HeaderTable) (len : ℕ) (h : LwsTokenIndexes) : List UInt8 × ℤ :=
  if (headers h).length < len then (headers h ++ [0], (headers h).length) else ([], -1)

/-- What a call of a getter leaves behind. -/
structure GetResult (α : Type) where
  /-- The return value. -/
  result : Bool
  /-- The out parameter. -/
  out : α
  /-- The library calls made on `Params.wsi`. -/
  calls : List LwsCall

/-- One pair of `ArgumentPairs` in the loop of `GetAllUrlParameters`; 61 is the
equals sign. -/
def addPair (tempParams : FStringMap FString) (eachPair : FString) : FStringMap FString :=
  match eachPair.parseIntoArray 61 with
  | [name, value] => tempParams.add name value
  | _ => tempParams

/-- `ULwsObject::GetAllUrlParameters` on an object with the given `Params`; 38 is
the ampersand. -/
def getAllUrlParameters (conv : AnsiConversion) (headers : HeaderTable) (params : FLwsParams)
    (outParams : FStringMap FString) : Option (GetResult (FStringMap FString)) :=
  if params.reason ≠ .lwsCallbackHttp ∧ params.reason ≠ .lwsCallbackHttpBody then
    some ⟨false, outParams, []⟩
  else
    let argumentLenght := lwsHdrTotalLength headers .wsiTokenHttpUriArgs
    if argumentLenght = 0 then some ⟨false, outParams, [.query .lwsHdrTotalLength]⟩
    else
      let argument := lwsHdrCopy headers (argumentLenght + 1) .wsiTokenHttpUriArgs
      let calls := [.query .lwsHdrTotalLength, .query .lwsHdrCopy]
      if argument.2 = 0 then some ⟨false, outParams, calls⟩
      else
        (FString.appendChars conv [] argument.1 argument.2).map fun argumentString =>
          let argumentPairs := argumentString.parseIntoArray 38
          ⟨true, argumentPairs.foldl addPair .empty, calls⟩

/-- The getters do not turn away an object made for a request or for its body. -/
theorem not_turned_away {params : FLwsParams}
    (hreason : params.reason = .lwsCallbackHttp ∨ params.reason = .lwsCallbackHttpBody) :
    ¬(params.reason ≠ .lwsCallbackHttp ∧ params.reason ≠ .lwsCallbackHttpBody) := by
  rintro ⟨hrequest, hbody⟩
  rcases hreason with h | h
  · exact hrequest h
  · exact hbody h

/-- The pair that one piece of the query string contributes. -/
def pairOf (eachPair : FString) : Option (FString × FString) :=
  match eachPair.parseIntoArray 61 with
  | [name, value] => some (name, value)
  | _ => none

/-- The loop adds the contributed pairs in order. -/
theorem foldl_addPair (pieces : List FString) (m : FStringMap FString) :
    pieces.foldl addPair m = m.addAll (pieces.filterMap pairOf) := by
  induction pieces generalizing m with
  | nil => simp [KeyedMap.addAll]
  | cons piece pieces ih =>
    have hadd : addPair m piece = m.addAll (pairOf piece).toList := by
      unfold addPair pairOf
      split <;> simp [KeyedMap.addAll]
    have hsplit : (piece :: pieces).filterMap pairOf =
        (pairOf piece).toList ++ pieces.filterMap pairOf := by
      cases hpair : pairOf piece <;> simp [hpair]
    rw [List.foldl_cons, ih, hadd, hsplit, KeyedMap.addAll, KeyedMap.addAll, KeyedMap.addAll,
      List.foldl_append]

/-- `GetAllUrlParameters` on stored arguments: the whole stored string is widened,
split, and its pairs are added to an empty map. -/
theorem getAllUrlParameters_eq (conv : AnsiConversion) {headers : HeaderTable}
    {params : FLwsParams} (outParams : FStringMap FString)
    (hreason : params.reason = .lwsCallbackHttp ∨ params.reason = .lwsCallbackHttpBody)
    (hstored : headers .wsiTokenHttpUriArgs ≠ []) :
    getAllUrlParameters conv headers params outParams =
      some ⟨true, KeyedMap.empty.addAll
          ((FString.parseIntoArray ((headers .wsiTokenHttpUriArgs).map conv.widen) 38).filterMap
            pairOf),
        [.query .lwsHdrTotalLength, .query .lwsHdrCopy]⟩ := by
  have hlen : (headers .wsiTokenHttpUriArgs).length ≠ 0 := by
    simpa [List.length_eq_zero_iff] using hstored
  have hcopy : lwsHdrCopy headers ((headers .wsiTokenHttpUriArgs).length + 1)
      .wsiTokenHttpUriArgs =
      (headers .wsiTokenHttpUriArgs ++ [0], ((headers .wsiTokenHttpUriArgs).length : ℤ)) := by
    rw [lwsHdrCopy, if_pos (Nat.lt_succ_self _)]
  have hcopied : ((headers .wsiTokenHttpUriArgs).length : ℤ) ≠ 0 := by exact_mod_cast hlen
  simp only [getAllUrlParameters, if_neg (not_turned_away hreason), lwsHdrTotalLength, hcopy,
    if_neg hlen, if_neg hcopied, appendChars_append, foldl_addPair, Option.map_some,
    List.nil_append]

end HttpLws
