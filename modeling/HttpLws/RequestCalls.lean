import HttpLws.Request

/-!
# The library calls of `SendResponse`

The header calls of a response are one list, fixed by its arguments. Running the
list through the buffer gives the block of the first write and the result of
every call; the two writes and the default handler follow in every case.
-/

namespace HttpLws

variable (lws : Lws)

/-- The buffers and lengths written with a protocol. -/
def writes (protocol : LwsWriteProtocol) (calls : List LwsCall) : List (List UInt8 × ℕ) :=
  calls.filterMap fun
    | .write buffer len p => if p = protocol then some (buffer, len) else none
    | _ => none

/-- The name bytes that reach the buffer for a custom key. -/
def nameBytes (key : FString) : List UInt8 :=
  (tcharToUtf8 (key ++ colon)).takeWhile (· ≠ 0)

/-- The header call for a custom header, when its value is not empty. -/
def customHeaderCall (h : FString × FString) : Option HeaderCall :=
  if h.2.len > 0 then
    some (.lwsAddHttpHeaderByName (tcharToUtf8 (h.1 ++ colon)) (tcharToUtf8 h.2) h.2.len)
  else none

/-- The header call for a known header, when its value is not empty. -/
def knownHeaderCall (h : ELwsKnownHeaders × FString) : Option HeaderCall :=
  if h.2.len > 0 then
    some (.lwsAddHttpHeaderByToken (bpHeadersToLws h.1) (tcharToUtf8 h.2) h.2.len)
  else none

/-- The header calls of a response in the order in which they are made. -/
def headerCalls (args : ResponseArgs) : List HeaderCall :=
  [.lwsAddHttpHeaderStatus httpStatusOk,
    .lwsAddHttpHeaderByToken .wsiTokenHttpAccessControlAllowOrigin (ascii "*" ++ [0]) 1,
    .lwsAddHttpHeaderByToken .wsiTokenHttpContentType
      ((contentTypeString args.inType).text ++ [0]) (contentTypeString args.inType).lenght,
    .lwsAddHttpHeaderContentLength args.inResponse.len] ++
    args.inCustomHeaders.pairs.filterMap customHeaderCall ++
    args.inKnownHeaders.pairs.filterMap knownHeaderCall ++ [.lwsFinalizeHttpHeader]

/-- The header lines of a response. -/
def headerLines (args : ResponseArgs) : List (List UInt8) := (headerCalls args).map lws.line

/-- The header lines run through a buffer that ends at index `endPos`. -/
def emitted (endPos : ℤ) (args : ResponseArgs) : List UInt8 × List Bool :=
  BoundedBuffer.putAll lws.cut (endPos - lwsPre) [] (headerLines lws args)

/-- The literals of the content types have the lengths given with them. -/
theorem contentTypeString_lenght (t : ELwsContentType) :
    (contentTypeString t).lenght = (contentTypeString t).text.length := by
  cases t <;> decide

/-- A sequence of header calls is a run of their lines through the buffer. -/
theorem foldl_add (endPos : ℤ) (calls : List HeaderCall) (e : Emission) :
    calls.foldl (Emission.add lws endPos) e =
      ⟨(BoundedBuffer.putAll lws.cut (endPos - lwsPre) e.block (calls.map lws.line)).1,
        e.calls ++ List.zipWith .header calls
          (BoundedBuffer.putAll lws.cut (endPos - lwsPre) e.block (calls.map lws.line)).2⟩ := by
  induction calls generalizing e with
  | nil => simp [BoundedBuffer.putAll]
  | cons call calls ih =>
    rw [List.foldl_cons, ih]
    simp [Emission.add, BoundedBuffer.putAll]

/-- A loop whose body makes a call for some elements and skips the others is a run of
these calls. -/
theorem foldl_eq_foldl_filterMap {α κ σ : Type} {call : α → Option κ} {make : σ → κ → σ}
    {body : σ → α → σ} (hbody : ∀ s a, body s a = (call a).elim s (make s)) (as : List α)
    (s : σ) : as.foldl body s = (as.filterMap call).foldl make s := by
  rw [List.foldl_filterMap]
  congr 1
  funext s a
  rw [hbody]
  cases call a with
  | none => rfl
  | some made => rfl

/-- The loop over the custom headers makes the calls of the non-empty ones. -/
theorem foldl_addCustomHeader (endPos : ℤ) (hs : List (FString × FString)) (e : Emission) :
    hs.foldl (addCustomHeader lws endPos) e =
      (hs.filterMap customHeaderCall).foldl (Emission.add lws endPos) e := by
  refine foldl_eq_foldl_filterMap (fun e h => ?_) hs e
  by_cases hlen : h.2.len > 0 <;>
    simp [addCustomHeader, customHeaderCall, hlen]

/-- The loop over the known headers makes the calls of the non-empty ones. -/
theorem foldl_addKnownHeader (endPos : ℤ) (hs : List (ELwsKnownHeaders × FString))
    (e : Emission) :
    hs.foldl (addKnownHeader lws endPos) e =
      (hs.filterMap knownHeaderCall).foldl (Emission.add lws endPos) e := by
  refine foldl_eq_foldl_filterMap (fun e h => ?_) hs e
  by_cases hlen : h.2.len > 0 <;>
    simp [addKnownHeader, knownHeaderCall, hlen]

/-- **The calls of a response**: every header call with its result, the block
that was built, the body, and the default handler. -/
theorem sendResponseFrom_calls (self : ULwsRequest) (payloadSize : ℤ) (args : ResponseArgs) :
    (sendResponseFrom lws self payloadSize args).calls =
      List.zipWith .header (headerCalls args) (emitted lws payloadSize args).2 ++
        [.write (emitted lws payloadSize args).1 (emitted lws payloadSize args).1.length
            .lwsWriteHttpHeaders,
          .write (tcharToUtf8 args.inResponse) args.inResponse.len .lwsWriteHttp,
          .callbackHttpDummy self.params.reason] := by
  have hfold : (headerCalls args).foldl (Emission.add lws payloadSize) ⟨[], []⟩ =
      ⟨(emitted lws payloadSize args).1,
        List.zipWith .header (headerCalls args) (emitted lws payloadSize args).2⟩ := by
    rw [foldl_add]
    rfl
  simp only [headerCalls, List.foldl_append, List.foldl_cons, List.foldl_nil] at hfold
  simp only [sendResponseFrom, foldl_addCustomHeader, foldl_addKnownHeader]
  rw [hfold]
  rfl

/-- There is one result for each header call. -/
theorem length_emitted_flags (endPos : ℤ) (args : ResponseArgs) :
    (emitted lws endPos args).2.length = (headerCalls args).length := by
  simp [emitted, headerLines, BoundedBuffer.length_putAll_flags]

/-- The header lines all fit exactly when the room covers their total length. -/
theorem emitted_ok_iff (endPos : ℤ) (args : ResponseArgs) :
    (∀ ok ∈ (emitted lws endPos args).2, ok = true) ↔
      ((headerLines lws args).flatten.length : ℤ) ≤ endPos - lwsPre := by
  have hne : headerLines lws args ≠ [] := by simp [headerLines, headerCalls]
  rw [emitted, BoundedBuffer.putAll_ok_iff hne, List.length_nil]
  simp

/-- Header lines that fit are written whole. -/
theorem emitted_of_fit {endPos : ℤ} {args : ResponseArgs}
    (h : ((headerLines lws args).flatten.length : ℤ) ≤ endPos - lwsPre) :
    emitted lws endPos args =
      ((headerLines lws args).flatten, (headerLines lws args).map fun _ => true) := by
  rw [emitted, BoundedBuffer.putAll_of_le (by simpa using h), List.nil_append]

/-- All recorded header calls succeed exactly when all flags are set. -/
theorem forall_header_iff {calls : List HeaderCall} {flags : List Bool}
    (hlen : flags.length = calls.length) :
    (∀ call ok, LwsCall.header call ok ∈ List.zipWith .header calls flags → ok = true) ↔
      ∀ ok ∈ flags, ok = true := by
  induction calls generalizing flags with
  | nil =>
    obtain rfl := List.length_eq_zero_iff.mp hlen
    simp
  | cons call calls ih =>
    cases flags with
    | nil => simp at hlen
    | cons flag flags =>
      have hrest := ih (by simpa using hlen)
      simp only [List.zipWith_cons_cons, List.mem_cons, LwsCall.header.injEq, forall_eq_or_imp,
        ← hrest]
      constructor
      · intro h
        exact ⟨h call flag (Or.inl ⟨rfl, rfl⟩), fun c ok hmem => h c ok (Or.inr hmem)⟩
      · rintro ⟨hflag, h⟩ c ok (⟨rfl, rfl⟩ | hmem)
        · exact hflag
        · exact h c ok hmem

/-- The header calls among all calls of a response. -/
theorem header_mem_sendResponseFrom_iff (self : ULwsRequest) (payloadSize : ℤ)
    (args : ResponseArgs) (call : HeaderCall) (ok : Bool) :
    LwsCall.header call ok ∈ (sendResponseFrom lws self payloadSize args).calls ↔
      LwsCall.header call ok ∈
        List.zipWith .header (headerCalls args) (emitted lws payloadSize args).2 := by
  simp [sendResponseFrom_calls]

/-- A response writes its block and its body, once each. -/
theorem writes_sendResponseFrom (self : ULwsRequest) (payloadSize : ℤ) (args : ResponseArgs)
    (protocol : LwsWriteProtocol) :
    writes protocol (sendResponseFrom lws self payloadSize args).calls =
      match protocol with
      | .lwsWriteHttpHeaders =>
          [((emitted lws payloadSize args).1, (emitted lws payloadSize args).1.length)]
      | .lwsWriteHttp => [(tcharToUtf8 args.inResponse, args.inResponse.len)] := by
  have hheaders : ∀ (calls : List HeaderCall) (flags : List Bool),
      writes protocol (List.zipWith .header calls flags) = [] := by
    intro calls flags
    refine List.filterMap_eq_nil_iff.mpr fun call hmem => ?_
    obtain ⟨i, _, rfl⟩ := List.mem_iff_getElem.mp hmem
    simp
  rw [sendResponseFrom_calls]
  simp only [writes] at hheaders ⊢
  rw [List.filterMap_append, hheaders]
  cases protocol <;> simp

/-- When the header block fits, it is written whole. -/
theorem writes_of_fit (self : ULwsRequest) {payloadSize : ℤ} {args : ResponseArgs}
    (hfit : ((headerLines lws args).flatten.length : ℤ) ≤ payloadSize - lwsPre) :
    writes .lwsWriteHttpHeaders (sendResponseFrom lws self payloadSize args).calls =
      [((headerLines lws args).flatten, (headerLines lws args).flatten.length)] := by
  rw [writes_sendResponseFrom, emitted_of_fit lws hfit]

end HttpLws
