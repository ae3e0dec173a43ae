import HttpLws.RequestCalls
import Mathlib.Algebra.BigOperators.Group.List.Basic
import Mathlib.Tactic.Ring

/-!
# Does the header block fit its buffer?

`CalculcatePayloadSize` estimates a buffer that `SendResponse` then fills through
a different walk over the same arguments. The two walks are compared line by
line: every line is short by what the estimate forgets, every skipped header
leaves what was counted for it, and the body's length serves as a reserve.
-/

namespace HttpLws

variable (lws : Lws)

/-- What the estimate counts for a custom header. -/
def customCounted (h : FString × FString) : ℕ := FString.len (h.1 ++ colon) + (h.2.len + 2)

/-- What the estimate counts for a known header. -/
def knownCounted (h : ELwsKnownHeaders × FString) : ℕ :=
  (lws.lwsTokenToString (bpHeadersToLws h.1)).length + (h.2.len + 2)

/-- By how many bytes a custom header's line exceeds what was counted for it. A
header with an empty value is counted but not sent. -/
def customShortfall (h : FString × FString) : ℤ :=
  if h.2.len > 0 then (nameBytes h.1).length - h.1.len else -(h.1.len + 3)

/-- By how many bytes a known header's line exceeds what was counted for it. -/
def knownShortfall (h : ELwsKnownHeaders × FString) : ℤ :=
  if h.2.len > 0 then 1 else -((lws.lwsTokenToString (bpHeadersToLws h.1)).length + 2)

/-- The bytes that the status call appends behind the status line. -/
def statusExtra : ℕ :=
  ((lws.statusFields.map fun f => HeaderBlock.closed (HeaderBlock.fieldContent f)).flatten).length

/-- The lengths of everything that is supplied or printed, the fixed 62 bytes apart. -/
def suppliedSize (args : ResponseArgs) : ℕ :=
  args.inResponse.len + (decimal args.inResponse.len).length +
    (contentTypeString args.inType).text.length +
    (args.inCustomHeaders.pairs.map customCounted).sum +
    (args.inKnownHeaders.pairs.map (knownCounted lws)).sum

/-- The condition under which the estimated buffer holds the header block: the
sizes stay within `int`, and the body is long enough to make up for the 39 bytes
that the fixed part is short and for the shortfall of every header. -/
structure BodyCovers (args : ResponseArgs) : Prop where
  /-- The size sum is an `int`. -/
  inRange : 62 + suppliedSize lws args < 2 ^ 31
  /-- The reserve covers the shortfall. -/
  covered : 39 + statusExtra lws + (args.inCustomHeaders.pairs.map customShortfall).sum +
    (args.inKnownHeaders.pairs.map (knownShortfall lws)).sum ≤ (args.inResponse.len : ℤ)

/-- Every header call of the response succeeds, and the first write passes the
complete header block. -/
structure CompleteHead (args : ResponseArgs) (calls : List LwsCall) : Prop where
  /-- No header call fails. -/
  allSucceed : ∀ call ok, LwsCall.header call ok ∈ calls → ok = true
  /-- The lines of all header calls, the closing blank line included, are written. -/
  blockWritten : ∃ buffer len, writes .lwsWriteHttpHeaders calls = [(buffer, len)] ∧
    writtenBytes buffer len = some (headerLines lws args).flatten

/-- The fixed token names have their documented lengths. -/
theorem tokenString_lengths :
    (lws.lwsTokenToString .wsiTokenHttpContentLength).length = 15 ∧
      (lws.lwsTokenToString .wsiTokenHttpAccessControlAllowOrigin).length = 28 ∧
      (lws.lwsTokenToString .wsiTokenHttpContentType).length = 13 := by
  obtain ⟨horigin, htype, hlength⟩ := lws.lwsTokenToString_fixed
  rw [horigin, htype, hlength]
  decide

/-- A loop that adds two amounts in each round computes a sum. -/
theorem foldl_add_eq_sum {α : Type} (a b : α → ℕ) (hs : List α) (start : ℕ) :
    hs.foldl (fun sum h => sum + a h + b h) start =
      start + (hs.map fun h => a h + b h).sum := by
  induction hs generalizing start with
  | nil => simp
  | cons h hs ih =>
    rw [List.foldl_cons, ih, List.map_cons, List.sum_cons]
    ring

/-- The estimate is the fixed 62 bytes and the supplied lengths. -/
theorem calculcatePayloadSize_eq (args : ResponseArgs) :
    calculcatePayloadSize lws args = 62 + suppliedSize lws args := by
  obtain ⟨hlength, horigin, htype⟩ := tokenString_lengths lws
  have hstar : (ascii "*").length = 1 := by decide
  have hcustom : (args.inCustomHeaders.pairs.map customCounted).sum =
      (args.inCustomHeaders.pairs.map fun h =>
        FString.len (h.1 ++ colon) + (h.2.len + 2)).sum := rfl
  have hknown : (args.inKnownHeaders.pairs.map (knownCounted lws)).sum =
      (args.inKnownHeaders.pairs.map fun h =>
        (lws.lwsTokenToString (bpHeadersToLws h.1)).length + (h.2.len + 2)).sum := rfl
  simp only [calculcatePayloadSize, foldl_add_eq_sum, hlength, horigin, htype, hstar,
    length_fromInt, contentTypeString_lenght, suppliedSize, hcustom, hknown]
  omega

/-- A key with its colon is one TCHAR longer. -/
theorem customCounted_eq (h : FString × FString) :
    customCounted h = h.1.len + 1 + (h.2.len + 2) := by
  simp [customCounted, FString.len, show colon.length = 1 by decide]

/-- The line of one custom header against what was counted for it. -/
theorem length_customLine (h : FString × FString) :
    ((((customHeaderCall h).toList.map lws.line).flatten.length : ℕ) : ℤ) =
      customCounted h + customShortfall h := by
  rw [customCounted_eq]
  unfold customHeaderCall customShortfall
  split_ifs with hlen
  · simp only [Option.toList_some, List.map_cons, List.map_nil, List.flatten_cons,
      List.flatten_nil, List.append_nil, Lws.line, HeaderBlock.closed, List.length_append,
      List.length_cons, List.length_nil, Lws.length_copy, nameBytes]
    push_cast
    ring
  · simp only [Option.toList_none, List.map_nil, List.flatten_nil, List.length_nil]
    omega

/-- The line of one known header against what was counted for it. -/
theorem length_knownLine (h : ELwsKnownHeaders × FString) :
    ((((knownHeaderCall h).toList.map lws.line).flatten.length : ℕ) : ℤ) =
      knownCounted lws h + knownShortfall lws h := by
  unfold knownHeaderCall knownShortfall knownCounted
  split_ifs with hlen
  · simp only [Option.toList_some, List.map_cons, List.map_nil, List.flatten_cons,
      List.flatten_nil, List.append_nil, Lws.line, HeaderBlock.closed, List.length_append,
      List.length_cons, List.length_nil, Lws.length_copy]
    push_cast
    ring
  · simp only [Option.toList_none, List.map_nil, List.flatten_nil, List.length_nil]
    omega

/-- The lines of a loop over headers: what was counted for them and the shortfall. -/
theorem length_lines {α : Type} {call : α → Option HeaderCall} {counted : α → ℕ}
    {shortfall : α → ℤ}
    (hline : ∀ h, ((((call h).toList.map lws.line).flatten.length : ℕ) : ℤ) =
      counted h + shortfall h) (hs : List α) :
    ((((hs.filterMap call).map lws.line).flatten.length : ℕ) : ℤ) =
      (hs.map counted).sum + (hs.map shortfall).sum := by
  induction hs with
  | nil => simp
  | cons h hs ih =>
    have hsplit : (h :: hs).filterMap call = (call h).toList ++ hs.filterMap call := by
      cases hcall : call h <;> simp [hcall]
    have hfirst := hline h
    rw [hsplit, List.map_append, List.flatten_append, List.length_append]
    simp only [List.map_cons, List.sum_cons]
    omega

/-- **The header lines against the estimate**: together they have 23 bytes more
than it holds beyond the body, and the shortfall of every header. -/
theorem length_headerLines (args : ResponseArgs) :
    (((headerLines lws args).flatten.length : ℕ) : ℤ) + args.inResponse.len =
      calculcatePayloadSize lws args + 23 + statusExtra lws +
        (args.inCustomHeaders.pairs.map customShortfall).sum +
        (args.inKnownHeaders.pairs.map (knownShortfall lws)).sum := by
  obtain ⟨hlength, horigin, htype⟩ := tokenString_lengths lws
  have hcustom := length_lines lws (length_customLine lws) args.inCustomHeaders.pairs
  have hknown := length_lines lws (length_knownLine lws) args.inKnownHeaders.pairs
  have hstatus : (lws.line (.lwsAddHttpHeaderStatus httpStatusOk)).length =
      17 + statusExtra lws := by
    rw [Lws.line, lws.statusLine_ok, List.length_append, statusExtra]
    congr 1
  have hoctets : (ascii "*" ++ [0]).length = 2 := by decide
  rw [calculcatePayloadSize_eq, suppliedSize]
  simp only [headerLines, headerCalls, List.map_append, List.map_cons, List.map_nil,
    List.flatten_append, List.flatten_cons, List.flatten_nil, List.append_nil,
    List.length_append, hstatus]
  simp only [Lws.line, HeaderBlock.closed, List.length_append, List.length_cons, List.length_nil,
    Lws.length_copy, hlength, horigin, htype, contentTypeString_lenght]
  omega

/-- The condition says that the size is an `int` and that the header lines fit the buffer. -/
theorem bodyCovers_iff_fit (args : ResponseArgs) :
    BodyCovers lws args ↔ calculcatePayloadSize lws args < 2 ^ 31 ∧
      ((headerLines lws args).flatten.length : ℤ) ≤
        (calculcatePayloadSize lws args : ℤ) - lwsPre := by
  have hlen := length_headerLines lws args
  have hsize := calculcatePayloadSize_eq lws args
  have hpre : (lwsPre : ℤ) = 16 := rfl
  constructor
  · rintro ⟨hrange, hcovered⟩
    exact ⟨by omega, by omega⟩
  · rintro ⟨hrange, hfit⟩
    exact ⟨by omega, by omega⟩

/-- The header block is complete exactly when the header lines fit the buffer. -/
theorem completeHead_iff_fit (self : ULwsRequest) (payloadSize : ℤ) (args : ResponseArgs) :
    CompleteHead lws args (sendResponseFrom lws self payloadSize args).calls ↔
      ((headerLines lws args).flatten.length : ℤ) ≤ payloadSize - lwsPre := by
  rw [← emitted_ok_iff, ← forall_header_iff (length_emitted_flags lws payloadSize args)]
  constructor
  · intro hhead call ok hmem
    exact hhead.allSucceed call ok
      ((header_mem_sendResponseFrom_iff lws self payloadSize args call ok).mpr hmem)
  · intro hflags
    have hfit := hflags
    rw [forall_header_iff (length_emitted_flags lws payloadSize args), emitted_ok_iff] at hfit
    refine ⟨fun call ok hmem => ?_, ?_⟩
    · exact hflags call ok
        ((header_mem_sendResponseFrom_iff lws self payloadSize args call ok).mp hmem)
    · refine ⟨(headerLines lws args).flatten, (headerLines lws args).flatten.length, ?_, ?_⟩
      · rw [writes_of_fit lws self hfit]
      · simp [writtenBytes]

/-- A response is sent when the size fits an `int`. -/
theorem sendResponseInt_eq_some_iff (self : ULwsRequest) (args : ResponseArgs) (r : SendResult) :
    sendResponseInt lws self args = some r ↔
      calculcatePayloadSize lws args < 2 ^ 31 ∧ sendResponse lws self args = r := by
  rw [sendResponseInt, Option.ite_none_right_eq_some, Option.some.injEq]

/-- **When the block is complete.** `SendResponse` runs with a size that fits an
`int`, all its header calls succeed and the complete block is passed to the first
write, exactly when the body covers what the estimate is short of. -/
theorem sendResponse_head_complete_iff (self : ULwsRequest) (args : ResponseArgs) :
    (∃ r, sendResponseInt lws self args = some r ∧ CompleteHead lws args r.calls) ↔
      BodyCovers lws args := by
  rw [bodyCovers_iff_fit, ← completeHead_iff_fit lws self]
  simp only [sendResponseInt_eq_some_iff]
  constructor
  · rintro ⟨r, ⟨hrange, rfl⟩, hhead⟩
    exact ⟨hrange, hhead⟩
  · rintro ⟨hrange, hhead⟩
    exact ⟨_, ⟨hrange, rfl⟩, hhead⟩

/-- An empty text answer: the estimate is 73 bytes, and the content type already
does not fit. -/
theorem empty_response_head_incomplete :
    ∃ r, sendResponseInt Lws.plain (.newObject ⟨1, some (ascii "/api/lws/v1/"), 0,
        .lwsCallbackHttp, 12⟩) (.plainText []) = some r ∧
      r.payloadSize = 73 ∧ ¬CompleteHead Lws.plain (.plainText []) r.calls := by
  refine ⟨_, rfl, by decide, fun h => ?_⟩
  have hfails := h.allSucceed (.lwsAddHttpHeaderByToken .wsiTokenHttpContentType
    (ascii "text/plain" ++ [0]) 10) false (by decide)
  cases hfails

end HttpLws
