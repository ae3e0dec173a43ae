import HttpLws.FieldNames
import HttpLws.Lib.LineCount
import HttpLws.Payload

/-!
# The framing of a response

The status of a response decides how a client finds its end: there is no body
after 1xx and 204, and otherwise content-length counts it. `SendResponse` does not
look at `In_Status`. It announces 200, declares the length of the text and writes
the text in every case, and a supplied header can declare another length. In a
buffer that is too small, the line that declares the length may be missing.
-/

namespace HttpLws

open HeaderBlock

variable (lws : Lws)

/-- The status codes given to the library. -/
def statusCodes (calls : List LwsCall) : List ℕ :=
  (headersOf calls).filterMap fun
    | .lwsAddHttpHeaderStatus code => some code
    | _ => none

/-- The values of the content-length lines among some lines. -/
def contentLengths (ls : List (List UInt8)) : List (List UInt8) :=
  (ls.filter fun l => lineName l = ascii "content-length").map lineValue

/-- The number of body bytes written. -/
def bodyBytes (calls : List LwsCall) : ℕ := ((writes .lwsWriteHttp calls).map Prod.snd).sum

/-- A message with this code ends with its header block. -/
def Bodyless (code : ℕ) : Prop := 100 ≤ code ∧ code < 200 ∨ code = 204

instance (code : ℕ) : Decidable (Bodyless code) :=
  inferInstanceAs (Decidable (100 ≤ code ∧ code < 200 ∨ code = 204))

/-- The field lines of the header blocks that some calls write. -/
def writtenLines (calls : List LwsCall) : List (List UInt8) :=
  (writes .lwsWriteHttpHeaders calls).flatMap fun w => wholeFieldLines (w.1.take w.2)

/-- The calls write a message that is framed as a status requires. -/
structure Framed (status : ELwsResponseStatus) (calls : List LwsCall) : Prop where
  /-- The code given to the library is that of the status. -/
  announced : statusCodes calls = [statusEnumToInt status]
  /-- A header block that is written ends with an empty line, so a body can follow. -/
  ended : ∀ w ∈ writes .lwsWriteHttpHeaders calls, Ended (w.1.take w.2)
  /-- Without a body, no length is declared and nothing is written. -/
  bodyless : Bodyless (statusEnumToInt status) →
    contentLengths (writtenLines calls) = [] ∧ bodyBytes calls = 0
  /-- With a body, its length is declared, and never another one. -/
  measured : ¬Bodyless (statusEnumToInt status) →
    contentLengths (writtenLines calls) ≠ [] ∧
      ∀ value ∈ contentLengths (writtenLines calls), lengthValue value = some (bodyBytes calls)

/-- Whatever declares a length beside the fixed header declares that of the text. -/
structure LengthsAgree (args : ResponseArgs) : Prop where
  /-- Fields that the status call adds of its own. -/
  status : ∀ value ∈ contentLengths (lws.statusFields.map fieldContent),
    lengthValue value = some args.inResponse.len
  /-- Lines that the supplied headers print. -/
  supplied : ∀ h ∈ suppliedHeaders args, ∀ value ∈ contentLengths (suppliedLines lws h),
    lengthValue value = some args.inResponse.len

/-- The loop over a map announces no code. -/
theorem filterMap_status_eq_nil {α : Type} {call : α → Option HeaderCall}
    (hstatus : ∀ a code, call a ≠ some (.lwsAddHttpHeaderStatus code)) (as : List α) :
    (as.filterMap call).filterMap
      (fun | .lwsAddHttpHeaderStatus code => some code | _ => none) = ([] : List ℕ) := by
  rw [List.filterMap_eq_nil_iff]
  intro c hc
  obtain ⟨a, _, ha⟩ := List.mem_filterMap.mp hc
  cases c with
  | lwsAddHttpHeaderStatus code => exact absurd ha (hstatus a code)
  | _ => rfl

/-- Only the code of `HTTP_STATUS_OK` is announced. -/
theorem statusCodes_sendResponseFrom (self : ULwsRequest) (payloadSize : ℤ) (args : ResponseArgs) :
    statusCodes (sendResponseFrom lws self payloadSize args).calls = [httpStatusOk] := by
  rw [statusCodes, headersOf_sendResponseFrom, headerCalls]
  simp only [List.filterMap_append, filterMap_status_eq_nil customHeaderCall_ne_status,
    filterMap_status_eq_nil knownHeaderCall_ne_status]
  rfl

/-- As many body bytes are written as the text has TCHARs. -/
theorem bodyBytes_sendResponseFrom (self : ULwsRequest) (payloadSize : ℤ) (args : ResponseArgs) :
    bodyBytes (sendResponseFrom lws self payloadSize args).calls = args.inResponse.len := by
  rw [bodyBytes, writes_sendResponseFrom]
  simp

/-- Of the fixed headers, one declares a length, that of the text. -/
theorem contentLengths_fixedFields (args : ResponseArgs) :
    contentLengths ((fixedFields args).map fieldContent) = [decimal args.inResponse.len] := by
  have hname : ∀ f ∈ fixedFields args, lineName (fieldContent f) = f.name.map lowerByte :=
    fun f hf => lineName_fieldContent (fixedFields_valid args f hf).1
  have hvalue : ∀ f ∈ fixedFields args, lineValue (fieldContent f) = f.value := fun f hf =>
    lineValue_fieldContent (fixedFields_valid args f hf).1 (fixedFields_valid args f hf).2
  simp only [fixedFields, List.forall_mem_cons] at hname hvalue
  obtain ⟨hname1, hname2, hname3, -⟩ := hname
  have horigin : (ascii "access-control-allow-origin").map lowerByte ≠ ascii "content-length" := by
    decide
  have htype : (ascii "content-type").map lowerByte ≠ ascii "content-length" := by decide
  have hlength : (ascii "content-length").map lowerByte = ascii "content-length" := by decide
  simp [contentLengths, fixedFields, hname1, hname2, hname3, horigin, htype, hlength,
    hvalue.2.2.1]

/-- **The lines that are written**, when the header block fits: those of the status call,
of the fixed headers and of the supplied headers. -/
theorem writtenLines_of_fit (self : ULwsRequest) {payloadSize : ℤ} {args : ResponseArgs}
    (hfit : ((headerLines lws args).flatten.length : ℤ) ≤ payloadSize - lwsPre) :
    writtenLines (sendResponseFrom lws self payloadSize args).calls =
      lws.statusFields.map fieldContent ++ (fixedFields args).map fieldContent ++
        (suppliedHeaders args).flatMap (suppliedLines lws) := by
  have hstart : fieldLines (lws.statusLine httpStatusOk) = [] := by
    rw [lws.statusLine_ok]
    decide
  have hfields : ∀ f ∈ lws.statusFields ++ fixedFields args,
      IsToken f.name ∧ IsFieldValue f.value :=
    List.forall_mem_append.mpr ⟨lws.statusFields_valid, fixedFields_valid args⟩
  rw [writtenLines, writes_of_fit lws self hfit, List.flatMap_singleton, List.take_length,
    flatten_headerLines, wholeFieldLines_print, hstart, List.nil_append, List.flatMap_append,
    flatMap_fieldLines hfields, List.map_append, List.flatMap_map]
  rfl

/-- The lengths that are declared, when the header block fits: that of the text, and
whatever the status call and the supplied headers declare. -/
theorem mem_contentLengths_of_fit (self : ULwsRequest) {payloadSize : ℤ} {args : ResponseArgs}
    (hfit : ((headerLines lws args).flatten.length : ℤ) ≤ payloadSize - lwsPre)
    (value : List UInt8) :
    value ∈ contentLengths (writtenLines (sendResponseFrom lws self payloadSize args).calls) ↔
      value ∈ contentLengths (lws.statusFields.map fieldContent) ∨
        value = decimal args.inResponse.len ∨
          ∃ h ∈ suppliedHeaders args, value ∈ contentLengths (suppliedLines lws h) := by
  have happend : ∀ ls ls' : List (List UInt8),
      contentLengths (ls ++ ls') = contentLengths ls ++ contentLengths ls' := by
    intro ls ls'
    simp [contentLengths]
  have hsupplied : contentLengths ((suppliedHeaders args).flatMap (suppliedLines lws)) =
      (suppliedHeaders args).flatMap fun h => contentLengths (suppliedLines lws h) := by
    simp only [contentLengths, List.filter_flatMap, List.map_flatMap]
  rw [writtenLines_of_fit lws self hfit, happend, happend, contentLengths_fixedFields, hsupplied]
  simp only [List.mem_append, List.mem_singleton, List.mem_flatMap, or_assoc]

/-- Only the status 200 can be framed. -/
theorem status_of_framed {self : ULwsRequest} {payloadSize : ℤ} {args : ResponseArgs}
    (h : Framed args.inStatus (sendResponseFrom lws self payloadSize args).calls) :
    args.inStatus = .lwsHttpOk := by
  have hcode := h.announced
  rw [statusCodes_sendResponseFrom, List.singleton_inj] at hcode
  cases hstatus : args.inStatus with
  | lwsHttpOk => rfl
  | _ =>
    rw [hstatus] at hcode
    exact absurd hcode (by decide)

/-- When the header block fits, the message is framed exactly for the status 200 and
lengths that agree. -/
theorem framed_iff_of_fit (self : ULwsRequest) {payloadSize : ℤ} {args : ResponseArgs}
    (hfit : ((headerLines lws args).flatten.length : ℤ) ≤ payloadSize - lwsPre) :
    Framed args.inStatus (sendResponseFrom lws self payloadSize args).calls ↔
      args.inStatus = .lwsHttpOk ∧ LengthsAgree lws args := by
  have hmem := mem_contentLengths_of_fit lws self hfit
  have hbody : ¬Bodyless (statusEnumToInt .lwsHttpOk) := by decide
  constructor
  · intro h
    have hok := status_of_framed lws h
    have hlengths := (h.measured (by rwa [hok])).2
    rw [bodyBytes_sendResponseFrom] at hlengths
    refine ⟨hok, fun value hvalue => ?_, fun h hh value hvalue => ?_⟩
    · exact hlengths value ((hmem value).mpr (Or.inl hvalue))
    · exact hlengths value ((hmem value).mpr (Or.inr (Or.inr ⟨h, hh, hvalue⟩)))
  · rintro ⟨hok, hagree⟩
    rw [hok]
    refine ⟨?_, ?_, fun hbodyless => absurd hbodyless hbody, fun _ => ?_⟩
    · rw [statusCodes_sendResponseFrom]
      rfl
    · rw [writes_of_fit lws self hfit, List.forall_mem_singleton, List.take_length,
        flatten_headerLines]
      exact ended_print _ _
    · rw [bodyBytes_sendResponseFrom]
      refine ⟨List.ne_nil_of_mem ((hmem _).mpr (Or.inr (Or.inl rfl))), fun value hvalue => ?_⟩
      rcases (hmem value).mp hvalue with hstatus | rfl | ⟨h, hh, hsupplied⟩
      · exact hagree.status value hstatus
      · exact lengthValue_toDigits _
      · exact hagree.supplied h hh value hsupplied

/-- A buffer that a failing call fills up holds an ended block only if every line fits, as
long as each supplied header is printed as one line. -/
theorem fit_of_ended {payloadSize : ℤ} (hroom : lwsPre ≤ payloadSize) {args : ResponseArgs}
    (hone : ∀ h ∈ suppliedHeaders args, lines (suppliedContent lws h) = [suppliedContent lws h])
    (hended : Ended (emitted { lws with cut := fun _ room => room } payloadSize args).1) :
    ((headerLines lws args).flatten.length : ℤ) ≤ payloadSize - lwsPre := by
  have hblock : (emitted { lws with cut := fun _ room => room } payloadSize args).1 =
      (headerLines lws args).flatten.take (payloadSize - lwsPre).toNat :=
    BoundedBuffer.putAll_of_fills (by simpa using hroom)
  have hfields : ∀ f ∈ lws.statusFields ++ fixedFields args,
      lines (fieldContent f) = [fieldContent f] ∧ fieldContent f ≠ [] := by
    intro f hf
    obtain ⟨hname, hvalue⟩ := List.forall_mem_append.mpr
      ⟨lws.statusFields_valid, fixedFields_valid args⟩ f hf
    exact ⟨(parseField_fieldContent hname hvalue).1, by simp [fieldContent]⟩
  have hsupplied : ∀ h ∈ suppliedHeaders args,
      lines (suppliedContent lws h) = [suppliedContent lws h] ∧ suppliedContent lws h ≠ [] := by
    intro h hh
    refine ⟨hone h hh, ?_⟩
    cases h <;> simp [suppliedContent]
  have hstart : lws.statusLine httpStatusOk ≠ [] := by
    rw [lws.statusLine_ok]
    decide
  rw [hblock, flatten_headerLines] at hended
  have hwhole := eq_print_of_ended (List.forall_mem_cons.mpr ⟨⟨lines_statusLine lws, hstart⟩,
    List.forall_mem_append.mpr ⟨List.forall_mem_map.mpr hfields,
      List.forall_mem_map.mpr hsupplied⟩⟩) (List.take_prefix _ _) hended
  have hlen := congrArg List.length hwhole
  rw [← flatten_headerLines, List.length_take] at hlen
  omega

/-- **The framing of a response.** `SendResponse` writes a complete header block and frames
the message as the status requires exactly when the status is 200, the header block fits
its buffer, and nothing that is printed declares another length than that of the text. No
other status is ever framed, and where the block fits, the framing needs no more than
the status 200 and lengths that agree. Where each supplied header is printed as one line,
the three conditions are also those under which the message is framed whatever the failing
calls leave in the buffer. -/
theorem sendResponse_framed_iff (self : ULwsRequest) (args : ResponseArgs) :
    ((∃ r, sendResponseInt lws self args = some r ∧ CompleteHead lws args r.calls ∧
        Framed args.inStatus r.calls) ↔
      args.inStatus = .lwsHttpOk ∧ BodyCovers lws args ∧ LengthsAgree lws args) ∧
    (∀ r, sendResponseInt lws self args = some r →
      (Framed args.inStatus r.calls → args.inStatus = .lwsHttpOk) ∧
        (BodyCovers lws args →
          (Framed args.inStatus r.calls ↔
            args.inStatus = .lwsHttpOk ∧ LengthsAgree lws args))) ∧
    ((∀ h ∈ suppliedHeaders args, lines (suppliedContent lws h) = [suppliedContent lws h]) →
      ((∀ cut, ∃ r, sendResponseInt { lws with cut := cut } self args = some r ∧
          Framed args.inStatus r.calls) ↔
        args.inStatus = .lwsHttpOk ∧ BodyCovers lws args ∧ LengthsAgree lws args)) := by
  simp only [sendResponseInt_eq_some_iff, bodyCovers_iff_fit]
  refine ⟨⟨?_, ?_⟩, ?_, fun hone => ⟨fun hall => ?_, ?_⟩⟩
  · rintro ⟨r, ⟨hrange, rfl⟩, hhead, hframed⟩
    have hfit := (completeHead_iff_fit lws self _ args).mp hhead
    obtain ⟨hok, hagree⟩ := (framed_iff_of_fit lws self hfit).mp hframed
    exact ⟨hok, ⟨hrange, hfit⟩, hagree⟩
  · rintro ⟨hok, ⟨hrange, hfit⟩, hagree⟩
    exact ⟨_, ⟨hrange, rfl⟩, (completeHead_iff_fit lws self _ args).mpr hfit,
      (framed_iff_of_fit lws self hfit).mpr ⟨hok, hagree⟩⟩
  · rintro r ⟨-, rfl⟩
    exact ⟨status_of_framed lws, fun ⟨_, hfit⟩ => framed_iff_of_fit lws self hfit⟩
  · -- The block is filled up to the end of its buffer, so it ends only if it is whole.
    obtain ⟨r, ⟨hrange, rfl⟩, hframed⟩ := hall fun _ room => room
    have hended := hframed.ended
    rw [sendResponse, writes_sendResponseFrom] at hended
    simp only [List.forall_mem_singleton, List.take_length] at hended
    have hroom : (lwsPre : ℤ) ≤ calculcatePayloadSize lws args := by
      rw [calculcatePayloadSize_eq, lwsPre]
      omega
    have hfit := fit_of_ended lws hroom hone hended
    obtain ⟨hok, hagree⟩ :=
      (framed_iff_of_fit { lws with cut := fun _ room => room } self hfit).mp hframed
    exact ⟨hok, ⟨hrange, hfit⟩, hagree.status, hagree.supplied⟩
  · rintro ⟨hok, ⟨hrange, hfit⟩, hagree⟩ cut
    exact ⟨_, ⟨hrange, rfl⟩, (framed_iff_of_fit { lws with cut := cut } self hfit).mpr
      ⟨hok, hagree.status, hagree.supplied⟩⟩

/-- A body of 64 letters with the status 204. -/
def noContent : ResponseArgs :=
  { ResponseArgs.plainText (List.replicate 64 120) with inStatus := .lwsHttpNoContent }

/-- The response to 204 announces 200 and writes the body, with its length, all header
calls succeeding. The answer `hello` has the status 200 and is written without a length,
since its block is cut. -/
theorem no_content_not_framed :
    (sendResponse Lws.plain (.newObject ⟨1, none, 0, .lwsCallbackHttp, 0⟩) noContent).calls.all
        (fun | .header _ ok => ok | _ => true) = true ∧
      ¬Framed noContent.inStatus (sendResponse Lws.plain
        (.newObject ⟨1, none, 0, .lwsCallbackHttp, 0⟩) noContent).calls ∧
      ¬Framed .lwsHttpOk (sendResponse Lws.plain
        (.newObject ⟨1, none, 0, .lwsCallbackHttp, 0⟩) (.plainText (text "hello"))).calls := by
  refine ⟨by decide +kernel, fun hframed => ?_, fun hframed => ?_⟩
  · have hcode := hframed.announced
    rw [sendResponse, statusCodes_sendResponseFrom] at hcode
    exact absurd hcode (by decide)
  · exact (hframed.measured (by decide)).1 (by decide +kernel)

end HttpLws
