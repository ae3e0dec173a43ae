import HttpLws.Payload
import HttpLws.Lib.Cursor

/-!
# Does the response stay in its buffer?

`SendResponse` seen at the two pointers it keeps into `Response_Buffer`. `End` is
computed without the `LWS_PRE` bytes that `Position` starts behind, so the room for
headers is what the estimate has beyond these. The estimate never goes below 62, and
the header calls, in whatever pattern they fail, move `Position` forward up to `End`.
-/

namespace HttpLws

/-- What `SendResponse` does with `Response_Buffer`; pointers are indexes. -/
structure BufferUse where
  /-- The number of bytes allocated. -/
  allocated : ℤ
  /-- `&Response_Buffer[LWS_PRE]`, where `Position` starts and the first write begins. -/
  start : ℤ
  /-- `End` -/
  endPos : ℤ
  /-- `Position` through the header calls. -/
  cursor : Cursor HeaderCall
  /-- The length passed to the first `lws_write`. -/
  length : ℤ

section

variable (w : Mover HeaderCall)

/-- The body of the loop over `In_Custom_Headers`. -/
def moveCustomHeader (endPos : ℤ) (position : Cursor HeaderCall)
    (eachHeader : FString × FString) : Cursor HeaderCall :=
  let headerName := tcharToUtf8 (eachHeader.1 ++ colon)
  let headerValue := tcharToUtf8 eachHeader.2
  let headerValueLenght := eachHeader.2.len
  if headerValueLenght > 0 then
    position.add w endPos (.lwsAddHttpHeaderByName headerName headerValue headerValueLenght)
  else position

/-- The body of the loop over `In_Known_Headers`. -/
def moveKnownHeader (endPos : ℤ) (position : Cursor HeaderCall)
    (eachHeader : ELwsKnownHeaders × FString) : Cursor HeaderCall :=
  let headerToken := bpHeadersToLws eachHeader.1
  let headerValue := tcharToUtf8 eachHeader.2
  let headerValueLenght := eachHeader.2.len
  if headerValueLenght > 0 then
    position.add w endPos (.lwsAddHttpHeaderByToken headerToken headerValue headerValueLenght)
  else position

/-- `ULwsRequest::SendResponse` after its first statement, up to the first
`lws_write`, with header calls that move `Position` as `w` says. -/
def sendResponseBuffer (payloadSize : ℤ) (args : ResponseArgs) : BufferUse :=
  let start : ℤ := lwsPre
  let endPos := payloadSize
  let position := (Cursor.init start).add w endPos (.lwsAddHttpHeaderStatus httpStatusOk)
  let position := position.add w endPos
    (.lwsAddHttpHeaderByToken .wsiTokenHttpAccessControlAllowOrigin (ascii "*" ++ [0]) 1)
  let contentType := contentTypeString args.inType
  let position := position.add w endPos
    (.lwsAddHttpHeaderByToken .wsiTokenHttpContentType (contentType.text ++ [0])
      contentType.lenght)
  let position := position.add w endPos (.lwsAddHttpHeaderContentLength args.inResponse.len)
  let position := args.inCustomHeaders.pairs.foldl (moveCustomHeader w endPos) position
  let position := args.inKnownHeaders.pairs.foldl (moveKnownHeader w endPos) position
  let position := position.add w endPos .lwsFinalizeHttpHeader
  { allocated := payloadSize + lwsPre
    start := start
    endPos := endPos
    cursor := position
    length := position.position - start }

/-- Nothing outside of the allocated buffer is written or sent. -/
structure StaysInBuffer (payloadSize : ℤ) (use : BufferUse) : Prop where
  /-- The first position is the start. -/
  starts : use.cursor.visited.head? = some use.start
  /-- It lies strictly below `End`. -/
  startBelowEnd : use.start < use.endPos
  /-- `End` lies within the allocation. -/
  endAllocated : use.endPos ≤ use.allocated
  /-- `Position` stays between its start and `End`. -/
  positions : ∀ p ∈ use.cursor.visited, use.start ≤ p ∧ p ≤ use.endPos
  /-- What a header call can write, from any of these positions up to `End`, is allocated. -/
  written : ∀ p ∈ use.cursor.visited, ∀ i, p ≤ i → i < use.endPos → 0 ≤ i ∧ i < use.allocated
  /-- The length of the first write is not negative. -/
  lengthNonneg : 0 ≤ use.length
  /-- It is at most the size without the `LWS_PRE` bytes. -/
  lengthBounded : use.length ≤ payloadSize - lwsPre
  /-- What the first write sends is allocated, and so are the bytes before it. -/
  sent : ∀ i, 0 ≤ i → i < use.start + use.length → i < use.allocated

/-- The loop over the custom headers passes `Position` to the calls of the non-empty ones. -/
theorem foldl_moveCustomHeader (endPos : ℤ) (headers : List (FString × FString))
    (position : Cursor HeaderCall) :
    headers.foldl (moveCustomHeader w endPos) position =
      (headers.filterMap customHeaderCall).foldl (Cursor.add w endPos) position := by
  refine foldl_eq_foldl_filterMap (fun c h => ?_) headers position
  by_cases hlen : h.2.len > 0 <;>
    simp [moveCustomHeader, customHeaderCall, hlen]

/-- The loop over the known headers passes `Position` to the calls of the non-empty ones. -/
theorem foldl_moveKnownHeader (endPos : ℤ) (headers : List (ELwsKnownHeaders × FString))
    (position : Cursor HeaderCall) :
    headers.foldl (moveKnownHeader w endPos) position =
      (headers.filterMap knownHeaderCall).foldl (Cursor.add w endPos) position := by
  refine foldl_eq_foldl_filterMap (fun c h => ?_) headers position
  by_cases hlen : h.2.len > 0 <;>
    simp [moveKnownHeader, knownHeaderCall, hlen]

/-- `Position` is passed to the header calls of the response, each of them once. -/
theorem cursor_sendResponseBuffer (payloadSize : ℤ) (args : ResponseArgs) :
    (sendResponseBuffer w payloadSize args).cursor =
      (headerCalls args).foldl (Cursor.add w payloadSize) (Cursor.init lwsPre) := by
  simp only [sendResponseBuffer, headerCalls, foldl_moveCustomHeader, foldl_moveKnownHeader,
    List.foldl_append, List.foldl_cons, List.foldl_nil]

/-- In a buffer with room behind `LWS_PRE`, `Position` stays in the interval through the
fixed headers, both loops and the end of the header block. -/
theorem inside_sendResponseBuffer {payloadSize : ℤ} (hroom : (lwsPre : ℤ) ≤ payloadSize)
    (args : ResponseArgs) :
    (sendResponseBuffer w payloadSize args).cursor.Inside lwsPre payloadSize := by
  rw [cursor_sendResponseBuffer]
  apply Cursor.Inside.foldl_add
  exact Cursor.inside_init hroom

/-- The estimate exceeds `LWS_PRE` for every response: its fixed part is 62 bytes. -/
theorem lwsPre_lt_size (lws : Lws) (args : ResponseArgs) :
    (lwsPre : ℤ) < calculcatePayloadSize lws args := by
  have hpre : lwsPre = 16 := rfl
  have hsize := calculcatePayloadSize_eq lws args
  omega

/-- **The response stays in its buffer.** Whatever the arguments are and whichever
header calls fail, `Position` starts below `End` and stays between its start and `End`,
`End` is allocated, and the first write passes at most the size without `LWS_PRE`. -/
theorem sendResponse_staysInBuffer (lws : Lws) (args : ResponseArgs) :
    StaysInBuffer (calculcatePayloadSize lws args)
      (sendResponseBuffer w (calculcatePayloadSize lws args) args) := by
  have hroom := lwsPre_lt_size lws args
  have hinside := inside_sendResponseBuffer w hroom.le args
  have hend := hinside.position_mem
  constructor
  case starts => exact hinside.started
  case startBelowEnd => exact hroom
  case endAllocated => exact Int.le_add_of_nonneg_right (Int.natCast_nonneg _)
  case positions =>
    intro p hp
    exact hinside.visited_mem hp
  case written =>
    intro p hp i hlow hhigh
    have hp := hinside.visited_mem hp
    simp only [sendResponseBuffer] at hhigh ⊢
    omega
  case lengthNonneg => exact Int.sub_nonneg_of_le hend.1
  case lengthBounded => exact Int.sub_le_sub_right hend.2 _
  case sent =>
    intro i hlow hhigh
    simp only [sendResponseBuffer] at hend hhigh ⊢
    omega

end

section

variable (lws : Lws)

/-- The header lines run through the buffer leave `Position` behind the bytes they
filled, with the results of the calls. -/
theorem sendResponseBuffer_emitted (payloadSize : ℤ) (args : ResponseArgs) :
    (sendResponseBuffer (BoundedBuffer.mover lws.cut lws.line) payloadSize args).length =
        (emitted lws payloadSize args).1.length ∧
      (sendResponseBuffer (BoundedBuffer.mover lws.cut lws.line) payloadSize args).cursor.results =
        (headerCalls args).zip (emitted lws payloadSize args).2 := by
  obtain ⟨hposition, hresults⟩ := BoundedBuffer.foldl_mover lws.cut lws.line
    lwsPre payloadSize (headerCalls args) (Cursor.init lwsPre) [] (by simp [Cursor.init])
  rw [← cursor_sendResponseBuffer] at hposition hresults
  constructor
  · have hlength : (sendResponseBuffer (BoundedBuffer.mover lws.cut lws.line) payloadSize
        args).length = (sendResponseBuffer (BoundedBuffer.mover lws.cut lws.line) payloadSize
        args).cursor.position - lwsPre := rfl
    rw [hlength, hposition, emitted, headerLines]
    omega
  · rw [hresults, emitted, headerLines, Cursor.init, List.nil_append]

/-- **The pointers and the bytes agree.** When the header calls append the lines that
`lws` prints, `SendResponse` makes the calls that `Position` is passed to, with the
same results, and its first write has the length that the pointers give. -/
theorem sendResponseFrom_bufferUse (self : ULwsRequest) (payloadSize : ℤ)
    (args : ResponseArgs) :
    let use := sendResponseBuffer (BoundedBuffer.mover lws.cut lws.line) payloadSize args
    ∃ block : List UInt8, use.length = block.length ∧
      (sendResponseFrom lws self payloadSize args).calls =
        use.cursor.results.map (fun r => .header r.1 r.2) ++
          [.write block block.length .lwsWriteHttpHeaders,
            .write (tcharToUtf8 args.inResponse) args.inResponse.len .lwsWriteHttp,
            .callbackHttpDummy self.params.reason] := by
  obtain ⟨hlength, hresults⟩ := sendResponseBuffer_emitted lws payloadSize args
  refine ⟨(emitted lws payloadSize args).1, hlength, ?_⟩
  rw [sendResponseFrom_calls, hresults, List.map_zip_eq_zipWith]
  rfl

/-- The first write of a response sends bytes that the header calls filled, at most as
many as the payload size has beyond `LWS_PRE`. -/
theorem firstWrite_bounded (self : ULwsRequest) (args : ResponseArgs) {buffer : List UInt8}
    {len : ℕ}
    (hwrite : (buffer, len) ∈ writes .lwsWriteHttpHeaders (sendResponse lws self args).calls) :
    writtenBytes buffer len = some buffer ∧
      (len : ℤ) ≤ calculcatePayloadSize lws args - lwsPre := by
  rw [sendResponse, writes_sendResponseFrom] at hwrite
  obtain ⟨rfl, rfl⟩ := Prod.mk.inj (List.mem_singleton.mp hwrite)
  refine ⟨by simp [writtenBytes], ?_⟩
  rw [← (sendResponseBuffer_emitted lws _ args).1]
  exact Int.sub_le_sub_right (inside_sendResponseBuffer _ (lwsPre_lt_size lws args).le
    args).position_mem.2 _

end

end HttpLws
