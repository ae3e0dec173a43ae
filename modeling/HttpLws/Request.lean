import HttpLws.Libwebsockets

/-!
# Answering a request

`ULwsRequest` with its helpers and `SendResponse`. The response is built in a
buffer of the estimated size: the status line, three fixed headers, the custom
and the known headers with a non-empty value, the blank line. Then the header
block and the body are written and the library's default handler is called.
-/

namespace HttpLws

/-- `FLwsContentType`: a string literal with its length. -/
structure FLwsContentType where
  /-- The literal, without its terminator. -/
  text : List UInt8
  /-- The length given to the library. -/
  lenght : ℕ

/-- `ULwsRequest::ContentTypeString` -/
def contentTypeString : ELwsContentType → FLwsContentType
  | .lwsTextPlain => ⟨ascii "text/plain", 10⟩
  | .lwsTextHtml => ⟨ascii "text/html", 9⟩
  | .lwsApplicationJson => ⟨ascii "application/json", 16⟩

/-- `ULwsRequest::StatusEnumToInt` -/
def statusEnumToInt : ELwsResponseStatus → ℕ
  | .lwsHttpContinue => 100
  | .lwsHttpOk => 200
  | .lwsHttpNoContent => 204
  | .lwsHttpPartialContent => 206
  | .lwsHttpBadRequest => 400
  | .lwsHttpNotFound => 404
  | .lwsHttpIntServerError => 500

/-- `ULwsRequest::BpHeadersToLws` -/
def bpHeadersToLws : ELwsKnownHeaders → LwsTokenIndexes
  | .lwsHeaderXAuthToken => .wsiTokenXAuthToken
  | .lwsHeaderAuthorization => .wsiTokenHttpAuthorization
  | .lwsHeaderWwwAuthorization => .wsiTokenHttpWwwAuthenticate
  | .lwsHeaderProxyAuthenticate => .wsiTokenHttpProxyAuthenticate
  | .lwsHeaderProxyAuthorization => .wsiTokenHttpProxyAuthorization
  | .lwsHeaderAccept => .wsiTokenHttpAccept
  | .lwsHeaderAcceptEncoding => .wsiTokenHttpAcceptEncoding
  | .lwsHeaderContentType => .wsiTokenHttpContentType
  | .lwsHeaderContentLenght => .wsiTokenHttpContentLength
  | .lwsHeaderHost => .wsiTokenHost
  | .lwsHeaderOrigin => .wsiTokenOrigin
  | .lwsHeaderConnection => .wsiTokenConnection
  | .lwsHeaderUserAgent => .wsiTokenHttpUserAgent
  | .lwsHeaderAccessControlOrigin => .wsiTokenHttpAccessControlAllowOrigin
  | .none => .wsiTokenHttpContentType

/-- `TMap<ELwsKnownHeaders, FString>` -/
abbrev KnownHeaderMap := KeyedMap (fun k : ELwsKnownHeaders => k) FString

/-- The arguments of `SendResponse`, `Payload_Size` apart. -/
structure ResponseArgs where
  /-- `In_Response` -/
  inResponse : FString
  /-- `In_Custom_Headers` -/
  inCustomHeaders : FStringMap FString
  /-- `In_Known_Headers` -/
  inKnownHeaders : KnownHeaderMap
  /-- `In_Type` -/
  inType : ELwsContentType
  /-- `In_Status` -/
  inStatus : ELwsResponseStatus

/-- `ULwsRequest` -/
structure ULwsRequest where
  /-- `Params`, inherited from `ULwsObject`. -/
  params : FLwsParams
  /-- `RetVal` -/
  retVal : ℤ

/-- A new request object: the callback's arguments and `RetVal` at its default. -/
def ULwsRequest.newObject (params : FLwsParams) : ULwsRequest := ⟨params, 0⟩

/-- The arguments for a body without headers, the others at their defaults. -/
def ResponseArgs.plainText (inResponse : FString) : ResponseArgs where
  inResponse := inResponse
  inCustomHeaders := .empty
  inKnownHeaders := .empty
  inType := .lwsTextPlain
  inStatus := .lwsHttpOk

/-- `LWS_PRE` -/
def lwsPre : ℕ := 16

/-- The `TEXT(":")` that is appended to a header's key. -/
def colon : FString := text ":"

variable (lws : Lws)

/-- `ULwsRequest::CalculcatePayloadSize`, with its sums as exact integers. -/
def calculcatePayloadSize (args : ResponseArgs) : ℕ :=
  let termination := 2
  let lenghtResponse :=
    (lws.lwsTokenToString .wsiTokenHttpContentLength).length +
      (FString.fromInt args.inResponse.len).len + args.inResponse.len + termination
  let lenghtHeadersCustom := args.inCustomHeaders.pairs.foldl
    (fun sum eachHeader =>
      sum + FString.len (eachHeader.1 ++ colon) + (eachHeader.2.len + termination)) 0
  let lenghtHeadersKnown := args.inKnownHeaders.pairs.foldl
    (fun sum eachHeader =>
      sum + (lws.lwsTokenToString (bpHeadersToLws eachHeader.1)).length +
        (eachHeader.2.len + termination)) 0
  let lenghtHeaderAO :=
    (lws.lwsTokenToString .wsiTokenHttpAccessControlAllowOrigin).length +
      (ascii "*").length + termination
  let lenghtHeaderCT :=
    (lws.lwsTokenToString .wsiTokenHttpContentType).length +
      (contentTypeString args.inType).lenght + termination / 2
  lenghtResponse + lenghtHeadersCustom + lenghtHeadersKnown + lenghtHeaderAO + lenghtHeaderCT

/-- The response buffer while headers are added: the bytes from
`&Response_Buffer[LWS_PRE]` to `Position`, and the calls made so far. -/
structure Emission where
  /-- What stands before `Position`. -/
  block : List UInt8
  /-- The calls so far. -/
  calls : List LwsCall

/-- One header call with the buffer's end at index `endPos`. Its return value is
not looked at. -/
def Emission.add (endPos : ℤ) (e : Emission) (call : HeaderCall) : Emission :=
  let written := BoundedBuffer.put lws.cut (endPos - lwsPre) e.block (lws.line call)
  ⟨written.1, e.calls ++ [.header call written.2]⟩

/-- The body of the loop over `In_Custom_Headers`. -/
def addCustomHeader (endPos : ℤ) (e : Emission) (eachHeader : FString × FString) : Emission :=
  let headerName := tcharToUtf8 (eachHeader.1 ++ colon)
  let headerValue := tcharToUtf8 eachHeader.2
  let headerValueLenght := eachHeader.2.len
  if headerValueLenght > 0 then
    e.add lws endPos (.lwsAddHttpHeaderByName headerName headerValue headerValueLenght)
  else e

/-- The body of the loop over `In_Known_Headers`. -/
def addKnownHeader (endPos : ℤ) (e : Emission) (eachHeader : ELwsKnownHeaders × FString) :
    Emission :=
  let headerToken := bpHeadersToLws eachHeader.1
  let headerValue := tcharToUtf8 eachHeader.2
  let headerValueLenght := eachHeader.2.len
  if headerValueLenght > 0 then
    e.add lws endPos (.lwsAddHttpHeaderByToken headerToken headerValue headerValueLenght)
  else e

/-- What a call of `SendResponse` leaves behind. -/
structure SendResult where
  /-- The out parameter `Payload_Size`. -/
  payloadSize : ℤ
  /-- The request object with its new `RetVal`. -/
  self : ULwsRequest
  /-- The library calls made on `Params.wsi`. -/
  calls : List LwsCall
  /-- The return value. -/
  result : Bool

/-- `ULwsRequest::SendResponse` after its first statement: the part that runs
with a given `Payload_Size`. -/
def sendResponseFrom (self : ULwsRequest) (payloadSize : ℤ) (args : ResponseArgs) : SendResult :=
  let endPos := payloadSize
  let e : Emission := ⟨[], []⟩
  let e := e.add lws endPos (.lwsAddHttpHeaderStatus httpStatusOk)
  let e := e.add lws endPos
    (.lwsAddHttpHeaderByToken .wsiTokenHttpAccessControlAllowOrigin (ascii "*" ++ [0]) 1)
  let contentType := contentTypeString args.inType
  let e := e.add lws endPos
    (.lwsAddHttpHeaderByToken .wsiTokenHttpContentType (contentType.text ++ [0])
      contentType.lenght)
  let e := e.add lws endPos (.lwsAddHttpHeaderContentLength args.inResponse.len)
  let e := args.inCustomHeaders.pairs.foldl (addCustomHeader lws endPos) e
  let e := args.inKnownHeaders.pairs.foldl (addKnownHeader lws endPos) e
  let e := e.add lws endPos .lwsFinalizeHttpHeader
  let calls := e.calls ++
    [.write e.block e.block.length .lwsWriteHttpHeaders,
      .write (tcharToUtf8 args.inResponse) args.inResponse.len .lwsWriteHttp,
      .callbackHttpDummy self.params.reason]
  { payloadSize := payloadSize
    self := { self with retVal := lws.httpDummy self.params }
    calls := calls
    result := true }

/-- `ULwsRequest::SendResponse`, with the size sums as exact integers. -/
def sendResponse (self : ULwsRequest) (args : ResponseArgs) : SendResult :=
  sendResponseFrom lws self (calculcatePayloadSize lws args) args

/-- `ULwsRequest::SendResponse` as the machine runs it. The sizes are added in
`int`; a sum past its range is undefined, or negative and more than can be allocated. -/
def sendResponseInt (self : ULwsRequest) (args : ResponseArgs) : Option SendResult :=
  if calculcatePayloadSize lws args < 2 ^ 31 then some (sendResponse lws self args) else none

end HttpLws
