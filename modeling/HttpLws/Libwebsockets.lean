import HttpLws.Enums
import HttpLws.Lib.BoundedBuffer
import HttpLws.Lib.HeaderBlock

/-!
# The part of libwebsockets that answers a request

The library is linked from a binary, so its functions are a parameter: `Lws`
holds what they append, with the documented facts the plugin relies on. A header
call appends a whole line or fails; `LwsCall` records the calls that the plugin
makes on one connection, in order, with the result of each header call.
-/

namespace HttpLws

/-- `FLwsParams`: the arguments of the callback that an object was made in. -/
structure FLwsParams where
  /-- The address of the connection. -/
  wsi : ℕ
  /-- The memory at the `in` pointer; `none` is a null pointer. -/
  inData : Option (List UInt8)
  /-- The address of the per-session data. -/
  user : ℕ
  /-- Why the callback was called. -/
  reason : LwsCallbackReasons
  /-- How many bytes of `in` belong to the event. -/
  len : ℕ

/-- The header calls of `lws-http.h`. A value is passed as a pointer to a buffer
and a length. -/
inductive HeaderCall
  | lwsAddHttpHeaderStatus (code : ℕ)
  | lwsAddHttpHeaderByToken (token : LwsTokenIndexes) (value : List UInt8) (length : ℕ)
  | lwsAddHttpHeaderContentLength (length : ℕ)
  | lwsAddHttpHeaderByName (name value : List UInt8) (length : ℕ)
  | lwsFinalizeHttpHeader
  deriving DecidableEq

/-- The reading calls of `lws-http.h` that the getters make. -/
inductive HeaderQuery
  | lwsHdrTotalLength | lwsHdrCopy | lwsHdrCustomLength | lwsHdrCustomCopy
  | lwsGetUrlargByNameSafe | lwsHttpGetUriAndMethod
  deriving DecidableEq

/-- One call made on a connection. -/
inductive LwsCall
  /-- A header call, and whether it returned zero. -/
  | header (call : HeaderCall) (ok : Bool)
  /-- `lws_write` of the first `len` bytes of a buffer. -/
  | write (buffer : List UInt8) (len : ℕ) (protocol : LwsWriteProtocol)
  /-- `lws_callback_http_dummy` with the given reason. -/
  | callbackHttpDummy (reason : LwsCallbackReasons)
  /-- A reading call. -/
  | query (q : HeaderQuery)
  deriving DecidableEq

/-- The bytes that `lws_write` sends, when the buffer holds that many. -/
def writtenBytes (buffer : List UInt8) (len : ℕ) : Option (List UInt8) :=
  if len ≤ buffer.length then some (buffer.take len) else none

/-- What the plugin relies on in the library it is linked against (HTTP/1.x). -/
structure Lws where
  /-- `lws_token_to_string`, the name of a token with its colon. -/
  lwsTokenToString : LwsTokenIndexes → List UInt8
  /-- The names of the tokens that occur in responses. -/
  tokenStrings : ∀ p ∈ responseTokenStrings, lwsTokenToString p.1 = ascii p.2
  /-- The status line of a code, without its line end. -/
  statusLine : ℕ → List UInt8
  /-- The status line of code 200. -/
  statusLine_ok : statusLine httpStatusOk = ascii "HTTP/1.1 200 OK"
  /-- Header fields that the status call may add of its own, such as the server's name. -/
  statusFields : List HeaderBlock.Field
  /-- They are proper header fields. -/
  statusFields_valid : ∀ f ∈ statusFields,
    HeaderBlock.IsToken f.name ∧ HeaderBlock.IsFieldValue f.value
  /-- How much of a line is written before a call notices that it does not fit. -/
  cut : List UInt8 → ℕ → ℕ
  /-- The memory found behind a value when more bytes are copied than it has. -/
  pastEnd : ℕ → UInt8
  /-- The return value of `lws_callback_http_dummy`. -/
  httpDummy : FLwsParams → ℤ

namespace Lws

/-- `length` bytes copied from a buffer. -/
def copy (lws : Lws) (buffer : List UInt8) (length : ℕ) : List UInt8 :=
  buffer.take length ++ (List.range (length - buffer.length)).map lws.pastEnd

/-- The bytes that a header call appends when it succeeds. -/
def line (lws : Lws) : HeaderCall → List UInt8
  | .lwsAddHttpHeaderStatus code =>
      HeaderBlock.closed (lws.statusLine code) ++
        (lws.statusFields.map fun f => HeaderBlock.closed (HeaderBlock.fieldContent f)).flatten
  | .lwsAddHttpHeaderByToken token value length =>
      HeaderBlock.closed (lws.lwsTokenToString token ++ 32 :: lws.copy value length)
  | .lwsAddHttpHeaderContentLength length =>
      HeaderBlock.closed (lws.lwsTokenToString .wsiTokenHttpContentLength ++ 32 :: decimal length)
  | .lwsAddHttpHeaderByName name value length =>
      HeaderBlock.closed (name.takeWhile (· ≠ 0) ++ 32 :: lws.copy value length)
  | .lwsFinalizeHttpHeader => [13, 10]

/-- A library without status fields of its own, which fills the buffer up to its
end before it gives up on a line. -/
def plain : Lws where
  lwsTokenToString t := ((responseTokenStrings.lookup t).map ascii).getD []
  tokenStrings := by decide
  statusLine code := ascii "HTTP/1.1 " ++ decimal code ++ ascii " OK"
  statusLine_ok := by decide
  statusFields := []
  statusFields_valid := by simp
  cut _ room := room
  pastEnd _ := 0
  httpDummy _ := 0

/-- The number of bytes copied is the length asked for. -/
@[simp] theorem length_copy (lws : Lws) (buffer : List UInt8) (length : ℕ) :
    (lws.copy buffer length).length = length := by
  simp only [copy, List.length_append, List.length_take, List.length_map, List.length_range]
  omega

/-- Copying a prefix of the buffer. -/
theorem copy_append_of_length (lws : Lws) (bytes rest : List UInt8) :
    lws.copy (bytes ++ rest) bytes.length = bytes := by
  simp [copy]

/-- The names of the fixed headers, as the library spells them. -/
theorem lwsTokenToString_fixed (lws : Lws) :
    lws.lwsTokenToString .wsiTokenHttpAccessControlAllowOrigin =
        ascii "access-control-allow-origin" ++ [58] ∧
      lws.lwsTokenToString .wsiTokenHttpContentType = ascii "content-type" ++ [58] ∧
      lws.lwsTokenToString .wsiTokenHttpContentLength = ascii "content-length" ++ [58] := by
  refine ⟨?_, ?_, ?_⟩
  · rw [lws.tokenStrings
      (.wsiTokenHttpAccessControlAllowOrigin, "access-control-allow-origin:") (by decide)]
    decide
  · rw [lws.tokenStrings (.wsiTokenHttpContentType, "content-type:") (by decide)]
    decide
  · rw [lws.tokenStrings (.wsiTokenHttpContentLength, "content-length:") (by decide)]
    decide

end Lws

end HttpLws
