import HttpLws.Object
import HttpLws.RequestCalls

/-!
# The getters for headers and arguments

The getters of `ULwsObject` and `ULwsRequest` ask the library for one value at a time:
the method by its tokens, the path, a header by its token, a custom header or a URL
argument by its name. The library reports a missing value as -1; what the getters do
with that count is modelled as it is written.
-/

namespace HttpLws

variable (conv : AnsiConversion)

/-- The tokens that `GetMethod` tests, in its order, and what it answers for each. -/
def methodTokens : List (LwsTokenIndexes × FString) :=
  [(.wsiTokenGetUri, text "GET"), (.wsiTokenPostUri, text "POST"),
    (.wsiTokenPutUri, text "PUT"), (.wsiTokenPatchUri, text "PATCH"),
    (.wsiTokenDeleteUri, text "DELETE"), (.wsiTokenHeadUri, text "HEAD"),
    (.wsiTokenOptionsUri, text "OPTIONS")]

/-- The chain of tests in `GetMethod`, from some token on. -/
def testMethods (headers : HeaderTable) (outMethod : FString) :
    List (LwsTokenIndexes × FString) → GetResult FString
  | [] => ⟨false, outMethod, []⟩
  | (token, method) :: tokens =>
      if lwsHdrTotalLength headers token > 0 then ⟨true, method, [.query .lwsHdrTotalLength]⟩
      else
        let later := testMethods headers outMethod tokens
        ⟨later.result, later.out, .query .lwsHdrTotalLength :: later.calls⟩

/-- `ULwsObject::GetMethod` -/
def getMethod (headers : HeaderTable) (params : FLwsParams) (outMethod : FString) :
    GetResult FString :=
  if params.reason ≠ .lwsCallbackHttp then ⟨false, outMethod, []⟩
  else testMethods headers outMethod methodTokens

/-- `ULwsRequest::GetUri`, where `uriAndMethod` is what `lws_http_get_uri_and_method`
leaves in `UriPtr` and `UriLenght`: nothing and zero if it finds no method. -/
def getUri (uriAndMethod : List UInt8 × ℤ) (params : FLwsParams) (outUri : FString) :
    Option (GetResult FString) :=
  if params.reason ≠ .lwsCallbackHttp then some ⟨false, outUri, []⟩
  else if params.inData = none then some ⟨false, outUri, []⟩
  else
    (FString.appendChars conv [] uriAndMethod.1 uriAndMethod.2).map fun tempString =>
      ⟨true, tempString, [.query .lwsHttpGetUriAndMethod]⟩

/-- A header that the library has no token for. -/
structure CustomHeader where
  /-- The name, with the colon that ends it. -/
  name : List UInt8
  /-- The value. -/
  value : List UInt8

/-- The value stored under a name, the first one if there are several. -/
def customValue (headers : List CustomHeader) (name : List UInt8) : Option (List UInt8) :=
  (headers.find? fun h => h.name = name).map CustomHeader.value

/-- `lws_hdr_custom_length` -/
def lwsHdrCustomLength (headers : List CustomHeader) (name : List UInt8) : ℤ :=
  match customValue headers name with
  | none => -1
  | some value => value.length

/-- `lws_hdr_custom_copy` into a buffer of `len` bytes: the bytes that are filled in,
and the return value. -/
def lwsHdrCustomCopy (headers : List CustomHeader) (len : ℤ) (name : List UInt8) :
    List UInt8 × ℤ :=
  match customValue headers name with
  | none => ([], -1)
  | some value => if value.length < len then (value ++ [0], value.length) else ([], -1)

/-- `ULwsObject::GetCustomHeader` -/
def getCustomHeader (headers : List CustomHeader) (params : FLwsParams) (value key : FString) :
    Option (GetResult FString) :=
  if params.reason ≠ .lwsCallbackHttp ∧ params.reason ≠ .lwsCallbackHttpBody then
    some ⟨false, value, []⟩
  else
    let headerKey := nameBytes key
    let headerValueLenght := lwsHdrCustomLength headers headerKey + 1
    let headerValue := lwsHdrCustomCopy headers headerValueLenght headerKey
    (FString.appendChars conv [] headerValue.1 headerValue.2).map fun headerString =>
      ⟨true, headerString, [.query .lwsHdrCustomLength, .query .lwsHdrCustomCopy]⟩

/-- The body of the loop in `GetAllCustomHeaders`: the map so far, and the calls. -/
def addReceivedHeader (headers : List CustomHeader) (params : FLwsParams)
    (temp : FStringMap FString × List LwsCall) (eachHeaderKey : FString) :
    Option (FStringMap FString × List LwsCall) :=
  (getCustomHeader conv headers params [] eachHeaderKey).map fun got =>
    (temp.1.add eachHeaderKey got.out, temp.2 ++ got.calls)

/-- `ULwsObject::GetAllCustomHeaders` -/
def getAllCustomHeaders (headers : List CustomHeader) (params : FLwsParams)
    (inHeaders : List FString) (outHeaders : FStringMap FString) :
    Option (GetResult (FStringMap FString)) :=
  if params.reason ≠ .lwsCallbackHttp ∧ params.reason ≠ .lwsCallbackHttpBody then
    some ⟨false, outHeaders, []⟩
  else
    (inHeaders.foldlM (addReceivedHeader conv headers params) (.empty, [])).map fun temp =>
      ⟨true, temp.1, temp.2⟩

/-- The argument that a name finds: the first one whose text begins with the name,
with what follows the name. An equals sign there is dropped if the name has none at
its own end. -/
def urlargByName (args : List (List UInt8)) (name : List UInt8) :
    Option (List UInt8 × List UInt8) :=
  (args.find? fun arg => name.isPrefixOf arg).map fun arg =>
    let rest := arg.drop name.length
    (arg, if name.getLast? ≠ some 61 ∧ rest.head? = some 61 then rest.tail else rest)

/-- `lws_get_urlarg_by_name_safe` into a buffer of `len` bytes: the bytes that are
filled in, and the return value. `overlong` stands for what it does with an argument
that does not fit, which is not documented. -/
def lwsGetUrlargByNameSafe (overlong : List UInt8 → ℕ → List UInt8 × ℤ)
    (args : List (List UInt8)) (name : List UInt8) (len : ℕ) : List UInt8 × ℤ :=
  match urlargByName args name with
  | none => ([], -1)
  | some (arg, value) =>
      if arg.length < len then (value ++ [0], value.length) else overlong arg len

/-- The bytes that reach the library for the key of an argument. -/
def argumentName (key : FString) : List UInt8 :=
  (tcharToUtf8 (key ++ text "=")).takeWhile (· ≠ 0)

/-- `ULwsObject::GetUrlParam` on a request with the given arguments, each as its
decoded text. -/
def getUrlParam (overlong : List UInt8 → ℕ → List UInt8 × ℤ) (args : List (List UInt8))
    (params : FLwsParams) (value key : FString) (bufferSize : ℤ) : Option (GetResult FString) :=
  if params.reason ≠ .lwsCallbackHttp ∧ params.reason ≠ .lwsCallbackHttpBody then
    some ⟨false, value, []⟩
  else
    let bufferSize := if bufferSize ≤ 0 then 1024 else bufferSize
    let argument := lwsGetUrlargByNameSafe overlong args (argumentName key) bufferSize.toNat
    let calls := [.query .lwsGetUrlargByNameSafe]
    if argument.2 = 0 then some ⟨false, value, calls⟩
    else
      (FString.appendChars conv [] argument.1 argument.2).map fun argumentString =>
        ⟨true, argumentString, calls⟩

/-- `WSI_TOKEN_COUNT`, the number after the last token. -/
def wsiTokenCount : ℕ := LwsTokenIndexes.wsiTokenClientAlpn.ctorIdx + 1

/-- The token with a number. -/
def tokenAt (key : ℤ) : Option LwsTokenIndexes :=
  if 0 ≤ key ∧ key < wsiTokenCount then some (.ofNat key.toNat) else none

/-- What the library finds under a number that is cast to a token. Outside the table
of headers it reads memory that is not part of it, `stray`. -/
def headerAt (headers : HeaderTable) (stray : ℤ → List UInt8) (key : ℤ) : List UInt8 :=
  match tokenAt key with
  | some token => headers token
  | none => stray key

/-- `lws_hdr_total_length` for a token's number. -/
def lwsHdrTotalLengthAt (headers : HeaderTable) (stray : ℤ → List UInt8) (key : ℤ) : ℕ :=
  (headerAt headers stray key).length

/-- `lws_hdr_copy` for a token's number, into a buffer of `len` bytes. -/
def lwsHdrCopyAt (headers : HeaderTable) (stray : ℤ → List UInt8) (len : ℕ) (key : ℤ) :
    List UInt8 × ℤ :=
  let value := headerAt headers stray key
  if value.length < len then (value ++ [0], value.length) else ([], -1)

/-- What the readers of one known header have in common: they ask for the length of
the value under a token's number and copy it into a buffer with room for a terminator. -/
def readKnownHeader (headers : HeaderTable) (stray : ℤ → List UInt8) (params : FLwsParams)
    (value : FString) (token : ℤ) : Option (GetResult FString) :=
  if params.reason ≠ .lwsCallbackHttp ∧ params.reason ≠ .lwsCallbackHttpBody then
    some ⟨false, value, []⟩
  else
    let headerValueLenght := lwsHdrTotalLengthAt headers stray token
    if headerValueLenght > 0 then
      let headerValue := lwsHdrCopyAt headers stray (headerValueLenght + 1) token
      (FString.appendChars conv [] headerValue.1 headerValue.2).map fun tempValue =>
        ⟨true, tempValue, [.query .lwsHdrTotalLength, .query .lwsHdrCopy]⟩
    else some ⟨false, value, [.query .lwsHdrTotalLength]⟩

/-- `ULwsObject::ConvertBpHeader`: the enumeration's default value. -/
def convertBpHeader (_ : LwsTokenIndexes) : ELwsKnownHeaders := .none

/-- `ULwsObject::ConvertLwsHeader`: the enumeration's default value. -/
def convertLwsHeader (_ : ELwsKnownHeaders) : LwsTokenIndexes := .wsiTokenGetUri

/-- `ULwsObject::GetKnownHeader_Enum` -/
def getKnownHeaderEnum (headers : HeaderTable) (stray : ℤ → List UInt8) (params : FLwsParams)
    (value : FString) (key : ELwsKnownHeaders) : Option (GetResult FString) :=
  readKnownHeader conv headers stray params value (convertLwsHeader key).ctorIdx

/-- `ULwsObject::GetKnownHeader_Int` -/
def getKnownHeaderInt (headers : HeaderTable) (stray : ℤ → List UInt8) (params : FLwsParams)
    (value : FString) (key : ℤ) : Option (GetResult FString) :=
  readKnownHeader conv headers stray params value key

/-- `FLwsKnownHeaders` -/
structure FLwsKnownHeaders where
  /-- `String` -/
  string : FString
  /-- `Index` -/
  index : ℤ
  /-- `HeaderEnum` -/
  headerEnum : ELwsKnownHeaders

/-- The body of the loop in `GetAllKnownHeaders`: the map so far, and the calls. -/
def addStoredHeader (lws : Lws) (headers : HeaderTable) (stray : ℤ → List UInt8)
    (temp : FStringMap FLwsKnownHeaders × List LwsCall) (indexHeader : ℕ) :
    Option (FStringMap FLwsKnownHeaders × List LwsCall) :=
  let eachHeaderValueLenght := lwsHdrTotalLengthAt headers stray indexHeader
  if eachHeaderValueLenght > 0 then
    let eachHeaderKey := (lws.lwsTokenToString (.ofNat indexHeader)).takeWhile (· ≠ 0)
    let eachHeaderValue := lwsHdrCopyAt headers stray (eachHeaderValueLenght + 1) indexHeader
    (FString.appendChars conv [] eachHeaderKey eachHeaderKey.length).bind fun eachHeaderKeyString =>
      (FString.appendChars conv [] eachHeaderValue.1 eachHeaderValue.2).map fun string =>
        (temp.1.add eachHeaderKeyString ⟨string, indexHeader, convertBpHeader (.ofNat indexHeader)⟩,
          temp.2 ++ [.query .lwsHdrTotalLength, .query .lwsHdrCopy])
  else some (temp.1, temp.2 ++ [.query .lwsHdrTotalLength])

/-- `ULwsObject::GetAllKnownHeaders` -/
def getAllKnownHeaders (lws : Lws) (headers : HeaderTable) (stray : ℤ → List UInt8)
    (params : FLwsParams) (outHeaders : FStringMap FLwsKnownHeaders) :
    Option (GetResult (FStringMap FLwsKnownHeaders)) :=
  if params.reason ≠ .lwsCallbackHttp ∧ params.reason ≠ .lwsCallbackHttpBody then
    some ⟨false, outHeaders, []⟩
  else
    ((List.range wsiTokenCount).foldlM (addStoredHeader conv lws headers stray)
      (.empty, [])).map fun temp => ⟨true, temp.1, temp.2⟩

end HttpLws
