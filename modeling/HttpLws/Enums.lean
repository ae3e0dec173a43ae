import HttpLws.Engine

/-!
# Enumerations

The Blueprint enumerations of the plugin, and the part of libwebsockets' public
enumerations that it names. The token indexes are those of the configuration the
plugin ships, with the WebSocket, HTTP/2 and uncommon-header tokens included.
-/

namespace HttpLws

/-- `ELwsKnownHeaders`: the headers a Blueprint can pick by name. -/
inductive ELwsKnownHeaders
  | none
  | lwsHeaderXAuthToken | lwsHeaderAuthorization | lwsHeaderWwwAuthorization
  | lwsHeaderProxyAuthenticate | lwsHeaderProxyAuthorization
  | lwsHeaderAccept | lwsHeaderAcceptEncoding
  | lwsHeaderContentType | lwsHeaderContentLenght
  | lwsHeaderHost | lwsHeaderOrigin | lwsHeaderConnection | lwsHeaderUserAgent
  | lwsHeaderAccessControlOrigin
  deriving DecidableEq

/-- `ELwsResponseStatus`: the status a Blueprint asks for. -/
inductive ELwsResponseStatus
  | lwsHttpContinue | lwsHttpOk | lwsHttpNoContent | lwsHttpPartialContent
  | lwsHttpBadRequest | lwsHttpNotFound | lwsHttpIntServerError
  deriving DecidableEq

/-- `ELwsContentType`: the type of the response body. -/
inductive ELwsContentType
  | lwsApplicationJson | lwsTextPlain | lwsTextHtml
  deriving DecidableEq

/-- `lws_token_indexes`, up to the last token with storage. -/
inductive LwsTokenIndexes
  | wsiTokenGetUri | wsiTokenPostUri | wsiTokenOptionsUri | wsiTokenHost | wsiTokenConnection
  | wsiTokenUpgrade | wsiTokenOrigin | wsiTokenDraft | wsiTokenChallenge | wsiTokenExtensions
  | wsiTokenKey1 | wsiTokenKey2 | wsiTokenProtocol | wsiTokenAccept | wsiTokenNonce
  | wsiTokenHttp | wsiTokenHttp2Settings | wsiTokenHttpAccept | wsiTokenHttpAcRequestHeaders
  | wsiTokenHttpIfModifiedSince | wsiTokenHttpIfNoneMatch | wsiTokenHttpAcceptEncoding
  | wsiTokenHttpAcceptLanguage | wsiTokenHttpPragma | wsiTokenHttpCacheControl
  | wsiTokenHttpAuthorization | wsiTokenHttpCookie | wsiTokenHttpContentLength
  | wsiTokenHttpContentType | wsiTokenHttpDate | wsiTokenHttpRange | wsiTokenHttpReferer
  | wsiTokenKey | wsiTokenVersion | wsiTokenSworigin | wsiTokenHttpColonAuthority
  | wsiTokenHttpColonMethod | wsiTokenHttpColonPath | wsiTokenHttpColonScheme
  | wsiTokenHttpColonStatus | wsiTokenHttpAcceptCharset | wsiTokenHttpAcceptRanges
  | wsiTokenHttpAccessControlAllowOrigin | wsiTokenHttpAge | wsiTokenHttpAllow
  | wsiTokenHttpContentDisposition | wsiTokenHttpContentEncoding | wsiTokenHttpContentLanguage
  | wsiTokenHttpContentLocation | wsiTokenHttpContentRange | wsiTokenHttpEtag
  | wsiTokenHttpExpect | wsiTokenHttpExpires | wsiTokenHttpFrom | wsiTokenHttpIfMatch
  | wsiTokenHttpIfRange | wsiTokenHttpIfUnmodifiedSince | wsiTokenHttpLastModified
  | wsiTokenHttpLink | wsiTokenHttpLocation | wsiTokenHttpMaxForwards
  | wsiTokenHttpProxyAuthenticate | wsiTokenHttpProxyAuthorization | wsiTokenHttpRefresh
  | wsiTokenHttpRetryAfter | wsiTokenHttpServer | wsiTokenHttpSetCookie
  | wsiTokenHttpStrictTransportSecurity | wsiTokenHttpTransferEncoding | wsiTokenHttpUserAgent
  | wsiTokenHttpVary | wsiTokenHttpVia | wsiTokenHttpWwwAuthenticate | wsiTokenPatchUri
  | wsiTokenPutUri | wsiTokenDeleteUri | wsiTokenHttpUriArgs | wsiTokenProxy
  | wsiTokenHttpXRealIp | wsiTokenHttp10 | wsiTokenXForwardedFor | wsiTokenConnect
  | wsiTokenHeadUri | wsiTokenTe | wsiTokenReplayNonce | wsiTokenColonProtocol
  | wsiTokenXAuthToken | wsiTokenDssSignature | wsiTokenClientSentProtocols
  | wsiTokenClientPeerAddress | wsiTokenClientUri | wsiTokenClientHost | wsiTokenClientOrigin
  | wsiTokenClientMethod | wsiTokenClientIface | wsiTokenClientLocalport | wsiTokenClientAlpn
  deriving DecidableEq

/-- The callback reasons that the plugin names; any other reason by its number. -/
inductive LwsCallbackReasons
  | lwsCallbackHttp | lwsCallbackHttpBody | lwsCallbackFilterHttpConnection
  | lwsCallbackClosedHttp | lwsCallbackWsiDestroy
  | other (number : ℕ)
  deriving DecidableEq

/-- The write protocols that the plugin passes to `lws_write`. -/
inductive LwsWriteProtocol
  | lwsWriteHttp | lwsWriteHttpHeaders
  deriving DecidableEq

/-- `HTTP_STATUS_OK` -/
def httpStatusOk : ℕ := 200

/-- The strings of `lws_token_to_string` for the tokens that responses use. -/
def responseTokenStrings : List (LwsTokenIndexes × String) :=
  [(.wsiTokenXAuthToken, "x-auth-token:"),
    (.wsiTokenHttpAuthorization, "authorization:"),
    (.wsiTokenHttpWwwAuthenticate, "www-authenticate:"),
    (.wsiTokenHttpProxyAuthenticate, "proxy-authenticate:"),
    (.wsiTokenHttpProxyAuthorization, "proxy-authorization:"),
    (.wsiTokenHttpAccept, "accept:"),
    (.wsiTokenHttpAcceptEncoding, "accept-encoding:"),
    (.wsiTokenHttpContentType, "content-type:"),
    (.wsiTokenHttpContentLength, "content-length:"),
    (.wsiTokenHost, "host:"),
    (.wsiTokenOrigin, "origin:"),
    (.wsiTokenConnection, "connection:"),
    (.wsiTokenHttpUserAgent, "user-agent:"),
    (.wsiTokenHttpAccessControlAllowOrigin, "access-control-allow-origin:")]

end HttpLws
