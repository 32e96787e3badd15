import Doormat.Library.Bytes

/-! The data model of `http_parser.h` and `http_parser.c`: the enumerations,
the parser record and its initial value. Constructors keep the source's names
in camel case, without the `s_`, `h_`, `F_` and `HPE_` prefixes. -/
namespace Doormat.Parser

open Bytes

/-- `enum http_method`, in the order of `HTTP_METHOD_MAP`. -/
inductive HttpMethod
  | DELETE | GET | HEAD | POST | PUT
  | CONNECT | OPTIONS | TRACE
  | COPY | LOCK | MKCOL | MOVE | PROPFIND | PROPPATCH | SEARCH | UNLOCK | BIND | REBIND
  | UNBIND | ACL
  | REPORT | MKACTIVITY | CHECKOUT | MERGE
  | MSEARCH | NOTIFY | SUBSCRIBE | UNSUBSCRIBE
  | PATCH | PURGE
  | MKCALENDAR
  | LINK | UNLINK
  | END
deriving DecidableEq, Repr

/-- `method_strings`. The terminating zero byte is the absence of an entry. -/
def HttpMethod.string : HttpMethod → ByteString
  | .DELETE => ofString "DELETE" | .GET => ofString "GET" | .HEAD => ofString "HEAD"
  | .POST => ofString "POST" | .PUT => ofString "PUT"
  | .CONNECT => ofString "CONNECT" | .OPTIONS => ofString "OPTIONS" | .TRACE => ofString "TRACE"
  | .COPY => ofString "COPY" | .LOCK => ofString "LOCK" | .MKCOL => ofString "MKCOL"
  | .MOVE => ofString "MOVE" | .PROPFIND => ofString "PROPFIND"
  | .PROPPATCH => ofString "PROPPATCH" | .SEARCH => ofString "SEARCH"
  | .UNLOCK => ofString "UNLOCK" | .BIND => ofString "BIND" | .REBIND => ofString "REBIND"
  | .UNBIND => ofString "UNBIND" | .ACL => ofString "ACL"
  | .REPORT => ofString "REPORT" | .MKACTIVITY => ofString "MKACTIVITY"
  | .CHECKOUT => ofString "CHECKOUT" | .MERGE => ofString "MERGE"
  | .MSEARCH => ofString "M-SEARCH" | .NOTIFY => ofString "NOTIFY"
  | .SUBSCRIBE => ofString "SUBSCRIBE" | .UNSUBSCRIBE => ofString "UNSUBSCRIBE"
  | .PATCH => ofString "PATCH" | .PURGE => ofString "PURGE"
  | .MKCALENDAR => ofString "MKCALENDAR"
  | .LINK => ofString "LINK" | .UNLINK => ofString "UNLINK"
  | .END => []

/-- `enum http_parser_type`. -/
inductive ParserType
  | request
  | response
  | both
deriving DecidableEq, Repr

/-- The bits of `http_parser.flags`. -/
structure Flags where
  chunked : Bool := false
  connectionKeepAlive : Bool := false
  connectionClose : Bool := false
  connectionUpgrade : Bool := false
  trailing : Bool := false
  upgrade : Bool := false
  skipbody : Bool := false
  contentlength : Bool := false
deriving DecidableEq, Repr

/-- `enum http_errno` without `HPE_OK`, which is the absence of an error. -/
inductive Errno
  | cbMessageBegin | cbUrl | cbHeaderField | cbHeaderValue | cbHeadersComplete
  | cbBody | cbMessageComplete | cbStatus | cbChunkHeader | cbChunkComplete
  | invalidEofState | headerOverflow | closedConnection
  | invalidVersion | invalidStatus | invalidMethod | invalidUrl
  | invalidHost | invalidPort | invalidPath | invalidQueryString | invalidFragment
  | lfExpected | invalidHeaderToken | invalidContentLength | unexpectedContentLength
  | invalidChunkSize | invalidConstant | invalidInternalState
  | strict | paused | unknown
deriving DecidableEq, Repr

/-- `enum state`. -/
inductive State
  | dead
  | startReqOrRes
  | resOrRespH
  | startRes
  | resH | resHT | resHTT | resHTTP
  | resFirstHttpMajor | resHttpMajor | resFirstHttpMinor | resHttpMinor
  | resFirstStatusCode | resStatusCode
  | resStatusStart | resStatus
  | resLineAlmostDone
  | startReq
  | reqMethod
  | reqSpacesBeforeUrl
  | reqSchema | reqSchemaSlash | reqSchemaSlashSlash
  | reqServerStart | reqServer | reqServerWithAt
  | reqPath
  | reqQueryStringStart | reqQueryString
  | reqFragmentStart | reqFragment
  | reqHttpStart
  | reqHttpH | reqHttpHT | reqHttpHTT | reqHttpHTTP
  | reqFirstHttpMajor | reqHttpMajor | reqFirstHttpMinor | reqHttpMinor
  | reqLineAlmostDone
  | headerFieldStart
  | headerField
  | headerValueDiscardWs | headerValueDiscardWsAlmostDone | headerValueDiscardLws
  | headerValueStart
  | headerValue
  | headerValueLws
  | headerAlmostDone
  | chunkSizeStart | chunkSize | chunkParameters | chunkSizeAlmostDone
  | headersAlmostDone
  | headersDone
  | chunkData | chunkDataAlmostDone | chunkDataDone
  | bodyIdentity | bodyIdentityEof
  | messageDone
deriving DecidableEq, Repr

/-- `PARSING_HEADER(state)`: every state up to `s_headers_done`. -/
def State.parsingHeader : State → Bool
  | .chunkData | .chunkDataAlmostDone | .chunkDataDone
  | .bodyIdentity | .bodyIdentityEof | .messageDone => false
  | _ => true

/-- `enum header_states`. -/
inductive HeaderState
  | general
  | C | CO | CON
  | matchingConnection | matchingProxyConnection | matchingContentLength
  | matchingTransferEncoding | matchingUpgrade
  | connection | contentLength | transferEncoding | upgrade
  | matchingTransferEncodingChunked
  | matchingConnectionTokenStart
  | matchingConnectionKeepAlive | matchingConnectionClose | matchingConnectionUpgrade
  | matchingConnectionToken
  | transferEncodingChunked
  | connectionKeepAlive | connectionClose | connectionUpgrade
deriving DecidableEq, Repr

/-- `ULLONG_MAX`, the content length of a message that has not stated one. -/
def ullongMax : Nat := 2 ^ 64 - 1

/-- `HTTP_MAX_HEADER_SIZE`. -/
def httpMaxHeaderSize : Nat := 80 * 1024

/-- `struct http_parser` but for `nread`, which only the byte count of the header
section touches, and for `http_errno`, which is clear while the parser runs.
`lenient_http_headers` is left out: `http_parser_init` clears it and nothing in the
repository sets it. -/
structure Fields where
  type : ParserType
  flags : Flags
  state : State
  headerState : HeaderState
  index : Nat
  contentLength : Nat
  httpMajor : Nat
  httpMinor : Nat
  statusCode : Nat
  method : HttpMethod
  upgrade : Bool
deriving DecidableEq, Repr

/-- `struct http_parser`. -/
structure HttpParser extends Fields where
  nread : Nat
  errno : Option Errno
deriving DecidableEq, Repr

/-- `http_parser_init`: every field zero, then the type, its first state and
`HPE_OK`. -/
def HttpParser.init (t : ParserType) : HttpParser where
  type := t
  flags := {}
  state := match t with
    | .request => .startReq
    | .response => .startRes
    | .both => .startReqOrRes
  headerState := .general
  index := 0
  contentLength := 0
  httpMajor := 0
  httpMinor := 0
  statusCode := 0
  method := .DELETE
  upgrade := false
  nread := 0
  errno := none

/-- `http_message_needs_eof`: is the end of the message the end of the stream? -/
def Fields.messageNeedsEof (p : Fields) : Bool :=
  if p.type = .request then false
  else if p.statusCode / 100 = 1 || p.statusCode = 204 || p.statusCode = 304 ||
      p.flags.skipbody then false
  else if p.flags.chunked || p.contentLength ≠ ullongMax then false
  else true

/-- `http_should_keep_alive`. -/
def Fields.shouldKeepAlive (p : Fields) : Bool :=
  if p.httpMajor > 0 && p.httpMinor > 0 then
    if p.flags.connectionClose then false else !p.messageNeedsEof
  else
    if !p.flags.connectionKeepAlive then false else !p.messageNeedsEof

/-- `http_body_is_final`. -/
def Fields.bodyIsFinal (p : Fields) : Bool := p.state = .messageDone

/-- `start_state`. -/
def Fields.startState (p : Fields) : State :=
  if p.type = .request then .startReq else .startRes

/-- `NEW_MESSAGE()` in strict mode. -/
def Fields.newMessage (p : Fields) : State :=
  if p.shouldKeepAlive then p.startState else .dead

end Doormat.Parser
