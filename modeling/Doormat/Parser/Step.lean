import Doormat.Parser.Url

/-! One byte of `http_parser_execute`. A step is a `Prog`: a program over the
macros of the source (`MARK`, `COUNT_HEADER_SIZE`, `CALLBACK_NOTIFY`,
`CALLBACK_DATA`), which names the callbacks in the order the code calls them and
goes on with what a callback returned. It looks neither at the five mark
pointers nor at `nread`; those are kept by the interpreter of programs. -/
namespace Doormat.Parser

open Bytes

/-- The five `FOR##_mark` pointers. -/
inductive Mark
  | headerField | headerValue | url | body | status
deriving DecidableEq, Repr

/-- The callbacks that take only the parser and leave it as it is. -/
inductive Notification
  | messageBegin | chunkHeader | chunkComplete
deriving DecidableEq, Repr

/-- The `HPE_CB_*` code of a data callback that returned non-zero. -/
def Mark.errno : Mark → Errno
  | .headerField => .cbHeaderField
  | .headerValue => .cbHeaderValue
  | .url => .cbUrl
  | .body => .cbBody
  | .status => .cbStatus

/-- The `HPE_CB_*` code of a notification that returned non-zero. -/
def Notification.errno : Notification → Errno
  | .messageBegin => .cbMessageBegin
  | .chunkHeader => .cbChunkHeader
  | .chunkComplete => .cbChunkComplete

/-- Which loop reads the next byte: the outer one, or the inner one of
`s_header_field` or `s_header_value`, which has read `p - start` bytes. `skip`
counts the bytes since `memchr` began to look for the end of a value that nobody
matches. -/
inductive Loop
  | outer
  | field (read : Nat)
  | value (read : Nat) (hState : HeaderState) (skip : Option Nat)
deriving DecidableEq, Repr

/-- What the code does with one byte. -/
inductive Prog
  /-- `break` out of the switch; the next byte is read in `loop`. -/
  | next (p : Fields) (loop : Loop)
  /-- Return without an error; the bytes up to the current one are parsed. -/
  | leave (p : Fields)
  /-- `SET_ERRNO(e); goto error`: return, the current byte not parsed. -/
  | fail (p : Fields) (e : Errno)
  /-- A failed assertion. -/
  | abort
  /-- `MARK(FOR)`. -/
  | mark (m : Mark) (k : Prog)
  /-- `CALLBACK_DATA(FOR)`, and `CALLBACK_DATA_NOADVANCE` without `advance`. With
  `inclusive` the data ends after the current byte. -/
  | data (p : Fields) (m : Mark) (inclusive advance : Bool) (k : Prog)
  /-- `COUNT_HEADER_SIZE(v)`. -/
  | count (p : Fields) (v : Nat) (k : Prog)
  /-- `parser->nread = 0`. -/
  | clearNread (k : Prog)
  /-- `assert(parser->nread == v)`. -/
  | assertNread (v : Nat) (k : Prog)
  /-- `CALLBACK_NOTIFY(FOR)`, and `CALLBACK_NOTIFY_NOADVANCE` without `advance`. -/
  | notify (p : Fields) (c : Notification) (advance : Bool) (k : Prog)
  /-- The call of `on_headers_complete`, whose result the code looks at. -/
  | headersComplete (p : Fields) (k : Nat → Prog)
  /-- `CALLBACK_NOTIFY(message_complete)`: here the callback may change the parser. -/
  | messageComplete (p : Fields) (k : Fields → Prog)

namespace Fields

/-- `break`. -/
def advance (p : Fields) : Prog := .next p .outer

/-- `SET_ERRNO(e); goto error`. -/
def fail (p : Fields) (e : Errno) : Prog := .fail p e

/-- `UPDATE_STATE(s)`. -/
def updateState (p : Fields) (s : State) : Fields := { p with state := s }

/-- `STRICT_CHECK(cond)`. -/
def strictCheck (p : Fields) (cond : Prop) [Decidable cond] (k : Prog) : Prog :=
  if cond then p.fail .strict else k

/-- Start of a message: `flags = 0`, `content_length = ULLONG_MAX`. -/
def clearMessage (p : Fields) : Fields := { p with flags := {}, contentLength := ullongMax }

end Fields

/-- `assert(cond)`. -/
def assert (cond : Bool) (k : Prog) : Prog := if cond then k else .abort

/-- The method guessed from its first letter in `s_start_req`. -/
def methodOfFirst (ch : UInt8) : Option HttpMethod :=
  ([('A', .ACL), ('B', .BIND), ('C', .CONNECT), ('D', .DELETE), ('G', .GET), ('H', .HEAD),
    ('L', .LOCK), ('M', .MKCOL), ('N', .NOTIFY), ('O', .OPTIONS), ('P', .POST), ('R', .REPORT),
    ('S', .SUBSCRIBE), ('T', .TRACE), ('U', .UNLOCK)] : List (Char × HttpMethod)).lookup
      (Char.ofUInt8 ch)

/-- The table in `s_req_method` that replaces a guess at a letter that differs. -/
def methodSwitch (method : HttpMethod) (index : Nat) (ch : UInt8) : Option HttpMethod :=
  ([((.POST, 1, 'U'), .PUT), ((.POST, 1, 'A'), .PATCH), ((.CONNECT, 1, 'H'), .CHECKOUT),
    ((.CONNECT, 2, 'P'), .COPY), ((.MKCOL, 1, 'O'), .MOVE), ((.MKCOL, 1, 'E'), .MERGE),
    ((.MKCOL, 2, 'A'), .MKACTIVITY), ((.MKCOL, 3, 'A'), .MKCALENDAR),
    ((.SUBSCRIBE, 1, 'E'), .SEARCH), ((.REPORT, 2, 'B'), .REBIND), ((.POST, 1, 'R'), .PROPFIND),
    ((.PROPFIND, 4, 'P'), .PROPPATCH), ((.PUT, 2, 'R'), .PURGE), ((.LOCK, 1, 'I'), .LINK),
    ((.UNLOCK, 2, 'S'), .UNSUBSCRIBE), ((.UNLOCK, 2, 'B'), .UNBIND),
    ((.UNLOCK, 3, 'I'), .UNLINK)] :
      List ((HttpMethod × Nat × Char) × HttpMethod)).lookup (method, index, Char.ofUInt8 ch)

def startReq (p : Fields) (ch : UInt8) : Prog :=
  if ch = CR ∨ ch = LF then p.advance
  else
    let p := p.clearMessage
    if !isAlpha ch then p.fail .invalidMethod
    else
      let p := { p with method := .DELETE, index := 1 }
      match methodOfFirst ch with
      | none => p.fail .invalidMethod
      | some m =>
          let p := { p with method := m, state := .reqMethod }
          .notify p .messageBegin true p.advance

def startReqOrRes (p : Fields) (ch : UInt8) : Prog :=
  if ch = CR ∨ ch = LF then p.advance
  else
    let p := p.clearMessage
    if ch = 'H'.toUInt8 then
      let p := p.updateState .resOrRespH
      .notify p .messageBegin true p.advance
    else startReq { p with type := .request, state := .startReq } ch

def resOrRespH (p : Fields) (ch : UInt8) : Prog :=
  if ch = 'T'.toUInt8 then { p with type := .response, state := .resHT : Fields }.advance
  else if ch ≠ 'E'.toUInt8 then p.fail .invalidConstant
  else
    { p with type := .request, method := .HEAD, index := 2, state := .reqMethod : Fields }.advance

def startRes (p : Fields) (ch : UInt8) : Prog :=
  let p := p.clearMessage
  if ch = 'H'.toUInt8 then
    let p := p.updateState .resH
    .notify p .messageBegin true p.advance
  else if ch = CR ∨ ch = LF then .notify p .messageBegin true p.advance
  else p.fail .invalidConstant

/-- A state of the literal `HTTP/`: one expected byte, then the next state. -/
def literal (p : Fields) (ch expected : UInt8) (s : State) : Prog :=
  p.strictCheck (ch ≠ expected) (p.updateState s).advance

def firstHttpMajor (p : Fields) (ch lowest : UInt8) (s : State) : Prog :=
  if ch < lowest ∨ ch > '9'.toUInt8 then p.fail .invalidVersion
  else { p with httpMajor := digitValue ch, state := s : Fields }.advance

/-- A further digit of the major version. This field, the minor version and the status code
are 16 bits wide. -/
def httpMajor (p : Fields) (ch : UInt8) (minor : State) : Prog :=
  if ch = '.'.toUInt8 then (p.updateState minor).advance
  else if !isNum ch then p.fail .invalidVersion
  else
    let p := { p with httpMajor := (p.httpMajor * 10 + digitValue ch) % 2 ^ 16 }
    if p.httpMajor > 999 then p.fail .invalidVersion else p.advance

def firstHttpMinor (p : Fields) (ch : UInt8) (s : State) : Prog :=
  if !isNum ch then p.fail .invalidVersion
  else { p with httpMinor := digitValue ch, state := s : Fields }.advance

/-- A further digit of the minor version. -/
def httpMinorDigit (p : Fields) (ch : UInt8) : Prog :=
  if !isNum ch then p.fail .invalidVersion
  else
    let p := { p with httpMinor := (p.httpMinor * 10 + digitValue ch) % 2 ^ 16 }
    if p.httpMinor > 999 then p.fail .invalidVersion else p.advance

def resHttpMinor (p : Fields) (ch : UInt8) : Prog :=
  if ch = SP then (p.updateState .resFirstStatusCode).advance else httpMinorDigit p ch

def resFirstStatusCode (p : Fields) (ch : UInt8) : Prog :=
  if !isNum ch then
    if ch = SP then p.advance else p.fail .invalidStatus
  else { p with statusCode := digitValue ch, state := .resStatusCode : Fields }.advance

def resStatusCode (p : Fields) (ch : UInt8) : Prog :=
  if !isNum ch then
    if ch = SP then (p.updateState .resStatusStart).advance
    else if ch = CR then (p.updateState .resLineAlmostDone).advance
    else if ch = LF then (p.updateState .headerFieldStart).advance
    else p.fail .invalidStatus
  else
    let p := { p with statusCode := (p.statusCode * 10 + digitValue ch) % 2 ^ 16 }
    if p.statusCode > 999 then p.fail .invalidStatus else p.advance

def resStatusStart (p : Fields) (ch : UInt8) : Prog :=
  if ch = CR then (p.updateState .resLineAlmostDone).advance
  else if ch = LF then (p.updateState .headerFieldStart).advance
  else .mark .status { p with state := .resStatus, index := 0 : Fields }.advance

def resStatus (p : Fields) (ch : UInt8) : Prog :=
  if ch = CR then
    let p := p.updateState .resLineAlmostDone
    .data p .status false true p.advance
  else if ch = LF then
    let p := p.updateState .headerFieldStart
    .data p .status false true p.advance
  else p.advance

def reqMethod (p : Fields) (ch : UInt8) : Prog :=
  if ch = 0 then p.fail .invalidMethod
  else
    let matcher := p.method.string[p.index]?
    let step (p : Fields) : Prog := { p with index := p.index + 1 : Fields }.advance
    if ch = SP ∧ matcher = none then step (p.updateState .reqSpacesBeforeUrl)
    else if matcher = some ch then step p
    else if isAlpha ch then
      match methodSwitch p.method p.index ch with
      | some m => step { p with method := m }
      | none => p.fail .invalidMethod
    else if ch = '-'.toUInt8 ∧ p.index = 1 ∧ p.method = .MKCOL then
      step { p with method := .MSEARCH }
    else p.fail .invalidMethod

/-- One byte of the target in any of the URL states. -/
def urlByte (p : Fields) (ch : UInt8) : Prog :=
  let p := p.updateState (parseUrlChar p.state ch)
  if p.state = .dead then p.fail .invalidUrl else p.advance

def reqSpacesBeforeUrl (p : Fields) (ch : UInt8) : Prog :=
  if ch = SP then p.advance
  else .mark .url <| urlByte (if p.method = .CONNECT then p.updateState .reqServerStart else p) ch

/-- The URL states in which the target cannot end. -/
def urlStart (p : Fields) (ch : UInt8) : Prog :=
  if ch = SP ∨ ch = CR ∨ ch = LF then p.fail .invalidUrl else urlByte p ch

/-- The URL states in which a space or a line end closes the target. -/
def urlRest (p : Fields) (ch : UInt8) : Prog :=
  if ch = SP then
    let p := p.updateState .reqHttpStart
    .data p .url false true p.advance
  else if ch = CR ∨ ch = LF then
    let p := { p with
      httpMajor := 0, httpMinor := 9
      state := if ch = CR then .reqLineAlmostDone else .headerFieldStart }
    .data p .url false true p.advance
  else urlByte p ch

def reqHttpStart (p : Fields) (ch : UInt8) : Prog :=
  if ch = 'H'.toUInt8 then (p.updateState .reqHttpH).advance
  else if ch = SP then p.advance
  else p.fail .invalidConstant

def reqHttpMinor (p : Fields) (ch : UInt8) : Prog :=
  if ch = CR then (p.updateState .reqLineAlmostDone).advance
  else if ch = LF then (p.updateState .headerFieldStart).advance
  else httpMinorDigit p ch

def reqLineAlmostDone (p : Fields) (ch : UInt8) : Prog :=
  if ch ≠ LF then p.fail .lfExpected else (p.updateState .headerFieldStart).advance

/-- The case `s_message_done`. -/
def messageDone (p : Fields) : Prog :=
  .messageComplete (p.updateState p.newMessage) fun p =>
    if p.upgrade then .leave p else p.advance

/-- The case `s_headers_done`. -/
def headersDone (p : Fields) (ch : UInt8) : Prog :=
  p.strictCheck (ch ≠ LF) <| .clearNread <|
    let hasBody := p.flags.chunked || (p.contentLength > 0 && p.contentLength ≠ ullongMax)
    let finished := Prog.messageComplete (p.updateState p.newMessage)
    if p.upgrade && (p.method = .CONNECT || p.flags.skipbody || !hasBody) then
      finished fun p => .leave p
    else if p.flags.skipbody then finished Fields.advance
    else if p.flags.chunked then (p.updateState .chunkSizeStart).advance
    else if p.contentLength = 0 then finished Fields.advance
    else if p.contentLength ≠ ullongMax then (p.updateState .bodyIdentity).advance
    else if !p.messageNeedsEof then finished Fields.advance
    else (p.updateState .bodyIdentityEof).advance

/-- The case `s_headers_almost_done`. -/
def headersAlmostDone (p : Fields) (ch : UInt8) : Prog :=
  p.strictCheck (ch ≠ LF) <|
    if p.flags.trailing then
      let p := p.updateState .messageDone
      .notify p .chunkComplete false (messageDone p)
    else if p.flags.chunked && p.flags.contentlength then p.fail .unexpectedContentLength
    else
      let p := { p with
        state := .headersDone
        upgrade := (p.flags.upgrade && p.flags.connectionUpgrade) || p.method = .CONNECT }
      .headersComplete p fun
        | 0 => headersDone p ch
        | 1 => headersDone { p with flags := { p.flags with skipbody := true } } ch
        | _ => p.fail .cbHeadersComplete

/-- What the first character of a header name may lead to. -/
def firstHeaderState (c : UInt8) : HeaderState :=
  if c = 'c'.toUInt8 then .C
  else if c = 'p'.toUInt8 then .matchingProxyConnection
  else if c = 't'.toUInt8 then .matchingTransferEncoding
  else if c = 'u'.toUInt8 then .matchingUpgrade
  else .general

def headerFieldStart (p : Fields) (ch : UInt8) : Prog :=
  if ch = CR then (p.updateState .headersAlmostDone).advance
  else if ch = LF then headersAlmostDone (p.updateState .headersAlmostDone) ch
  else
    let c := token ch
    if c = 0 then p.fail .invalidHeaderToken
    else
      .mark .headerField { p with
        state := .headerField, index := 0, headerState := firstHeaderState c : Fields }.advance

/-- A step of matching a name or a value against a constant: the character at the
next index, which past the end of the constant no character equals. -/
def matchNext (p : Fields) (c : UInt8) (constant : ByteString) (done other : HeaderState)
    (h : HeaderState) : Fields × HeaderState :=
  let p := { p with index := p.index + 1 }
  if constant[p.index]? ≠ some c then (p, other)
  else if p.index + 1 = constant.length then (p, done)
  else (p, h)

/-- What the switch of an inner loop does with a character: go on, stop with an
error, or fail an assertion. -/
inductive Switch (α : Type)
  | go (a : α)
  | error (p : Fields) (e : Errno)
  | abort

/-- The switch in the loop of `s_header_field`. -/
def fieldSwitch (p : Fields) (ch c : UInt8) : Switch Fields :=
  let goto (p : Fields) (h : HeaderState) : Switch Fields := .go { p with headerState := h }
  let next := { p with index := p.index + 1 }
  let name (constant : ByteString) (done : HeaderState) : Switch Fields :=
    let (p, h) := matchNext p c constant done .general p.headerState
    goto p h
  match p.headerState with
  | .general => .go p
  | .C => goto next (if c = 'o'.toUInt8 then .CO else .general)
  | .CO => goto next (if c = 'n'.toUInt8 then .CON else .general)
  | .CON =>
      goto next (if c = 'n'.toUInt8 then .matchingConnection
        else if c = 't'.toUInt8 then .matchingContentLength
        else .general)
  | .matchingConnection => name (ofString "connection") .connection
  | .matchingProxyConnection => name (ofString "proxy-connection") .connection
  | .matchingContentLength =>
      let (p, h) := matchNext p c (ofString "content-length") .contentLength .general p.headerState
      if h = .contentLength then
        if p.flags.contentlength then .error p .unexpectedContentLength
        else goto { p with flags := { p.flags with contentlength := true } } h
      else goto p h
  | .matchingTransferEncoding => name (ofString "transfer-encoding") .transferEncoding
  | .matchingUpgrade => name (ofString "upgrade") .upgrade
  | .connection | .contentLength | .transferEncoding | .upgrade =>
      if ch ≠ SP then goto p .general else .go p
  | _ => .abort

/-- The loop of `s_header_field` at a byte, after `read` bytes. -/
def headerField (p : Fields) (ch : UInt8) (read : Nat) : Prog :=
  let c := token ch
  if c = 0 then
    .count p read <|
      if ch = ':'.toUInt8 then
        let p := p.updateState .headerValueDiscardWs
        .data p .headerField false true p.advance
      else p.fail .invalidHeaderToken
  else match fieldSwitch p ch c with
    | .go p => .next p (.field (read + 1))
    | .error p e => p.fail e
    | .abort => .abort

/-- The switch in `s_header_value_start`. -/
def valueStartSwitch (p : Fields) (ch c : UInt8) : Switch Fields :=
  let goto (h : HeaderState) : Switch Fields := .go { p with headerState := h }
  match p.headerState with
  | .upgrade => .go { p with flags := { p.flags with upgrade := true }, headerState := .general }
  | .transferEncoding =>
      goto (if c = 'c'.toUInt8 then .matchingTransferEncodingChunked else .general)
  | .contentLength =>
      if !isNum ch then .error p .invalidContentLength
      else .go { p with contentLength := digitValue ch }
  | .connection =>
      goto (if c = 'k'.toUInt8 then .matchingConnectionKeepAlive
        else if c = 'c'.toUInt8 then .matchingConnectionClose
        else if c = 'u'.toUInt8 then .matchingConnectionUpgrade
        else .matchingConnectionToken)
  | .matchingConnectionTokenStart => .go p
  | _ => goto .general

def headerValueStart (p : Fields) (ch : UInt8) : Prog :=
  .mark .headerValue <|
    match valueStartSwitch { p with state := .headerValue, index := 0 } ch (LOWER ch) with
    | .go p => p.advance
    | .error p e => p.fail e
    | .abort => .abort

def headerValueDiscardWs (p : Fields) (ch : UInt8) : Prog :=
  if ch = SP ∨ ch = HT then p.advance
  else if ch = CR then (p.updateState .headerValueDiscardWsAlmostDone).advance
  else if ch = LF then (p.updateState .headerValueDiscardLws).advance
  else headerValueStart p ch

/-- The flag that a finished header line sets. -/
def finishHeader (p : Fields) : Fields :=
  match p.headerState with
  | .connectionKeepAlive => { p with flags := { p.flags with connectionKeepAlive := true } }
  | .connectionClose => { p with flags := { p.flags with connectionClose := true } }
  | .transferEncodingChunked => { p with flags := { p.flags with chunked := true } }
  | .connectionUpgrade => { p with flags := { p.flags with connectionUpgrade := true } }
  | _ => p

def headerValueLws (p : Fields) (ch : UInt8) : Prog :=
  if ch = SP ∨ ch = HT then headerValueStart (p.updateState .headerValueStart) ch
  else headerFieldStart ((finishHeader p).updateState .headerFieldStart) ch

def headerAlmostDone (p : Fields) (ch : UInt8) : Prog :=
  if ch ≠ LF then p.fail .lfExpected else (p.updateState .headerValueLws).advance

def headerValueDiscardLws (p : Fields) (ch : UInt8) : Prog :=
  if ch = SP ∨ ch = HT then (p.updateState .headerValueDiscardWs).advance
  else
    -- the header value was empty
    let p := (finishHeader p).updateState .headerFieldStart
    .mark .headerValue <| .data p .headerValue false false <| headerFieldStart p ch

/-- The switch in the loop of `s_header_value`, with the local `h_state`. -/
def valueSwitch (p : Fields) (h : HeaderState) (ch c : UInt8) : Switch (Fields × HeaderState) :=
  let goto (h : HeaderState) : Switch (Fields × HeaderState) := .go (p, h)
  let value (constant : ByteString) (done other : HeaderState) : Switch (Fields × HeaderState) :=
    .go (matchNext p c constant done other h)
  let listed (set : Flags → Flags) : Switch (Fields × HeaderState) :=
    if ch = ','.toUInt8 then
      .go ({ p with flags := set p.flags, index := 0 }, .matchingConnectionTokenStart)
    else if ch ≠ SP then goto .matchingConnectionToken
    else goto h
  match h with
  | .general => goto .general
  | .connection | .transferEncoding => .abort
  | .contentLength =>
      if ch = SP then goto h
      else if !isNum ch then .error p .invalidContentLength
      else if (ullongMax - 10) / 10 < p.contentLength then .error p .invalidContentLength
      else .go ({ p with contentLength := p.contentLength * 10 + digitValue ch }, h)
  | .matchingTransferEncodingChunked =>
      value (ofString "chunked") .transferEncodingChunked .general
  | .matchingConnectionTokenStart =>
      if c = 'k'.toUInt8 then goto .matchingConnectionKeepAlive
      else if c = 'c'.toUInt8 then goto .matchingConnectionClose
      else if c = 'u'.toUInt8 then goto .matchingConnectionUpgrade
      else if token c ≠ 0 then goto .matchingConnectionToken
      else if c = SP ∨ c = HT then goto h
      else goto .general
  | .matchingConnectionKeepAlive =>
      value (ofString "keep-alive") .connectionKeepAlive .matchingConnectionToken
  | .matchingConnectionClose => value (ofString "close") .connectionClose .matchingConnectionToken
  | .matchingConnectionUpgrade =>
      value (ofString "upgrade") .connectionUpgrade .matchingConnectionToken
  | .matchingConnectionToken =>
      if ch = ','.toUInt8 then .go ({ p with index := 0 }, .matchingConnectionTokenStart) else goto h
  | .transferEncodingChunked => if ch ≠ SP then goto .general else goto h
  | .connectionKeepAlive => listed fun f => { f with connectionKeepAlive := true }
  | .connectionClose => listed fun f => { f with connectionClose := true }
  | .connectionUpgrade => listed fun f => { f with connectionUpgrade := true }
  | _ => .go ({ p with state := .headerValue }, .general)

/-- The head of the loop of `s_header_value`, after `read` bytes. -/
def headerValue (p : Fields) (ch : UInt8) (read : Nat) (h : HeaderState) : Prog :=
  if ch = CR then
    let p := { p with state := .headerAlmostDone, headerState := h }
    .data p .headerValue false true <| .count p read p.advance
  else if ch = LF then
    let p := p.updateState .headerAlmostDone
    .count p read <|
      let p := { p with headerState := h }
      .data p .headerValue false false <| headerAlmostDone p ch
  else if !isHeaderChar ch then p.fail .invalidHeaderToken
  else match valueSwitch p h ch (LOWER ch) with
    | .go (p, h') =>
        -- only the case h_general jumps ahead with memchr
        .next p (.value (read + 1) h' (if h = .general then some 1 else none))
    | .error p e => { p with headerState := h : Fields }.fail e
    | .abort => .abort

/-- The loop of `s_header_value` at a byte: while `memchr` is looking, only a line
end inside its window is seen. -/
def headerValueLoop (p : Fields) (ch : UInt8) (read : Nat) (h : HeaderState) :
    Option Nat → Prog
  | none => headerValue p ch read h
  | some k =>
      if (ch = CR ∨ ch = LF) ∧ k < httpMaxHeaderSize then headerValue p ch read h
      else .next p (.value (read + 1) h (some (k + 1)))

/-- `s_body_identity`. The source takes all available bytes at once; nothing
observes the parser in between. -/
def bodyIdentity (p : Fields) : Prog :=
  assert (p.contentLength ≠ 0 && p.contentLength ≠ ullongMax) <| .mark .body <|
    let p := { p with contentLength := p.contentLength - 1 }
    if p.contentLength = 0 then
      let p := p.updateState .messageDone
      .data p .body true false (messageDone p)
    else p.advance

def chunkSizeStart (p : Fields) (ch : UInt8) : Prog :=
  .assertNread 1 <| assert p.flags.chunked <|
    match unhex ch with
    | none => p.fail .invalidChunkSize
    | some v => { p with contentLength := v, state := .chunkSize : Fields }.advance

def chunkSize (p : Fields) (ch : UInt8) : Prog :=
  assert p.flags.chunked <|
    if ch = CR then (p.updateState .chunkSizeAlmostDone).advance
    else match unhex ch with
      | none =>
          if ch = ';'.toUInt8 ∨ ch = SP then (p.updateState .chunkParameters).advance
          else p.fail .invalidChunkSize
      | some v =>
          if (ullongMax - 16) / 16 < p.contentLength then p.fail .invalidContentLength
          else { p with contentLength := p.contentLength * 16 + v : Fields }.advance

def chunkParameters (p : Fields) (ch : UInt8) : Prog :=
  assert p.flags.chunked <|
    if ch = CR then (p.updateState .chunkSizeAlmostDone).advance else p.advance

def chunkSizeAlmostDone (p : Fields) (ch : UInt8) : Prog :=
  assert p.flags.chunked <| p.strictCheck (ch ≠ LF) <| .clearNread <|
    let p :=
      if p.contentLength = 0 then
        { p with flags := { p.flags with trailing := true }, state := .headerFieldStart }
      else p.updateState .chunkData
    .notify p .chunkHeader true p.advance

def chunkData (p : Fields) : Prog :=
  assert p.flags.chunked <|
    assert (p.contentLength ≠ 0 && p.contentLength ≠ ullongMax) <| .mark .body <|
      let p := { p with contentLength := p.contentLength - 1 }
      if p.contentLength = 0 then (p.updateState .chunkDataAlmostDone).advance else p.advance

def chunkDataAlmostDone (p : Fields) (ch : UInt8) : Prog :=
  assert p.flags.chunked <| assert (p.contentLength = 0) <| p.strictCheck (ch ≠ CR) <|
    let p := p.updateState .chunkDataDone
    .data p .body false true p.advance

def chunkDataDone (p : Fields) (ch : UInt8) : Prog :=
  assert p.flags.chunked <| p.strictCheck (ch ≠ LF) <| .clearNread <|
    let p := p.updateState .chunkSizeStart
    .notify p .chunkComplete true p.advance

/-- The switch over the state. -/
def dispatch (p : Fields) (ch : UInt8) : Prog :=
  match p.state with
  | .dead => if ch = CR ∨ ch = LF then p.advance else p.fail .closedConnection
  | .startReqOrRes => startReqOrRes p ch
  | .resOrRespH => resOrRespH p ch
  | .startRes => startRes p ch
  | .resH => literal p ch 'T'.toUInt8 .resHT
  | .resHT => literal p ch 'T'.toUInt8 .resHTT
  | .resHTT => literal p ch 'P'.toUInt8 .resHTTP
  | .resHTTP => literal p ch '/'.toUInt8 .resFirstHttpMajor
  | .resFirstHttpMajor => firstHttpMajor p ch '0'.toUInt8 .resHttpMajor
  | .resHttpMajor => httpMajor p ch .resFirstHttpMinor
  | .resFirstHttpMinor => firstHttpMinor p ch .resHttpMinor
  | .resHttpMinor => resHttpMinor p ch
  | .resFirstStatusCode => resFirstStatusCode p ch
  | .resStatusCode => resStatusCode p ch
  | .resStatusStart => resStatusStart p ch
  | .resStatus => resStatus p ch
  | .resLineAlmostDone => literal p ch LF .headerFieldStart
  | .startReq => startReq p ch
  | .reqMethod => reqMethod p ch
  | .reqSpacesBeforeUrl => reqSpacesBeforeUrl p ch
  | .reqSchema | .reqSchemaSlash | .reqSchemaSlashSlash | .reqServerStart => urlStart p ch
  | .reqServer | .reqServerWithAt | .reqPath | .reqQueryStringStart | .reqQueryString
  | .reqFragmentStart | .reqFragment => urlRest p ch
  | .reqHttpStart => reqHttpStart p ch
  | .reqHttpH => literal p ch 'T'.toUInt8 .reqHttpHT
  | .reqHttpHT => literal p ch 'T'.toUInt8 .reqHttpHTT
  | .reqHttpHTT => literal p ch 'P'.toUInt8 .reqHttpHTTP
  | .reqHttpHTTP => literal p ch '/'.toUInt8 .reqFirstHttpMajor
  | .reqFirstHttpMajor => firstHttpMajor p ch '1'.toUInt8 .reqHttpMajor
  | .reqHttpMajor => httpMajor p ch .reqFirstHttpMinor
  | .reqFirstHttpMinor => firstHttpMinor p ch .reqHttpMinor
  | .reqHttpMinor => reqHttpMinor p ch
  | .reqLineAlmostDone => reqLineAlmostDone p ch
  | .headerFieldStart => headerFieldStart p ch
  | .headerField => headerField p ch 0
  | .headerValueDiscardWs => headerValueDiscardWs p ch
  | .headerValueDiscardWsAlmostDone => literal p ch LF .headerValueDiscardLws
  | .headerValueDiscardLws => headerValueDiscardLws p ch
  | .headerValueStart => headerValueStart p ch
  | .headerValue => headerValue p ch 0 p.headerState
  | .headerValueLws => headerValueLws p ch
  | .headerAlmostDone => headerAlmostDone p ch
  | .chunkSizeStart => chunkSizeStart p ch
  | .chunkSize => chunkSize p ch
  | .chunkParameters => chunkParameters p ch
  | .chunkSizeAlmostDone => chunkSizeAlmostDone p ch
  | .headersAlmostDone => headersAlmostDone p ch
  | .headersDone => headersDone p ch
  | .chunkData => chunkData p
  | .chunkDataAlmostDone => chunkDataAlmostDone p ch
  | .chunkDataDone => chunkDataDone p ch
  | .bodyIdentity => bodyIdentity p
  | .bodyIdentityEof => .mark .body p.advance
  | .messageDone => messageDone p

/-- What `http_parser_execute` does at the byte `ch`. -/
def step (p : Fields) (loop : Loop) (ch : UInt8) : Prog :=
  match loop with
  | .field read => headerField p ch read
  | .value read h skip => headerValueLoop p ch read h skip
  | .outer => if p.state.parsingHeader then .count p 1 (dispatch p ch) else dispatch p ch

/-- The mark that a buffer starts with. -/
def startMark : State → Option Mark
  | .headerField => some .headerField
  | .headerValue => some .headerValue
  | .reqPath | .reqSchema | .reqSchemaSlash | .reqSchemaSlashSlash | .reqServerStart | .reqServer
  | .reqServerWithAt | .reqQueryStringStart | .reqQueryString | .reqFragmentStart
  | .reqFragment => some .url
  | .resStatus => some .status
  | _ => none

/-- After the loop: run the callbacks for the marks that are left, and count all
bytes as parsed. -/
def runOut (p : Fields) : Prog :=
  .data p .headerField false false <| .data p .headerValue false false <|
    .data p .url false false <| .data p .body false false <| .data p .status false false <|
      .leave p

/-- The end of the buffer, where an inner loop is left with its count. -/
def finish (p : Fields) : Loop → Prog
  | .outer => runOut p
  | .field read => .count p read (runOut p)
  | .value read h _ =>
      let p := { p with headerState := h }
      .count p read (runOut p)

end Doormat.Parser
