import Doormat.Parser.Execute
import Doormat.Http.Message

/-! The decoding half of `http_codec` and its `impl`: the parser's callbacks turn
the bytes of a message into a `Message` and into calls of the registered
callbacks. -/
namespace Doormat.Http

open Bytes Doormat.Parser

/-- The ways in which decoding ends the process. -/
inductive Fault
  /-- An assertion of `http_parser` fails. -/
  | parserAssertion
  /-- `_data` is null. -/
  | noData
  /-- The assertion of `on_status` on the type of the message fails. -/
  | notResponse
  /-- `on_url` casts a message that is not a request. -/
  | notRequest
  /-- The assertion of `on_headers_complete` on the major version fails. -/
  | httpMajor
  /-- The assertion that the headers are not yet complete fails. -/
  | headersCompleted
  /-- `std::stoull` throws inside the `noexcept` setter of a header. -/
  | contentLength (e : ConversionError)
  /-- `substr` is asked for an offset past the end. -/
  | outOfRange
  /-- The loop of `decode` has not ended. -/
  | decodeLoop
deriving DecidableEq, Repr

/-- The callbacks that the owner of a codec registers, over its own state `υ`.
`begin` is shown the object that was decoded into last and may install one, no
longer than until the next reset; `header` sees the decoded object and may change
it; `error` also tells whether the error is fatal. -/
structure Callbacks (υ : Type) where
  begin : Message → υ → Option Message × υ
  header : Message → υ → Message × υ
  body : ByteString → υ → υ
  trailer : ByteString → ByteString → υ → υ
  completion : υ → υ
  error : Errno → υ → υ × Bool

/-- What a codec does on behalf of a message: the callbacks it fires, and the
headers it sets. The header callback is recorded with the parser and the message at
that time. -/
inductive Event
  | begin
  | header (key value : ByteString)
  | headersDone (p : Fields) (m : Message)
  | body (bytes : ByteString)
  | trailer (key value : ByteString)
  | completion
  | error (e : Errno)
deriving DecidableEq

/-- `http_codec::impl` but for the parser. `object` is what `_data` points at, and
`installed` that it is not null. `user` is the state of the registered callbacks.
`trace` records the events so far; nothing reads it. -/
structure Impl (υ : Type) where
  installed : Bool
  object : Message
  version : ProtoVersion
  ignore : Bool
  connected : Bool
  gotHeader : Bool
  headersCompleted : Bool
  urline : ByteString
  status : ByteString
  key : ByteString
  value : ByteString
  url : HttpParserUrl
  user : υ
  trace : List Event

variable {υ : Type}

namespace Impl

/-- `reset`, but for the parser. The version stays. -/
def reset (d : Impl υ) : Impl υ :=
  { d with
    installed := false, ignore := false, connected := false, gotHeader := false
    headersCompleted := false, urline := [], status := [], key := [], value := [], url := {} }

/-- The constructor, for callbacks in the state `user`. -/
def init (object : Message) (user : υ) : Impl υ where
  installed := false
  object := object
  version := .UNSET
  ignore := false
  connected := false
  gotHeader := false
  headersCompleted := false
  urline := []
  status := []
  key := []
  value := []
  url := {}
  user := user
  trace := []

def record (d : Impl υ) (e : Event) : Impl υ := { d with trace := d.trace ++ [e] }

/-- `_data->`. -/
def deref (d : Impl υ) : Except Fault Message :=
  if d.installed then .ok d.object else .error .noData

/-- `process_current_header`. -/
def processCurrentHeader (d : Impl υ) : Except Fault (Impl υ) :=
  if !d.gotHeader then .ok d
  else do
    let m ← d.deref
    match m.data.header d.key d.value with
    | .error e => .error (.contentLength e)
    | .ok data =>
        let d := d.record (.header d.key d.value)
        .ok { d with object := m.setData data, gotHeader := false, key := [], value := [] }

/-- `max_uri_len`. -/
def maxUriLen : Nat := 8192

def onMessageBegin (cb : Callbacks υ) (d : Impl υ) : Except Fault (Nat × Impl υ) :=
  let (object, user) := cb.begin d.object d.user
  let d := { d.record .begin with user := user }
  match object with
  | none => if d.installed then .ok (0, d) else .error .noData
  | some m => .ok (0, { d with installed := true, object := m })

/-- `urline.substr(field.off, field.len)`. -/
def substr (s : ByteString) (field : FieldData) : Except Fault ByteString :=
  if field.off > s.length then .error .outOfRange else .ok ((s.drop field.off).take field.len)

/-- The seven parts of a target that `on_url` stores. -/
def storeUrl (r : HttpRequest) (urline : ByteString) (u : HttpParserUrl) :
    Except Fault HttpRequest := do
  let schema ← substr urline u.schema
  let urihost ← substr urline u.host
  let port ← substr urline u.portField
  let path ← substr urline u.path
  let query ← substr urline u.query
  let fragment ← substr urline u.fragment
  let userinfo ← substr urline u.userinfo
  .ok { r with
    schema := schema, urihost := urihost, port := port, path := path, query := query
    fragment := fragment, userinfo := userinfo }

def onUrl (bytes : ByteString) (d : Impl υ) : Except Fault (Nat × Impl υ) :=
  let d := { d with urline := d.urline ++ bytes }
  if d.urline.length > maxUriLen then .ok (1, d)
  else do
    match ← d.deref with
    | .response _ => .error .notRequest
    | .request r =>
        let (url, parsed) := httpParserParseUrl bytes d.connected d.url
        let d := { d with url := url }
        let r ← if parsed then storeUrl r d.urline url else .ok r
        .ok (0, { d with object := .request r, connected := true })

def onStatus (statusCode : Nat) (bytes : ByteString) (d : Impl υ) : Except Fault (Nat × Impl υ) := do
  match ← d.deref with
  | .request _ => .error .notResponse
  | .response r =>
      let d := { d with status := d.status ++ bytes }
      .ok (0, { d with
        object := .response { r with statusCode := statusCode, statusMessage := d.status } })

def onHeaderField (bytes : ByteString) (d : Impl υ) : Except Fault (Nat × Impl υ) :=
  if d.headersCompleted then .error .headersCompleted
  else do
    let d ← d.processCurrentHeader
    .ok (0, { d with key := d.key ++ bytes })

def onHeaderValue (bytes : ByteString) (d : Impl υ) : Except Fault (Nat × Impl υ) :=
  if d.headersCompleted then .error .headersCompleted
  else .ok (0, { d with gotHeader := true, value := d.value ++ bytes })

/-- Where a request names no host in its target, the `host` header gives one. -/
def hostFromHeader (r : HttpRequest) : HttpRequest :=
  if r.urihost ≠ [] then r
  else
    let host := r.getHeader hfHost
    if host.contains ':'.toUInt8 then
      { r with
        urihost := host.takeWhile (· ≠ ':'.toUInt8)
        port := (host.dropWhile (· ≠ ':'.toUInt8)).tail }
    else { r with urihost := host }

/-- The last touches to the message before the header callback. -/
def completeHeaders (p : Fields) (m : Message) : Message :=
  let m : Message := match m with
    | .request r => .request (hostFromHeader { r with method := p.method })
    | .response r => .response r
  m.setData (m.data.setKeepalive p.shouldKeepAlive)

/-- The version that the first message of a codec sets. -/
def chooseVersion (p : Fields) (d : Impl υ) : Impl υ :=
  if d.version = .UNSET then { d with version := if p.httpMinor = 1 then .HTTP11 else .HTTP10 }
  else d

/-- The last touches to the message, and the header callback. -/
def announceHeaders (cb : Callbacks υ) (p : Fields) (d : Impl υ) : Impl υ :=
  let m := completeHeaders p d.object
  let (object, user) := cb.header m d.user
  { d.record (.headersDone p m) with object := object, user := user, headersCompleted := true }

def onHeadersComplete (cb : Callbacks υ) (p : Fields) (d : Impl υ) :
    Except Fault (Nat × Impl υ) :=
  if p.httpMajor ≠ 1 then .error .httpMajor
  else do
    let d := d.chooseVersion p
    let m ← d.deref
    let d ← { d with object := m.setData (m.data.setProtocol d.version) }.processCurrentHeader
    .ok (0, d.announceHeaders cb p)

/-- The trailer that has come in whole is handed over. -/
def flushTrailer (cb : Callbacks υ) (d : Impl υ) : Impl υ :=
  if d.gotHeader then
    let user := cb.trailer d.key d.value d.user
    let d := d.record (.trailer d.key d.value)
    { d with user := user, gotHeader := false, key := [], value := [] }
  else d

def onTrailerField (cb : Callbacks υ) (bytes : ByteString) (d : Impl υ) :
    Except Fault (Nat × Impl υ) :=
  let d := d.flushTrailer cb
  .ok (0, { d with key := d.key ++ bytes })

def onTrailerValue (bytes : ByteString) (d : Impl υ) : Except Fault (Nat × Impl υ) :=
  .ok (0, { d with gotHeader := true, value := d.value ++ bytes })

def onBody (cb : Callbacks υ) (bytes : ByteString) (d : Impl υ) : Except Fault (Nat × Impl υ) :=
  if d.ignore then .ok (0, d)
  else .ok (0, { d.record (.body bytes) with user := cb.body bytes d.user })

/-- `on_chunk_header` and `on_chunk_complete`. -/
def onChunk (p : Fields) (d : Impl υ) : Except Fault (Nat × Impl υ) :=
  .ok (0, if p.bodyIsFinal then { d with ignore := true } else d)

/-- What `on_message_complete` does to the codec: the last trailer, the completion
callback, and the reset. -/
def completeMessage (cb : Callbacks υ) (d : Impl υ) : Impl υ :=
  let d := d.flushTrailer cb
  { d.record .completion with user := cb.completion d.user }.reset

def onMessageComplete (cb : Callbacks υ) (d : Impl υ) :
    Except Fault (Nat × HttpParser × Impl υ) :=
  .ok (0, .init .both, d.completeMessage cb)

end Impl

open Impl

/-- The static callbacks of `http_codec`: a header after the headers is a trailer. -/
def settings (cb : Callbacks υ) : Settings Fault (Impl υ) where
  onMessageBegin := onMessageBegin cb
  onUrl := onUrl
  onStatus := onStatus
  onHeaderField bytes d :=
    if !d.headersCompleted then onHeaderField bytes d else onTrailerField cb bytes d
  onHeaderValue bytes d :=
    if !d.headersCompleted then onHeaderValue bytes d else onTrailerValue bytes d
  onHeadersComplete := onHeadersComplete cb
  onBody := onBody cb
  onChunkHeader := onChunk
  onChunkComplete := onChunk
  onMessageComplete _ d := onMessageComplete cb d
  assertion := .parserAssertion

/-- `http_codec` as a decoder. `_skip_next_header` is left out: nothing sets it. -/
structure HttpCodec (υ : Type) where
  parser : HttpParser
  impl : Impl υ
  ignoreContentLen : Bool

namespace HttpCodec

/-- A new codec. -/
def init (object : Message) (user : υ) : HttpCodec υ where
  parser := .init .both
  impl := .init object user
  ignoreContentLen := false

/-- `on_parser_error`: the code it returns. -/
def onParserError (cb : Callbacks υ) (c : HttpCodec υ) : HttpCodec υ × Option Errno :=
  match c.parser.errno with
  | none => (c, none)
  | some err =>
      let (user, fatal) := cb.error err c.impl.user
      let c := { c with impl := { c.impl.record (.error err) with user := user } }
      if fatal then ({ c with parser := .init .both, impl := c.impl.reset }, some err)
      else ({ c with parser := { c.parser with errno := none } }, none)

/-- `impl::ignore_content_len`. -/
def dropContentLen (c : HttpCodec υ) : HttpCodec υ :=
  if c.parser.flags.chunked then
    { c with parser := { c.parser with
      flags := { c.parser.flags with contentlength := false }, contentLength := 0 } }
  else c

/-- The loop of `decode`. The parser stops before the end of the data at an error or
at an upgrade; only an error that the callback does not declare fatal can make
`fuel` rounds too few. The count of parsed bytes is an `int` in the source, exact
for buffers below two gigabytes. -/
def decodeLoop (cb : Callbacks υ) (fuel : Nat) (c : HttpCodec υ) (data : ByteString) :
    Except Fault (HttpCodec υ × Bool) :=
  if data = [] then .ok (c, true)
  else match fuel with
    | 0 => .error .decodeLoop
    | fuel + 1 => do
        let (parser, parsed, impl) ← execute (settings cb) c.parser data c.impl
        let (c, err) := onParserError cb { c with parser := parser, impl := impl }
        if err ≠ none then .ok (c, false)
        else
          let c :=
            if c.ignoreContentLen then { c.dropContentLen with ignoreContentLen := false } else c
          decodeLoop cb fuel c (data.drop parsed)

/-- `decode`: false after a fatal error. -/
def decode (cb : Callbacks υ) (c : HttpCodec υ) (data : ByteString) :
    Except Fault (HttpCodec υ × Bool) :=
  decodeLoop cb data.length c data

/-- Successive calls of `decode`, each with one piece of the stream, and their
results. -/
def decodeAll (cb : Callbacks υ) (c : HttpCodec υ) :
    List ByteString → Except Fault (HttpCodec υ × List Bool)
  | [] => .ok (c, [])
  | piece :: rest => do
      let (c, ok) ← c.decode cb piece
      let (c, oks) ← c.decodeAll cb rest
      .ok (c, ok :: oks)

end HttpCodec

end Doormat.Http
