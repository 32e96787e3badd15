import Doormat.Parser.Basic
import Doormat.Http.StructuredData

/-! `http_request` and `http_response`. -/
namespace Doormat.Http

open Bytes Doormat.Parser

/-- `http_request`. The TLS flag and the parameters of a query are left out. -/
structure HttpRequest extends StructuredData where
  method : HttpMethod
  schema : ByteString
  urihost : ByteString
  port : ByteString
  path : ByteString
  query : ByteString
  fragment : ByteString
  userinfo : ByteString
deriving DecidableEq

/-- A default-constructed request. -/
def HttpRequest.fresh : HttpRequest :=
  { StructuredData.fresh with
    method := .GET, schema := [], urihost := [], port := [], path := [], query := [],
    fragment := [], userinfo := [] }

/-- `http_response`. -/
structure HttpResponse extends StructuredData where
  statusCode : Nat
  statusMessage : ByteString
deriving DecidableEq

/-- A default-constructed response. The constructor leaves the status code
uninitialised; `garbage` is what it holds. -/
def HttpResponse.fresh (garbage : Nat) : HttpResponse :=
  { StructuredData.fresh with statusCode := garbage, statusMessage := [] }

/-- `get_default_message`. -/
def getDefaultMessage (status : Nat) : ByteString :=
  ofString <| match status with
  | 100 => "Continue" | 101 => "Switching Protocols"
  | 200 => "OK" | 201 => "Created" | 202 => "Accepted" | 203 => "Non-Authoritative Information"
  | 204 => "No Content" | 205 => "Reset Content" | 206 => "Partial Content"
  | 300 => "Multiple Choices" | 301 => "Moved Permanently" | 302 => "Found" | 303 => "See Other"
  | 304 => "Not Modified" | 305 => "Use Proxy" | 307 => "Temporary Redirect"
  | 400 => "Bad Request" | 401 => "Unauthorized" | 402 => "Payment Required" | 403 => "Forbidden"
  | 404 => "Not Found" | 405 => "Method Not Allowed" | 406 => "Not Acceptable"
  | 407 => "Proxy Authentication Required" | 408 => "Request Timeout" | 409 => "Conflict"
  | 410 => "Gone" | 411 => "Length Required" | 412 => "Precondition Failed"
  | 413 => "Request Entity Too Large" | 414 => "Request-URI Too Long"
  | 415 => "Unsupported Media Type" | 416 => "Requested Range Not Satisfiable"
  | 417 => "Expectation Failed" | 418 => "I'm a teapot"
  | 500 => "Internal Server Error" | 501 => "Not Implemented" | 502 => "Bad Gateway"
  | 503 => "Service Unavailable" | 504 => "Gateway Timeout" | 505 => "HTTP Version Not Supported"
  | _ => "Damn!"

/-- `status(code)`. -/
def HttpResponse.setStatus (r : HttpResponse) (code : Nat) : HttpResponse :=
  { r with statusCode := code, statusMessage := getDefaultMessage code }

/-- `method_mapper`: the names of the methods, which are not always how they are written. -/
def methodMapper : HttpMethod → ByteString
  | .MSEARCH => ofString "MSEARCH"
  | .END => ofString "NONE"
  | m => m.string

/-- The methods in the order of `method_mapper`. -/
def methods : List HttpMethod :=
  [.DELETE, .GET, .HEAD, .POST, .PUT, .CONNECT, .OPTIONS, .TRACE, .COPY, .LOCK, .MKCOL, .MOVE,
    .PROPFIND, .PROPPATCH, .SEARCH, .UNLOCK, .BIND, .REBIND, .UNBIND, .ACL, .REPORT, .MKACTIVITY,
    .CHECKOUT, .MERGE, .MSEARCH, .NOTIFY, .SUBSCRIBE, .UNSUBSCRIBE, .PATCH, .PURGE, .MKCALENDAR,
    .LINK, .UNLINK]

/-- `method(val)`. A name that is not in the table stands for no method. -/
def HttpRequest.setMethod (r : HttpRequest) (val : ByteString) : HttpRequest :=
  { r with method := (methods.find? fun m => methodMapper m = val).getD .END }

/-- The first line of a request, up to its line end. -/
def HttpRequest.startLine (r : HttpRequest) : ByteString :=
  methodMapper r.method ++ space ++ (if r.path ≠ [] then r.path else slash)
    ++ (if r.query ≠ [] then questionmark ++ r.query else [])
    ++ (if r.fragment ≠ [] then hash ++ r.fragment else [])
    ++ space ++ protoToString r.protocolVersion

/-- The first line of a response, up to its line end. -/
def HttpResponse.startLine (r : HttpResponse) : ByteString :=
  protoToString r.protocolVersion ++ space ++ ofString (toString r.statusCode) ++ space
    ++ r.statusMessage

/-- What a `http_structured_data*` points at; the constructor is its `type()`. -/
inductive Message
  | request (r : HttpRequest)
  | response (r : HttpResponse)
deriving DecidableEq

namespace Message

def data : Message → StructuredData
  | .request r => r.toStructuredData
  | .response r => r.toStructuredData

def setData (d : StructuredData) : Message → Message
  | .request r => .request { r with toStructuredData := d }
  | .response r => .response { r with toStructuredData := d }

@[simp] theorem data_setData (m : Message) (d : StructuredData) : (m.setData d).data = d := by
  cases m <;> rfl

@[simp] theorem setData_setData (m : Message) (d e : StructuredData) :
    (m.setData d).setData e = m.setData e := by
  cases m <;> rfl

/-- `type() == typeid(http_request)`. -/
def isRequest : Message → Bool
  | .request _ => true
  | .response _ => false

@[simp] theorem isRequest_setData (m : Message) (d : StructuredData) :
    (m.setData d).isRequest = m.isRequest := by
  cases m <;> rfl

def startLine : Message → ByteString
  | .request r => r.startLine
  | .response r => r.startLine

/-- `serialize`. -/
def serialize (m : Message) : Option ByteString :=
  m.data.serialize.map fun headers => m.startLine ++ crlf ++ headers

end Message

end Doormat.Http
