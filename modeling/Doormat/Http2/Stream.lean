import Doormat.Library.Bytes
import Doormat.Library.Multimap
import Doormat.Http.Commons

/-! `http2::stream`: the response side of a server stream. The library pulls the
body out of it with `data_source_read_callback`. The request side, the header
arrays and the feedback to the application are left out. -/
namespace Doormat.Http2

open Bytes

structure Stream where
  status : Nat
  headersSent : Bool
  bodySent : Bool
  resumeNeeded : Bool
  eof : Bool
  errored : Bool
  closed : Bool
  body : List ByteString
  bodyIndex : Nat
  trailers : Multimap ByteString ByteString

/-- What a stream asks of the library, or its owner of it. -/
inductive Effect
  | resumeData
  | submitResponse
  | submitTrailer (trailers : Multimap ByteString ByteString)
  | submitHeaders
  | destroy

/-- What `data_source_read_callback` returns: `NGHTTP2_ERR_DEFERRED`, or bytes with
the flags `NGHTTP2_DATA_FLAG_EOF` and `NGHTTP2_DATA_FLAG_NO_END_STREAM`. -/
inductive ReadResult
  | deferred
  | data (bytes : ByteString) (eof noEndStream : Bool)
deriving DecidableEq

namespace ReadResult

def bytes : ReadResult → ByteString
  | .deferred => []
  | .data bytes _ _ => bytes

def eof : ReadResult → Bool
  | .deferred => false
  | .data _ eof _ => eof

end ReadResult

namespace Stream

/-- A stream whose headers, with the given status, have not been submitted. -/
def init (status : Nat) : Stream where
  status := status
  headersSent := false
  bodySent := false
  resumeNeeded := false
  eof := false
  errored := false
  closed := false
  body := []
  bodyIndex := 0
  trailers := .empty

def hasTrailers (s : Stream) : Bool := s.trailers.entries.length > 0

def bodyEmpty (s : Stream) : Bool :=
  match s.body with
  | [] => true
  | [chunk] => chunk.length = s.bodyIndex
  | _ => false

def defer (s : Stream) : Bool := !s.eof && !s.hasTrailers && s.bodyEmpty

def bodyLength (s : Stream) : Nat :=
  match s.body with
  | [] => 0
  | first :: rest => first.length - s.bodyIndex + (rest.map List.length).sum

def isLastFrame (s : Stream) (length : Nat) : Bool :=
  s.eof && !s.hasTrailers && s.bodyLength = length

def bodyEof (s : Stream) : Bool := s.bodyEmpty && (s.eof || s.hasTrailers)

/-- Copy from the first chunk, and drop it when it is used up. -/
def takeFront (s : Stream) (length : Nat) : ByteString × Stream :=
  match s.body with
  | [] => ([], s)
  | first :: rest =>
      let bytes := (first.drop s.bodyIndex).take length
      let index := s.bodyIndex + bytes.length
      if index = first.length then (bytes, { s with body := rest, bodyIndex := 0 })
      else (bytes, { s with bodyIndex := index })

def readFront (s : Stream) (length : Nat) : ByteString × Stream :=
  if s.bodyEmpty then ([], s) else s.takeFront length

/-- `data_source_read_callback`. -/
def dataSourceReadCallback (s : Stream) (length : Nat) : ReadResult × Stream :=
  if s.defer then (.deferred, { s with resumeNeeded := true })
  else
    let noEndStream := s.hasTrailers
    let (bytes, s) := s.readFront length
    if s.bodyEof || s.isLastFrame length then
      (.data bytes true noEndStream, { s with bodySent := true })
    else (.data bytes false noEndStream, s)

def flush (s : Stream) : Stream × Option Effect :=
  if s.closed then (s, none)
  else if s.status ≠ 101 then
    if s.resumeNeeded then ({ s with resumeNeeded := false }, some .resumeData)
    else if !s.headersSent then ({ s with headersSent := true }, some .submitResponse)
    else if s.bodySent && s.eof then (s, some (.submitTrailer s.trailers))
    else (s, none)
  else (s, some .submitHeaders)

def die (s : Stream) : Stream × Option Effect :=
  if s.eof || s.errored then (s, some .destroy) else ({ s with closed := true }, none)

/-- `on_header` for a response with the given status. -/
def onHeader (s : Stream) (status : Nat) : Stream × Option Effect :=
  { s with status := status }.flush

def onBody (s : Stream) (data : ByteString) : Stream × Option Effect :=
  { s with body := s.body ++ [data] }.flush

def onTrailer (s : Stream) (key value : ByteString) : Stream :=
  { s with trailers := s.trailers.insert key value }

def onEom (s : Stream) : Stream × Option Effect :=
  let s := { s with eof := true }
  if s.closed then s.die else s.flush

end Stream

/-- What happens to the body of a response: the calls of the application and the
reads of the library. -/
inductive BodyOp
  | body (data : ByteString)
  | trailer (key value : ByteString)
  | eom
  | read (length : Nat)
deriving DecidableEq

namespace Stream

def step (s : Stream) : BodyOp → Stream
  | .body data => (s.onBody data).1
  | .trailer key value => s.onTrailer key value
  | .eom => s.onEom.1
  | .read length => (s.dataSourceReadCallback length).2

def run (s : Stream) (ops : List BodyOp) : Stream := ops.foldl step s

/-- The bytes that the reads of a run return. -/
def returned (s : Stream) : List BodyOp → ByteString
  | [] => []
  | .read length :: ops =>
      (s.dataSourceReadCallback length).1.bytes ++ (s.step (.read length)).returned ops
  | op :: ops => (s.step op).returned ops

end Stream

/-- The concatenation of the chunks given in a run. -/
def given : List BodyOp → ByteString
  | [] => []
  | .body data :: ops => data ++ given ops
  | _ :: ops => given ops

/-- Does the operation end the body? -/
def BodyOp.ends : BodyOp → Bool
  | .trailer _ _ | .eom => true
  | _ => false

def BodyOp.isBody : BodyOp → Bool
  | .body _ => true
  | _ => false

/-- The order in which an application calls: no body after a trailer or the end.
The library reads into buffers that hold something. -/
def WellOrdered : List BodyOp → Bool
  | [] => true
  | .read length :: ops => 0 < length && WellOrdered ops
  | op :: ops => (!op.ends || ops.all (!·.isBody)) && WellOrdered ops

end Doormat.Http2
