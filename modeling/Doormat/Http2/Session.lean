import Mathlib.Data.List.Count
import Mathlib.Logic.Function.Basic
import Doormat.Library.Runs
import Doormat.Http2.Stream

/-! `http2::session` on a server: its streams, the feedback callbacks that they leave with
it, and the connector that hands these to the next write. The calls of `do_write` are steps
of their own, wherever the code makes them. -/
namespace Doormat.Http2

open Bytes

/-- What a response is told at its end. -/
inductive Outcome
  | cleared
  | error
deriving DecidableEq

/-- A frame that the library has ready, of the connection or of a stream. -/
inductive Frame
  | control
  | part (id : Nat)
  | endStream (id : Nat)
deriving DecidableEq

namespace Frame

def isOf (id : Nat) : Frame → Bool
  | .control => false
  | .part i | .endStream i => i = id

end Frame

/-- What the library answers to `do_write`: the frames that it has got ready since the last
call, how many it hands out beside the first, and whether it is done with the session. -/
structure Answer where
  ready : List Frame
  more : Nat
  done : Bool
deriving DecidableEq

/-- A stream with the response handed out for it. `gone` says that the library has closed
the stream, and `endWritten` that its END_STREAM frame was in a successful write. -/
structure Served where
  stream : Stream
  gone : Bool
  destroyed : Bool
  received : List Outcome
  endWritten : Bool

/-- A write in flight, with the feedback that its handler holds. -/
structure OutWrite where
  frames : List Frame
  feedbacks : List Nat

/-- How a write ends: with success, with an error, or cancelled by `stop`. -/
inductive WriteEnd
  | ok
  | failed
  | canceled
deriving DecidableEq

/-- A session and its connector. `queue` holds the frames that the library can send, and
`posted` what waits on the event loop. -/
structure Session where
  streams : Nat → Option Served
  queue : List Frame
  pending : List Nat
  writing : Option OutWrite
  stopped : Bool
  posted : List (Nat × Outcome)
  connected : Bool

/-- What an application gives of a response before its end. -/
inductive ResponsePart
  | header (status : Nat)
  | body (data : ByteString)
  | trailer (key value : ByteString)

/-- What happens in a session: calls of the application, of the library, and of the
connector. -/
inductive SessionEvent
  | createStream (id : Nat)
  | respond (id : Nat) (part : ResponsePart)
  | onEom (id : Nat)
  | read (id : Nat) (length : Nat)
  | streamClose (id : Nat)
  | doWrite (a : Answer)
  | wrote (result : WriteEnd)
  | stop
  | connectorNulled
  | runPosted

/-- Does the call run the destructor? -/
def Effect.destroys : Option Effect → Bool
  | some .destroy => true
  | _ => false

def Stream.accept (s : Stream) : ResponsePart → Stream
  | .header status => (s.onHeader status).1
  | .body data => (s.onBody data).1
  | .trailer key value => s.onTrailer key value

namespace Served

/-- The status of a stream is not set before its headers. -/
def fresh : Served where
  stream := .init 0
  gone := false
  destroyed := false
  received := []
  endWritten := false

def onEom (t : Served) : Served :=
  { t with stream := t.stream.onEom.1, destroyed := t.destroyed || Effect.destroys t.stream.onEom.2 }

/-- `on_stream_close_callback`. -/
def close (t : Served) : Served :=
  { t with
    stream := t.stream.die.1
    gone := true
    destroyed := t.destroyed || Effect.destroys t.stream.die.2 }

/-- `cleared` or `error` of the response. -/
def tell (t : Served) (outcomes : List Outcome) : Served :=
  { t with received := t.received ++ outcomes }

/-- `notify_error` reaches a stream while it is subscribed. -/
def notifyError (t : Served) : Served := if t.destroyed then t else t.tell [.error]

end Served

namespace Session

def init : Session where
  streams := fun _ => none
  queue := []
  pending := []
  writing := none
  stopped := false
  posted := []
  connected := true

/-- Change what there is under an id. -/
def set (s : Session) (id : Nat) (t : Option Served) : Session :=
  { s with streams := Function.update s.streams id t }

def post (s : Session) (ids : List Nat) (o : Outcome) : Session :=
  { s with posted := s.posted ++ ids.map (·, o) }

/-- `on_eom`. On a stream that is not closed it leaves a feedback callback. -/
def onEom (s : Session) (id : Nat) (t : Served) : Session :=
  let s := s.set id (some t.onEom)
  if t.stream.closed then s else { s with pending := s.pending ++ [id] }

/-- `nghttp2_session_mem_send` hands out a part of what is ready, and nothing only if
nothing is. -/
def memSend (s : Session) (a : Answer) : List Frame × Session :=
  ((s.queue ++ a.ready).take (a.more + 1),
    { s with queue := (s.queue ++ a.ready).drop (a.more + 1) })

/-- `on_write`. -/
def onWrite (s : Session) (a : Answer) : Option (List Frame × Session) :=
  if s.connected then some (s.memSend a) else none

/-- `connector::do_write`. -/
def connectorDoWrite (s : Session) (a : Answer) : Session :=
  if s.writing.isSome || s.stopped then s
  else
    match s.onWrite a with
    | none => { s with pending := [] }.post s.pending .cleared
    | some (out, s) =>
        if out = [] then
          if a.done then { s with pending := [], stopped := true }.post s.pending .cleared
          else s
        else { s with writing := some ⟨out, s.pending⟩, pending := [] }

def doWrite (s : Session) (a : Answer) : Session := if s.connected then s.connectorDoWrite a else s

/-- The frames of a write have reached the peer. -/
def land (s : Session) (frames : List Frame) : Session :=
  { s with
    streams := fun id => (s.streams id).map fun t =>
      { t with endWritten := t.endWritten || frames.contains (.endStream id) } }

/-- The handler of a write, but for the `do_write` at its end. -/
def wrote (s : Session) (w : OutWrite) : WriteEnd → Session
  | .ok => ({ s with writing := none }.land w.frames).post w.feedbacks .cleared
  | .failed => { s with writing := none, stopped := true }.post w.feedbacks .error
  | .canceled => { s with writing := none }.post w.feedbacks .error

/-- `on_connector_nulled`: the pending error callbacks, and then `notify_error`. -/
def onConnectorNulled (s : Session) : Session :=
  { s with
    connected := false
    streams := fun id => (s.streams id).map fun t =>
      (t.tell (List.replicate (s.pending.count id) .error)).notifyError }

/-- The next closure of the event loop. -/
def runPosted (s : Session) : Option Session :=
  match s.posted with
  | [] => none
  | (id, o) :: rest => some { s.set id ((s.streams id).map (·.tell [o])) with posted := rest }

/-- The response of the stream has been ended. -/
def ended (s : Session) (id : Nat) : Bool := (s.streams id).any (·.stream.eof)

/-- The library has an END_STREAM frame ready only for a response that has been ended. -/
def mayGetReady (s : Session) : Frame → Bool
  | .endStream id => s.ended id
  | _ => true

/-- A step. The library is driven by the connector, and closes a stream once. An
application makes no call for a response that it has ended. A write in flight keeps the
connector. -/
def step (s : Session) : SessionEvent → Option Session
  | .createStream id =>
      if s.connected && (s.streams id).isNone then some (s.set id (some .fresh)) else none
  | .respond id part =>
      (s.streams id).bind fun t =>
        if t.stream.eof then none else some (s.set id (some { t with stream := t.stream.accept part }))
  | .onEom id => (s.streams id).bind fun t => if t.stream.eof then none else some (s.onEom id t)
  | .read id length =>
      (s.streams id).bind fun t =>
        if s.connected && !t.gone then
          some (s.set id (some { t with stream := (t.stream.dataSourceReadCallback length).2 }))
        else none
  | .streamClose id =>
      (s.streams id).bind fun t =>
        if s.connected && !t.gone then
          some { s.set id (some t.close) with queue := s.queue.filter (!·.isOf id) }
        else none
  | .doWrite a => if a.ready.all s.mayGetReady then some (s.doWrite a) else none
  | .wrote result => s.writing.map (s.wrote · result)
  | .stop => some { s with stopped := true }
  | .connectorNulled =>
      if s.connected && s.writing.isNone then some s.onConnectorNulled else none
  | .runPosted => s.runPosted

/-! ### What a response is told -/

/-- What the response of a stream has been told. -/
def received (s : Session) (id : Nat) : List Outcome := (s.streams id).elim [] (·.received)

def endWritten (s : Session) (id : Nat) : Bool := (s.streams id).any (·.endWritten)

/-- The connector is lost, and nothing waits any more. -/
def Over (s : Session) : Prop := s.connected = false ∧ s.posted = []

/-- The response is told at most one thing, and one when all is over; it is told `cleared` only
when the end of the stream has been written. -/
structure Reported (id : Nat) (s : Session) : Prop where
  once : (s.received id).length ≤ 1
  written : .cleared ∈ s.received id → s.endWritten id = true
  reported : s.Over → (s.streams id).isSome = true → (s.received id).length = 1

/-- The connector finds nothing to write and stops. -/
def Finishes (s : Session) (a : Answer) : Prop :=
  s.connected = true ∧ s.writing = none ∧ s.stopped = false ∧ s.queue ++ a.ready = [] ∧ a.done = true

/-- What must be so when an event comes, for the sake of one response: it is not ended on a
stream that the peer has closed, while there is a connector; its feedback does not wait
when the connector stops for want of anything to write; a successful write whose handler
holds its feedback holds its END_STREAM frame; and the connector is lost before it is ended
or after its stream is destroyed. -/
def InOrder (id : Nat) (s : Session) : SessionEvent → Prop
  | .onEom i => i = id → s.connected = true → ∀ t, s.streams id = some t → t.stream.closed = false
  | .doWrite a => s.Finishes a → id ∉ s.pending
  | .wrote .ok => ∀ w, s.writing = some w → id ∈ w.feedbacks → .endStream id ∈ w.frames
  | .connectorNulled => ∀ t, s.streams id = some t → t.destroyed = false → t.stream.eof = false
  | _ => True

end Session

end Doormat.Http2
