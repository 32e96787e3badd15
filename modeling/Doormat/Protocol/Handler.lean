import Mathlib.Logic.Function.Basic
import Doormat.Http.Encoder

/-! `handler_http1` and its `connector`, for servers and for clients: the objects that the
application holds, the queues that pair them, the encoder that they share, and the write
path. -/
namespace Doormat.Protocol

open Bytes Doormat.Http

/-- The traits of a handler. -/
inductive Role
  | server | client
deriving DecidableEq, Repr

/-- `http::error_code`. -/
inductive ErrorCode
  | success | decoding | closedByClient | invalidRead | connectionClosed | missingStreamElement
  | writeError
deriving DecidableEq, Repr

/-- What a local object is told. -/
inductive Notice
  | cleared
  | error (e : ErrorCode)
deriving DecidableEq, Repr

/-- `local_t`: an `http::response` of a server, an `http::client_request` of a client.
`held` tells whether the application holds a reference to it. `received` records the
calls of `cleared` and `error`; nothing reads it. -/
structure Local where
  headers : Option Message := none
  content : ByteString := []
  trailers : List (ByteString × ByteString) := []
  ended : Bool := false
  continueRequired : Bool := false
  errorCallback : Bool := false
  writeCallback : Bool := false
  myself : Bool := false
  held : Bool := true
  received : List Notice := []

/-- `local_t::state`. -/
inductive LocalState
  | sendContinue | pending | headersReceived | bodyReceived | trailerReceived | ended
deriving DecidableEq, Repr

/-- `get_state`. A `client_request` never requires a continue. -/
def Local.getState (l : Local) : LocalState × Local :=
  if l.continueRequired then (.sendContinue, { l with continueRequired := false })
  else if l.headers.isSome then (.headersReceived, l)
  else if l.content ≠ [] then (.bodyReceived, l)
  else if l.trailers ≠ [] then (.trailerReceived, l)
  else if l.ended then (.ended, l)
  else (.pending, l)

/-- The events of a remote object. -/
inductive RemoteEvent
  | headers (m : Message)
  | body (bytes : ByteString)
  | trailer (key value : ByteString)
  | finished
  | responseContinue
  | error (e : ErrorCode)
deriving DecidableEq

/-- `remote_t`: an `http::request` of a server, an `http::client_response` of a client.
The events are posted to the application; they are recorded in the order in which the
handler triggers them. -/
structure Remote where
  terminated : Bool := false
  received : List RemoteEvent := []

/-- A feedback of `pending_clear_callbacks`: the local object that it is about. `upTo`
records how many bytes the handler had serialised when the object had ended; nothing
reads it. -/
structure Feedback where
  id : Nat
  upTo : Nat
deriving DecidableEq, Repr

/-- What has been posted to the `io_service` and works on the handler's objects. A
callback of the application keeps its object alive. -/
inductive Posted
  | endResponse (id : Nat)
  | feedback (f : Feedback) (success : Bool)
  | remoteEnded (id : Nat)
  | callback (id : Nat)
deriving DecidableEq, Repr

/-- An `async_write` with the feedbacks that its handler has captured. -/
structure Write where
  buffer : ByteString
  feedbacks : List Feedback
deriving DecidableEq, Repr

/-- How an `async_write` completes. -/
inductive WriteResult
  | ok | failed | cancelled
deriving DecidableEq, Repr

/-- A call of `do_write` that finds no write in flight and nothing left to serialise: is
the connection not persistent and no exchange outstanding, and is the connector stopped
after the call? -/
structure IdleWrite where
  finished : Bool
  stopped : Bool
deriving DecidableEq, Repr

/-- What has happened on a connection: headers that went out, headers that came in and
whether somebody took them, a choice of the application, the end of a local object that
has been serialised, and its removal. -/
inductive Happening
  | sent (m : StructuredData)
  | received (m : StructuredData) (taken : Bool)
  | persistentSet (b : Bool)
  | serialised (id : Nat) (bytes : ByteString)
  | ended (id : Nat)
  | removed (id : Nat)
deriving DecidableEq

/-- The faults of a connection: an assertion of the encoder, or `back` or `pop_front` on an
empty list. `exhausted` is none of the source: the model has run out of fuel. -/
inductive Fault
  | encoder (a : EncoderAssertion)
  | emptyList
  | exhausted
deriving DecidableEq, Repr

/-- `handler_http1` with its `connector`, the `io_service` and the objects of the
transactions, which are numbered. `connected` tells whether the connector exists;
`writing` is the write in flight, and `outstanding` counts the calls of `async_write`
that have not completed; `running` is the local object of the closure that is running. The
last six fields only record: every byte serialised, every
buffer passed to `async_write`, the writes that have completed, the calls of `do_write`
that had nothing to write, the errors of the connection, and what has happened. -/
structure Http1 where
  role : Role
  persistent : Bool := true
  localObjects : List Nat := []
  remoteObjects : List Nat := []
  encoder : Encoder := {}
  serialization : ByteString := []
  userClose : Bool := false
  decodingError : Bool := false
  managingContinue : Bool := false
  pendingClearCallbacks : List Feedback := []
  opened : Nat := 0
  locals : Nat → Local := fun _ => {}
  remotes : Nat → Remote := fun _ => {}
  connected : Bool := true
  writing : Option Write := none
  outstanding : Nat := 0
  out : ByteString := []
  stopped : Bool := false
  posted : List Posted := []
  running : Option Nat := none
  serialised : ByteString := []
  buffers : List ByteString := []
  completed : List (ByteString × WriteResult) := []
  idleWrites : List IdleWrite := []
  errors : List ErrorCode := []
  log : List Happening := []

namespace Http1

def setLocal (c : Http1) (id : Nat) (l : Local) : Http1 :=
  { c with locals := Function.update c.locals id l }

def setRemote (c : Http1) (id : Nat) (r : Remote) : Http1 :=
  { c with remotes := Function.update c.remotes id r }

def record (c : Http1) (h : Happening) : Http1 := { c with log := c.log ++ [h] }

def post (c : Http1) (ps : List Posted) : Http1 := { c with posted := c.posted ++ ps }

/-- `connection_t::error`. -/
def error (c : Http1) (e : ErrorCode) : Http1 := { c with errors := c.errors ++ [e] }

/-! ### The objects -/

/-- A closure that has been posted owns the local object that it will be called with. -/
def Posted.holds (id : Nat) : Posted → Bool
  | .endResponse i | .callback i => i = id
  | .feedback f _ => f.id = id
  | .remoteEnded _ => false

/-- `lock` on the weak pointer to a local object succeeds: it is owned by the application,
by itself, by a feedback, or by a closure. -/
def alive (c : Http1) (id : Nat) : Bool :=
  (c.locals id).held || (c.locals id).myself || c.pendingClearCallbacks.any (·.id = id) ||
    (c.writing.any fun w => w.feedbacks.any (·.id = id)) || c.posted.any (Posted.holds id) ||
    c.running.any (· = id)

/-- `error` of a local object. Only a response ends on it. -/
def localError (c : Http1) (e : ErrorCode) (id : Nat) : Http1 :=
  let l := c.locals id
  let c := c.setLocal id { l with
    ended := l.ended || c.role = .server
    myself := false
    received := l.received ++ [.error e] }
  if l.errorCallback then c.post [.callback id] else c

/-- `cleared` of a local object. -/
def localCleared (c : Http1) (id : Nat) : Http1 :=
  let l := c.locals id
  let c := c.setLocal id { l with
    ended := l.ended || c.role = .server
    myself := false
    received := l.received ++ [.cleared] }
  if l.writeCallback then c.post [.callback id] else c

/-- The events of a remote object that do not end it. -/
def remoteEvent (c : Http1) (id : Nat) (e : RemoteEvent) : Http1 :=
  c.setRemote id { c.remotes id with received := (c.remotes id).received ++ [e] }

/-- `finished` and `error` of a remote object. A request is terminated at once, a
response when the posted event has run. -/
def remoteEnd (c : Http1) (id : Nat) (e : RemoteEvent) : Http1 :=
  let r := c.remotes id
  if r.terminated then c
  else
    let c := c.setRemote id { r with
      received := r.received ++ [e]
      terminated := c.role = .server }
    if c.role = .server then c else c.post [.remoteEnded id]

/-- `response_continue`. -/
def remoteContinue (c : Http1) (id : Nat) : Http1 :=
  if (c.remotes id).terminated then c else c.remoteEvent id .responseContinue

/-! ### The connector -/

/-- `should_stop`. -/
def shouldStop (c : Http1) : Bool := c.localObjects.isEmpty && !c.persistent

/-- `stop`. -/
def stop (c : Http1) : Http1 := { c with stopped := true }

/-- `on_write`: does it hand over output? -/
def onWrite (c : Http1) : Http1 × Bool :=
  if c.connected && c.serialization ≠ [] then
    ({ c with out := c.serialization, serialization := [] }, true)
  else (c, false)

/-- `write_feedbacks`, posted as successes. -/
def postFeedbacks (c : Http1) : Http1 :=
  { c.post (c.pendingClearCallbacks.map fun f => .feedback f true) with
    pendingClearCallbacks := [] }

/-- `async_write` of the output, with the feedbacks. -/
def asyncWrite (c : Http1) : Http1 :=
  { c with
    writing := some { buffer := c.out, feedbacks := c.pendingClearCallbacks }
    outstanding := c.outstanding + 1
    pendingClearCallbacks := []
    buffers := c.buffers ++ [c.out] }

/-- Not persistent, and no exchange is outstanding. -/
def finished (c : Http1) : Bool :=
  !c.persistent && c.localObjects.isEmpty && c.remoteObjects.isEmpty

/-- Note the outcome `d` of a call of `do_write` on `c` that had nothing to write. -/
def noteIdle (c d : Http1) : Http1 :=
  if c.serialization = [] then { d with idleWrites := d.idleWrites ++ [⟨c.finished, d.stopped⟩] }
  else d

/-- `connector::do_write`. -/
def connectorDoWrite (c : Http1) : Http1 :=
  if c.writing.isSome || c.stopped then c
  else
    let (d, write) := { c with out := [] }.onWrite
    if !write then c.noteIdle d.postFeedbacks
    else if d.out = [] ∧ d.shouldStop then c.noteIdle d.postFeedbacks.stop
    else if d.out = [] then c.noteIdle d
    else d.asyncWrite

/-- `do_write` of the handler. -/
def doWrite (c : Http1) : Http1 := if c.connected then c.connectorDoWrite else c

/-- The completion of the write in flight. -/
def written (c : Http1) (r : WriteResult) : Http1 :=
  match c.writing with
  | none => c
  | some w =>
      let c := { c with
        writing := none
        outstanding := c.outstanding - 1
        completed := c.completed ++ [(w.buffer, r)] }
      match r with
      | .ok => (c.post (w.feedbacks.map fun f => .feedback f true)).connectorDoWrite
      | .failed => c.stop.post (w.feedbacks.map fun f => .feedback f false)
      | .cancelled => c.post (w.feedbacks.map fun f => .feedback f false)

/-! ### Terminal notifications -/

/-- `notify_all`. -/
def notifyAll (c : Http1) (e : ErrorCode) : Http1 :=
  let c := c.remoteObjects.foldl (fun c id => c.remoteEnd id (.error e)) c
  let c := c.localObjects.foldl (fun c id => if c.alive id then c.localError e id else c) c
  { c with remoteObjects := [], localObjects := [] }

/-- `close`. -/
def close (c : Http1) : Http1 :=
  let c := { c with userClose := true }
  let c := if c.connected then c.stop else c
  c.notifyAll .connectionClosed

/-- `on_connector_nulled`. -/
def onConnectorNulled (c : Http1) : Http1 :=
  if c.userClose then c
  else
    let c := (c.notifyAll .closedByClient).error .closedByClient
    let c := c.pendingClearCallbacks.foldl
      (fun c f => c.localError .missingStreamElement f.id) c
    { c with pendingClearCallbacks := [] }

/-- The connector is destroyed. -/
def loseConnector (c : Http1) : Http1 := { c with connected := false }.onConnectorNulled

/-! ### Decoding -/

/-- `get_user_handlers`: a new transaction, if there is a connector. -/
def getUserHandlers (c : Http1) : Http1 :=
  if !c.connected then c
  else { c with
    opened := c.opened + 1
    remoteObjects := c.remoteObjects ++ [c.opened]
    localObjects := c.localObjects ++ [c.opened] }

/-- `get_current`. -/
def getCurrent (c : Http1) : Option Nat × Http1 :=
  if c.decodingError then (none, c)
  else match c.remoteObjects with
    | [] => (none, { c with decodingError := true }.error .invalidRead)
    | id :: _ => if (c.remotes id).terminated then (none, c.error .invalidRead) else (some id, c)

/-- `decoding_start`. The server opens a transaction and shows it to the application. -/
def decodingStart (c : Http1) : Http1 :=
  let c := { c with decodingError := false, managingContinue := false }
  if c.role = .server then c.getUserHandlers else c

/-- `update_persistent`: the flag afterwards. -/
def updatePersistent (c : Http1) (m : StructuredData) : Bool :=
  if m.protocolVersion = .HTTP10 then
    c.persistent && (m.has hfConnection && m.getHeader hfConnection = hvKeepalive)
  else c.persistent && (!m.has hfConnection || m.getHeader hfConnection = hvKeepalive)

/-- A default-constructed `current_decoded_object`; the status code of a response is what
its member happens to hold. -/
def freshObject (garbage : Nat) : Role → Message
  | .server => .request .fresh
  | .client => .response (.fresh garbage)

/-- `status_code() == 100`. -/
def isContinue : Message → Bool
  | .request _ => false
  | .response r => r.statusCode = 100

/-- `decoded_headers`, given the `current_decoded_object`: the object afterwards. A client
keeps an interim response to itself. -/
def decodedHeaders (garbage : Nat) (m : Message) (c : Http1) : Message × Http1 :=
  let (current, c) := c.getCurrent
  match current with
  | none => (m, c.record (.received m.data false))
  | some id =>
      let persistent := c.updatePersistent m.data
      let c : Http1 := { c.record (.received m.data true) with persistent := persistent }
      let m := m.setData (m.data.setKeepalive persistent)
      let fresh := freshObject garbage c.role
      if c.role = .server then (fresh, c.remoteEvent id (.headers m))
      else
        let c : Http1 := { c with managingContinue := isContinue m }
        (fresh, if c.managingContinue then c else c.remoteEvent id (.headers m))

/-- `decoded_body`. -/
def decodedBody (bytes : ByteString) (c : Http1) : Http1 :=
  match c.getCurrent with
  | (none, c) => c
  | (some id, c) => c.remoteEvent id (.body bytes)

/-- `decoded_trailer`. -/
def decodedTrailer (key value : ByteString) (c : Http1) : Http1 :=
  match c.getCurrent with
  | (none, c) => c
  | (some id, c) => if c.managingContinue then c else c.remoteEvent id (.trailer key value)

/-- `decoding_end`. A client looks whether the response is an interim one only after it
has taken the remote object off the queue. -/
def decodingEnd (c : Http1) : Http1 :=
  match c.getCurrent with
  | (none, c) => c
  | (some id, c) =>
      if c.role = .server then
        let c := c.remoteEnd id .finished
        { c with remoteObjects := c.remoteObjects.tail }
      else
        let c := { c with remoteObjects := c.remoteObjects.tail }
        if c.managingContinue then c.remoteContinue id else c.remoteEnd id .finished

/-- `decoding_failure`: the error goes to the last local object, and the first one is
removed. -/
def decodingFailure (c : Http1) : Except Fault Http1 :=
  match c.getCurrent with
  | (none, c) => .ok c
  | (some id, c) =>
      let c := c.remoteEnd id (.error .decoding)
      let c := { c with remoteObjects := c.remoteObjects.tail }
      match c.localObjects.getLast? with
      | none => .error .emptyList
      | some last =>
          let c := if c.alive last then c.localError .decoding last else c
          .ok { c with localObjects := c.localObjects.tail }

/-! ### Local content -/

/-- Append to `serialization` on behalf of a local object, and write. -/
def serialise (c : Http1) (id : Nat) (bytes : ByteString) : Http1 :=
  { c.record (.serialised id bytes) with
    serialization := c.serialization ++ bytes
    serialised := c.serialised ++ bytes }

/-- `Except` of the encoder as one of the connection. -/
def encoded (r : Except EncoderAssertion (ByteString × Encoder)) :
    Except Fault (ByteString × Encoder) := r.mapError .encoder

/-- `preamble` and `notify_local_headers`. -/
def notifyLocalHeaders (c : Http1) (id : Nat) (m : Message) : Except Fault Http1 := do
  let c := c.setLocal id { c.locals id with headers := none }
  let c := if m.data.has hfConnection then
      { c with persistent := m.data.getHeader hfConnection = hvKeepalive }
    else c
  let (bytes, encoder) ← encoded (c.encoder.encodeHeader m)
  .ok (({ c.record (.sent m.data) with encoder := encoder }.serialise id bytes).doWrite)

/-- `get_body` and `notify_local_body`. -/
def notifyLocalBody (c : Http1) (id : Nat) : Except Fault Http1 := do
  let l := c.locals id
  let c := c.setLocal id { l with content := [] }
  let (bytes, encoder) ← encoded (c.encoder.encodeBody l.content)
  .ok (({ c with encoder := encoder }.serialise id bytes).doWrite)

/-- `get_trailer` and `notify_local_trailer`. -/
def notifyLocalTrailer (c : Http1) (id : Nat) (key value : ByteString) : Except Fault Http1 := do
  let l := c.locals id
  let c := c.setLocal id { l with trailers := l.trailers.tail }
  let (bytes, encoder) ← encoded (c.encoder.encodeTrailer key value)
  .ok (({ c with encoder := encoder }.serialise id bytes).doWrite)

/-- The case `ended` of `poll_local`: the feedback is queued, and `notify_local_end`. -/
def notifyLocalEnd (c : Http1) (id : Nat) : Except Fault Http1 := do
  let (bytes, encoder) ← encoded c.encoder.encodeEom
  let c : Http1 := ({ c with encoder := encoder }.serialise id bytes).record (.ended id)
  let c : Http1 := { c with
    pendingClearCallbacks := c.pendingClearCallbacks ++ [⟨id, c.serialised.length⟩] }
  .ok c.doWrite

/-- The interim response of a server. -/
def continueResponse : Message :=
  .response { (HttpResponse.fresh 0).setStatus 100 with
    toStructuredData := (HttpResponse.fresh 0).toStructuredData.setProtocol .HTTP11 }

/-- The case `send_continue` of `poll_local`. -/
def notifyContinue (c : Http1) (id : Nat) : Except Fault Http1 := do
  let (header, encoder) ← encoded (c.encoder.encodeHeader continueResponse)
  let (eom, encoder) ← encoded encoder.encodeEom
  .ok (({ c with encoder := encoder }.serialise id (header ++ eom)).doWrite)

/-- The loop of `poll_local`: whether the object has finished. The call of
`connection_t::cleared` is left to the caller. -/
def pollLoop (id : Nat) : Nat → Http1 → Except Fault (Http1 × Bool)
  | 0, _ => .error .exhausted
  | fuel + 1, c =>
      let (state, l) := (c.locals id).getState
      let c := c.setLocal id l
      match state with
      | .pending => .ok (c, false)
      | .headersReceived =>
          match l.headers with
          | none => .ok (c, false)
          | some m => do
              let c ← c.notifyLocalHeaders id m
              pollLoop id fuel c
      | .bodyReceived => do
          let c ← c.notifyLocalBody id
          pollLoop id fuel c
      | .trailerReceived =>
          match l.trailers with
          | [] => .ok (c, false)
          | (key, value) :: _ => do
              let c ← c.notifyLocalTrailer id key value
              pollLoop id fuel c
      | .ended => do
          let c ← c.notifyLocalEnd id
          .ok (c, true)
      | .sendContinue => do
          let c ← c.notifyContinue id
          .ok (c, false)

/-- `poll_local`. Every round takes something from the object. -/
def pollLocal (c : Http1) (id : Nat) : Except Fault (Http1 × Bool) :=
  pollLoop id (4 + (c.locals id).trailers.length) c

/-- `local_objects.pop_front()` after an object has finished. -/
def popFront (c : Http1) : Except Fault Http1 :=
  match c.localObjects with
  | [] => .error .emptyList
  | id :: rest => .ok { c.record (.removed id) with localObjects := rest }

end Http1

/-- What the application may do. -/
inductive UserOp
  | create
  | headers (id : Nat) (m : Message)
  | body (id : Nat) (bytes : ByteString)
  | trailer (id : Nat) (key value : ByteString)
  | finish (id : Nat)
  | sendContinue (id : Nat)
  | onError (id : Nat)
  | onWrite (id : Nat)
  | drop (id : Nat)
  | close
  | setPersistent (b : Bool)

namespace Http1

/-- May the application use the local object? -/
def usable (c : Http1) (id : Nat) : Bool := id < c.opened && (c.locals id).held

/-- A call of the application; `notify` is `notify_local_content`. Only a client creates
transactions, and only a server sends a continue. -/
def userOp (notify : Http1 → Except Fault Http1) (c : Http1) : UserOp → Except Fault Http1
  | .create => .ok (if c.role = .client then c.getUserHandlers else c)
  | .headers id m =>
      if c.usable id then notify (c.setLocal id { c.locals id with headers := some m }) else .ok c
  | .body id bytes =>
      if c.usable id then
        notify (c.setLocal id { c.locals id with content := (c.locals id).content ++ bytes })
      else .ok c
  | .trailer id key value =>
      if c.usable id then
        notify (c.setLocal id { c.locals id with
          trailers := (c.locals id).trailers ++ [(key, value)] })
      else .ok c
  | .finish id =>
      if !c.usable id then .ok c
      else if c.role = .server then .ok (c.post [.endResponse id])
      else do
        let c ← notify (c.setLocal id { c.locals id with ended := true })
        .ok (c.setLocal id { c.locals id with myself := true })
  | .sendContinue id =>
      if c.usable id && c.role = .server then
        notify (c.setLocal id { c.locals id with continueRequired := true })
      else .ok c
  | .onError id =>
      .ok (if c.usable id then c.setLocal id { c.locals id with errorCallback := true } else c)
  | .onWrite id =>
      .ok (if c.usable id then c.setLocal id { c.locals id with writeCallback := true } else c)
  | .drop id => .ok (if c.usable id then c.setLocal id { c.locals id with held := false } else c)
  | .close => .ok c.close
  | .setPersistent b => .ok { c.record (.persistentSet b) with persistent := b }

/-- `notify_local_content`. `sent` is what the application does in its `on_request_sent`
callback, which `connection_t::cleared` calls on a client before the finished request is
taken off the list. -/
def notifyLocalContent (sent : Http1 → List UserOp) : Nat → Http1 → Except Fault Http1
  | 0, _ => .error .exhausted
  | fuel + 1, c =>
      match c.localObjects with
      | [] => .ok c
      | id :: _ =>
          if c.alive id then do
            let (c, finished) ← c.pollLocal id
            if finished then do
              let c ← if c.role = .client then
                  (sent c).foldlM (userOp (notifyLocalContent sent fuel)) c
                else .ok c
              let c ← c.popFront
              notifyLocalContent sent fuel c
            else .ok c
          else
            notifyLocalContent sent fuel
              ((c.error .missingStreamElement).notifyAll .missingStreamElement)

/-- The next closure of the `io_service`. -/
def runPosted (notify : Http1 → Except Fault Http1) (c : Http1) : Except Fault Http1 :=
  match c.posted with
  | [] => .ok c
  | .endResponse id :: rest => do
      -- the closure holds the object until it has run
      let c : Http1 := { c with posted := rest, running := some id }
      let c ← notify (c.setLocal id { c.locals id with ended := true })
      .ok { c.setLocal id { c.locals id with myself := !(c.locals id).ended } with running := none }
  | .feedback f success :: rest =>
      .ok (if success then { c with posted := rest }.localCleared f.id
        else { c with posted := rest }.localError .missingStreamElement f.id)
  | .remoteEnded id :: rest =>
      .ok ({ c with posted := rest }.setRemote id { c.remotes id with terminated := true })
  | .callback _ :: rest => .ok { c with posted := rest }

end Http1

/-- What happens to a connection: a call of the application, the next posted closure, a
callback of the decoder, the completion of the write in flight, a read that fails, and
the end of the connector, which a write in flight keeps alive. -/
inductive Op
  | user (op : UserOp)
  | posted
  | decodingStart
  | decodedHeaders (m : Message)
  | decodedBody (bytes : ByteString)
  | decodedTrailer (key value : ByteString)
  | decodingEnd
  | decodingFailure
  | written (r : WriteResult)
  | readFailed
  | connectorLost

namespace Http1

/-- One step of a connection. -/
def step (sent : Http1 → List UserOp) (fuel : Nat) (c : Http1) : Op → Except Fault Http1
  | .user op => userOp (notifyLocalContent sent fuel) c op
  | .posted => runPosted (notifyLocalContent sent fuel) c
  | .decodingStart => .ok c.decodingStart
  | .decodedHeaders m => .ok (c.decodedHeaders 0 m).2
  | .decodedBody bytes => .ok (c.decodedBody bytes)
  | .decodedTrailer key value => .ok (c.decodedTrailer key value)
  | .decodingEnd => .ok c.decodingEnd
  | .decodingFailure => c.decodingFailure
  | .written r => .ok (c.written r)
  | .readFailed => .ok c.stop
  | .connectorLost => .ok (if c.writing.isNone then c.loseConnector else c)

/-- A run. -/
def run (sent : Http1 → List UserOp) (fuel : Nat) (c : Http1) (ops : List Op) :
    Except Fault Http1 := ops.foldlM (step sent fuel) c

end Http1

end Doormat.Protocol
