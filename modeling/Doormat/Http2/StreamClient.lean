import Doormat.Http2.Stream
import Doormat.Http.Message

/-! `http2::stream_client`: one exchange on a client session. The application gives the
request to `on_header`, `on_body`, `on_trailer` and `on_eom`, and the library is to pull the
body out of the stream with `data_source_read_callback`. The header arrays are left out. -/
namespace Doormat.Http2

open Bytes Doormat.Http

structure StreamClient where
  status : Nat
  headersSent : Bool
  bodySent : Bool
  resumeNeeded : Bool
  eof : Bool
  errored : Bool
  closed : Bool
  body : List ByteString
  bodyIndex : Nat
  trailers : Multimap ByteString ByteString

/-- The data provider that the constructor prepares: it reads from the stream. -/
inductive DataProvider
  | prd
deriving DecidableEq

/-- What a client stream asks of the library, or its owner of it. A request goes with the
data provider it is submitted with. -/
inductive ClientEffect
  | resumeData
  | submitRequest (provider : Option DataProvider)
  | submitTrailer (trailers : Multimap ByteString ByteString)
  | submitHeaders
  | destroy

namespace StreamClient

/-- A stream whose request has not been submitted. -/
def init (status : Nat) : StreamClient where
  status := status
  headersSent := false
  bodySent := false
  resumeNeeded := false
  eof := false
  errored := false
  closed := false
  body := []
  bodyIndex := 0
  trailers := .empty

def hasTrailers (s : StreamClient) : Bool := s.trailers.entries.length > 0

def bodyEmpty (s : StreamClient) : Bool :=
  match s.body with
  | [] => true
  | [chunk] => chunk.length = s.bodyIndex
  | _ => false

def defer (s : StreamClient) : Bool := !s.eof && !s.hasTrailers && s.bodyEmpty

def bodyLength (s : StreamClient) : Nat :=
  match s.body with
  | [] => 0
  | first :: rest => first.length - s.bodyIndex + (rest.map List.length).sum

def isLastFrame (s : StreamClient) (length : Nat) : Bool :=
  s.eof && !s.hasTrailers && s.bodyLength = length

def bodyEof (s : StreamClient) : Bool := s.bodyEmpty && (s.eof || s.hasTrailers)

/-- Copy from the first chunk, and drop it when it is used up. -/
def takeFront (s : StreamClient) (length : Nat) : ByteString × StreamClient :=
  match s.body with
  | [] => ([], s)
  | first :: rest =>
      let bytes := (first.drop s.bodyIndex).take length
      let index := s.bodyIndex + bytes.length
      if index = first.length then (bytes, { s with body := rest, bodyIndex := 0 })
      else (bytes, { s with bodyIndex := index })

/-- `data_source_read_callback`. Unlike the stream of a server it looks for the end before
it copies. -/
def dataSourceReadCallback (s : StreamClient) (length : Nat) : ReadResult × StreamClient :=
  if s.defer then (.deferred, { s with resumeNeeded := true })
  else
    let eof := s.bodyEof || s.isLastFrame length
    let s := if eof then { s with bodySent := true } else s
    if s.bodyEmpty then (.data [] eof s.hasTrailers, s)
    else
      let (bytes, t) := s.takeFront length
      (.data bytes eof s.hasTrailers, t)

/-- `flush`. The request is submitted with `nullptr` for a data provider. -/
def flush (s : StreamClient) : StreamClient × Option ClientEffect :=
  if s.closed then (s, none)
  else if s.status ≠ 101 then
    if s.resumeNeeded then ({ s with resumeNeeded := false }, some .resumeData)
    else if !s.headersSent then ({ s with headersSent := true }, some (.submitRequest none))
    else if s.bodySent && s.eof then (s, some (.submitTrailer s.trailers))
    else (s, none)
  else (s, some .submitHeaders)

def die (s : StreamClient) : StreamClient × Option ClientEffect :=
  if s.eof || s.errored then (s, some .destroy) else ({ s with closed := true }, none)

/-- `on_header`, once the request's fields are in the header array. -/
def onHeader (s : StreamClient) : StreamClient × Option ClientEffect := s.flush

def onBody (s : StreamClient) (data : ByteString) : StreamClient × Option ClientEffect :=
  { s with body := s.body ++ [data] }.flush

def onTrailer (s : StreamClient) (key value : ByteString) : StreamClient :=
  { s with trailers := s.trailers.insert key value }

def onEom (s : StreamClient) : StreamClient × Option ClientEffect :=
  let s := { s with eof := true }
  if s.closed then s.die else s.flush

end StreamClient

/-- A stream whose body was never read has nothing to flush after the headers. -/
structure StreamClient.Idle (s : StreamClient) : Prop where
  alive : s.closed = false
  resume : s.resumeNeeded = false
  headers : s.headersSent = true
  unread : s.bodySent = false
  status : s.status ≠ 101

theorem StreamClient.Idle.flush {s : StreamClient} (h : s.Idle) : s.flush = (s, none) := by
  simp [StreamClient.flush, h.alive, h.resume, h.headers, h.unread, h.status]

/-- A stream and what the library has of its request: the data providers of the requests
submitted to it, the bytes it has pulled, and whether the stream has ended. -/
structure Delivery where
  stream : StreamClient
  submitted : List (Option DataProvider)
  obtained : ByteString
  ended : Bool

/-- The calls of the application and the pulls of the library. -/
inductive DeliveryOp
  | header
  | body (data : ByteString)
  | trailer (key value : ByteString)
  | eom
  | pull (length : Nat)
deriving DecidableEq

namespace Delivery

def init (status : Nat) : Delivery := ⟨.init status, [], [], false⟩

/-- The library takes a request up. One without a data provider ends with its headers. -/
def absorb (d : Delivery) : StreamClient × Option ClientEffect → Delivery
  | (stream, some (.submitRequest provider)) =>
      { d with
        stream := stream
        submitted := d.submitted ++ [provider]
        ended := provider.isNone }
  | (stream, _) => { d with stream := stream }

/-- The library pulls from the data provider it was given, until the end of the data. -/
def pull (d : Delivery) (length : Nat) : Delivery :=
  match d.submitted.getLast? with
  | some (some .prd) =>
      if d.ended then d
      else
        let (result, stream) := d.stream.dataSourceReadCallback length
        { d with
          stream := stream
          obtained := d.obtained ++ result.bytes
          ended := result.eof }
  | _ => d

def step (d : Delivery) : DeliveryOp → Delivery
  | .header => d.absorb d.stream.onHeader
  | .body data => d.absorb (d.stream.onBody data)
  | .trailer key value => { d with stream := d.stream.onTrailer key value }
  | .eom => d.absorb d.stream.onEom
  | .pull length => d.pull length

def run (d : Delivery) (ops : List DeliveryOp) : Delivery := ops.foldl step d

end Delivery

/-- What an application has to send after the headers of a request. -/
structure Outgoing where
  bodies : List ByteString
  trailers : List (ByteString × ByteString)

def DeliveryOp.isCall : DeliveryOp → Bool
  | .pull _ => false
  | _ => true

namespace Outgoing

/-- The calls that send a request. -/
def calls (r : Outgoing) : List DeliveryOp :=
  .header :: r.bodies.map .body ++ r.trailers.map (fun t => .trailer t.1 t.2) ++ [.eom]

/-- The request is sent by these operations, with the pulls of the library in between. -/
def SentBy (r : Outgoing) (ops : List DeliveryOp) : Prop := ops.filter DeliveryOp.isCall = r.calls

instance (r : Outgoing) (ops : List DeliveryOp) : Decidable (r.SentBy ops) :=
  inferInstanceAs (Decidable (_ = _))

/-- The library is given the request once and can pull the whole body up to the end of the
stream. -/
def Delivered (r : Outgoing) (d : Delivery) : Prop :=
  d.submitted.length = 1 ∧ ∃ lengths : List Nat,
    (d.run (lengths.map .pull)).ended = true ∧
      (d.run (lengths.map .pull)).obtained = r.bodies.flatten

end Outgoing

namespace Delivery

/-- Nothing has been submitted. -/
structure Unsent (d : Delivery) : Prop where
  submitted : d.submitted = []
  obtained : d.obtained = []
  alive : d.stream.closed = false
  resume : d.stream.resumeNeeded = false
  headers : d.stream.headersSent = false
  unread : d.stream.bodySent = false
  status : d.stream.status ≠ 101

/-- The request has been submitted, and the library has nothing to pull from. -/
structure Sent (d : Delivery) : Prop where
  stream : d.stream.Idle
  submitted : d.submitted = [none]
  obtained : d.obtained = []
  ended : d.ended = true

theorem unsent_init {status : Nat} (h : status ≠ 101) : Unsent (init status) :=
  ⟨rfl, rfl, rfl, rfl, rfl, rfl, h⟩

variable {d : Delivery}

/-- Before the request is submitted there is nothing to pull. -/
theorem Unsent.pull (h : Unsent d) (length : Nat) : d.pull length = d := by
  simp [Delivery.pull, h.submitted]

/-- The headers submit the request, without a data provider. -/
theorem Unsent.header (h : Unsent d) : Sent (d.step .header) := by
  have hFlush : d.stream.onHeader =
      ({ d.stream with headersSent := true }, some (.submitRequest none)) := by
    simp [StreamClient.onHeader, StreamClient.flush, h.alive, h.status, h.resume, h.headers]
  simp only [step, hFlush, absorb]
  exact {
    stream := ⟨h.alive, h.resume, rfl, h.unread, h.status⟩
    submitted := by simp [h.submitted]
    obtained := h.obtained
    ended := rfl }

theorem Sent.pull (h : Sent d) (length : Nat) : d.pull length = d := by
  simp [Delivery.pull, h.submitted]

/-- Whatever else the application calls, the library is given no second request and no
data provider. -/
theorem Sent.step (h : Sent d) (op : DeliveryOp) : Sent (d.step op) := by
  cases op with
  | header =>
      rw [Delivery.step, StreamClient.onHeader, h.stream.flush]
      exact { h with }
  | body data =>
      have hIdle : { d.stream with body := d.stream.body ++ [data] }.Idle := { h.stream with }
      rw [Delivery.step, StreamClient.onBody, hIdle.flush]
      exact { h with stream := hIdle }
  | trailer key value => exact { h with stream := { h.stream with } }
  | eom =>
      have hIdle : { d.stream with eof := true }.Idle := { h.stream with }
      have hEom : d.stream.onEom = ({ d.stream with eof := true }, none) := by
        rw [StreamClient.onEom]
        exact (if_neg (by simp [h.stream.alive])).trans hIdle.flush
      rw [Delivery.step, hEom]
      exact { h with stream := hIdle }
  | pull length =>
      rw [Delivery.step, h.pull]
      exact h

theorem Sent.run (h : Sent d) (ops : List DeliveryOp) : Sent (d.run ops) := by
  induction ops generalizing d with
  | nil => exact h
  | cons op ops ih => exact ih (h.step op)

/-- The first call of the application, wherever it comes among the pulls, is the headers. -/
theorem Unsent.run (h : Unsent d) {ops calls : List DeliveryOp}
    (hCalls : ops.filter DeliveryOp.isCall = .header :: calls) : Sent (d.run ops) := by
  induction ops with
  | nil => exact absurd hCalls (by simp)
  | cons op ops ih =>
      cases op with
      | pull length =>
          have hPull : d.run (.pull length :: ops) = d.run ops :=
            congrArg (fun e : Delivery => e.run ops) (h.pull length)
          rw [hPull]
          exact ih (by simpa [DeliveryOp.isCall] using hCalls)
      | header => exact h.header.run ops
      | body data => exact absurd (List.cons.inj hCalls).1 (by simp)
      | trailer key value => exact absurd (List.cons.inj hCalls).1 (by simp)
      | eom => exact absurd (List.cons.inj hCalls).1 (by simp)

end Delivery

/-- A request is delivered if and only if its body is empty. -/
theorem delivered_iff {status : Nat} (hStatus : status ≠ 101) (r : Outgoing)
    (ops : List DeliveryOp) (hSent : r.SentBy ops) :
    r.Delivered ((Delivery.init status).run ops) ↔ r.bodies.flatten = [] := by
  have hCalls : ops.filter DeliveryOp.isCall = .header :: (r.bodies.map .body ++
      r.trailers.map (fun t => .trailer t.1 t.2) ++ [.eom]) := hSent
  have h := (Delivery.unsent_init hStatus).run hCalls
  have hOnce : ((Delivery.init status).run ops).submitted.length = 1 := by rw [h.submitted]; rfl
  constructor
  · intro ⟨_, lengths, _, hBytes⟩
    rw [← hBytes, (h.run _).obtained]
  · intro hEmpty
    exact ⟨hOnce, [], h.ended, h.obtained.trans hEmpty.symm⟩

theorem delivered_iff_headers_only :
    Outgoing.Delivered ⟨[], []⟩ ((Delivery.init 200).run [.header, .pull 5, .eom]) ↔
      ([] : List ByteString).flatten = [] :=
  delivered_iff (by decide) ⟨[], []⟩ [.header, .pull 5, .eom] (by decide)

/-- A body of three bytes is not delivered. -/
theorem body_not_delivered :
    ¬ ∀ (status : Nat) (r : Outgoing) (ops : List DeliveryOp), status ≠ 101 → r.SentBy ops →
      r.Delivered ((Delivery.init status).run ops) := by
  intro hAll
  have hDelivered := hAll 200 ⟨[ofString "abc"], []⟩
    [.header, .body (ofString "abc"), .pull 16, .eom, .pull 16] (by decide) (by decide)
  have hUnsent : Delivery.Unsent (Delivery.init 200) := Delivery.unsent_init (by decide)
  have hCalls : [DeliveryOp.header, .body (ofString "abc"), .pull 16, .eom, .pull 16].filter
      DeliveryOp.isCall = .header :: [.body (ofString "abc"), .eom] := by decide
  have hSent := hUnsent.run hCalls
  obtain ⟨-, lengths, -, hBytes⟩ := hDelivered
  rw [(hSent.run _).obtained] at hBytes
  exact absurd hBytes (by decide)

end Doormat.Http2
