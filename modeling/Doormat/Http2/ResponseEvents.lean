import Doormat.Http.Message
import Doormat.Http2.Fields

/-! The response side of a client stream: the callbacks of the library, in
`session_client` and `stream_client`, and the events that they raise on the
`client_response`. -/
namespace Doormat.Http2

open Bytes Doormat.Http

/-- The events of a `client_response`. -/
inductive ResponseEvent
  | headers (response : HttpResponse)
  | body (data : ByteString)
  | trailer (key value : ByteString)
  | finished
deriving DecidableEq

namespace ResponseEvent

def isHeaders : ResponseEvent → Bool
  | .headers _ => true
  | _ => false

@[simp] theorem isHeaders_headers (response : HttpResponse) : (headers response).isHeaders = true :=
  rfl

@[simp] theorem isHeaders_body (data : ByteString) : (body data).isHeaders = false := rfl

@[simp] theorem isHeaders_finished : finished.isHeaders = false := rfl

def body? : ResponseEvent → Option ByteString
  | .body data => some data
  | _ => none

def trailer? : ResponseEvent → Option (ByteString × ByteString)
  | .trailer key value => some (key, value)
  | _ => none

end ResponseEvent

/-- What the library calls for a stream of a client session. A frame is received when all its
fields or data have been. -/
inductive ResponseCallback
  | onHeader (name value : ByteString)
  | onDataChunkRecv (data : ByteString)
  | onFrameRecv (isHeaders endStream : Bool)
deriving DecidableEq

/-- The fields of `stream_client` that the response goes through. `res` tells whether the
`client_response` is still held. -/
structure ResponseStream where
  response : HttpResponse
  status : Int
  headersSent : Bool
  res : Bool

namespace ResponseStream

/-- The response that the constructor prepares. -/
def prepared (garbage : Nat) : HttpResponse :=
  let response := HttpResponse.fresh garbage
  { response with toStructuredData := response.toStructuredData.setProtocol .HTTP11 }

def init (garbage : Nat) : ResponseStream := ⟨prepared garbage, 200, false, true⟩

/-- What is left of a response that was moved from. -/
def movedFrom (r : HttpResponse) : HttpResponse := { r with headers := .empty, statusMessage := [] }

def setUriHost (s : ResponseStream) (p : ByteString) : ResponseStream :=
  let data := s.response.toStructuredData.storeHeader hfHost p
  { s with response := { s.response with toStructuredData := data } }

def setStatus (s : ResponseStream) (code : Int) : ResponseStream :=
  { s with status := code, response := s.response.setStatus (code % 65536).toNat }

/-- `response.header(key, value)`. There is no response where it throws. -/
def addField (r : HttpResponse) (field : ByteString × ByteString) : Option HttpResponse :=
  (r.toStructuredData.header field.1 field.2).toOption.map fun data =>
    { r with toStructuredData := data }

def addHeader (s : ResponseStream) (key value : ByteString) :
    Option (ResponseStream × List ResponseEvent) :=
  if !s.headersSent then
    (addField s.response (key, value)).map fun response => ({ s with response := response }, [])
  else if s.res then some (s, [.trailer key value])
  else none

def onResponseHeaderComplete (s : ResponseStream) : Option (ResponseStream × List ResponseEvent) :=
  if s.res then
    some ({ s with response := movedFrom s.response, headersSent := true }, [.headers s.response])
  else none

def onResponseBody (s : ResponseStream) (data : ByteString) :
    Option (ResponseStream × List ResponseEvent) :=
  if s.res then some (s, [.body data]) else none

def onResponseFinished (s : ResponseStream) : Option (ResponseStream × List ResponseEvent) :=
  if s.res then some ({ s with res := false }, [.finished]) else none

def authorityName : ByteString := ofString ":authority"
def statusName : ByteString := ofString ":status"

/-- `on_header_callback`. There is none where `std::stoi` throws. -/
def onHeaderCallback (s : ResponseStream) (name value : ByteString) :
    Option (ResponseStream × List ResponseEvent) :=
  if name = authorityName then some (s.setUriHost value, [])
  else if name = statusName then (stoi value).toOption.map fun code => (s.setStatus code, [])
  else s.addHeader name value

/-- `on_frame_recv_callback`. Every block of headers is taken for the response's. -/
def onFrameRecvCallback (s : ResponseStream) (isHeaders endStream : Bool) :
    Option (ResponseStream × List ResponseEvent) := do
  let (s, completed) ← if isHeaders then s.onResponseHeaderComplete else some (s, [])
  let (s, finished) ← if endStream then s.onResponseFinished else some (s, [])
  some (s, completed ++ finished)

def step (s : ResponseStream) : ResponseCallback → Option (ResponseStream × List ResponseEvent)
  | .onHeader name value => s.onHeaderCallback name value
  | .onDataChunkRecv data => s.onResponseBody data
  | .onFrameRecv isHeaders endStream => s.onFrameRecvCallback isHeaders endStream

/-- The events of a run of callbacks. Without a `client_response`, or after a throw, there is
no run. -/
def run (s : ResponseStream) : List ResponseCallback → Option (ResponseStream × List ResponseEvent)
  | [] => some (s, [])
  | c :: cs => do
      let (s, events) ← s.step c
      let (s, later) ← s.run cs
      some (s, events ++ later)

end ResponseStream

/-- A block of headers with a status. -/
structure StatusBlock (low high : Nat) where
  status : Nat
  inRange : low ≤ status ∧ status < high
  fields : List RegularField

/-- The frames of a response: interim responses, the final one, its data frames with the
chunks in which each is reported, and the trailers. -/
structure ResponseFrames where
  interim : List (StatusBlock 100 200)
  final : StatusBlock 200 1000
  data : List (List ByteString)
  trailing : Option (List RegularField)

def fieldCallbacks (fields : List RegularField) : List ResponseCallback :=
  fields.map fun f => .onHeader f.name f.value

def StatusBlock.callbacks {low high : Nat} (b : StatusBlock low high) (endStream : Bool) :
    List ResponseCallback :=
  .onHeader ResponseStream.statusName (numeral b.status) :: fieldCallbacks b.fields ++
    [.onFrameRecv true endStream]

/-- The callbacks of data frames; `endStream` is the flag of the last. -/
def dataCallbacks (endStream : Bool) : List (List ByteString) → List ResponseCallback
  | [] => []
  | [chunks] => chunks.map .onDataChunkRecv ++ [.onFrameRecv false endStream]
  | chunks :: frames =>
      chunks.map .onDataChunkRecv ++ .onFrameRecv false false :: dataCallbacks endStream frames

namespace ResponseFrames

/-- The callbacks of a response. The last frame ends the stream. -/
def callbacks (f : ResponseFrames) : List ResponseCallback :=
  f.interim.flatMap (·.callbacks false) ++
    f.final.callbacks (f.data = [] && f.trailing.isNone) ++
    dataCallbacks f.trailing.isNone f.data ++
    (match f.trailing with
      | none => []
      | some fields => fieldCallbacks fields ++ [.onFrameRecv true true])

/-- The response is the final one: its status, and its fields as they are. -/
structure IsFinal (f : ResponseFrames) (r : HttpResponse) : Prop where
  status : r.statusCode = f.final.status
  fields : HasEntries r.toStructuredData (f.final.fields.map RegularField.entry)

/-- The events tell the response: its headers once and before the body, its trailers in their
order, and its end once and last. -/
structure Told (f : ResponseFrames) (events : List ResponseEvent) : Prop where
  headers : ∃ r, f.IsFinal r ∧ events.filter (·.isHeaders) = [.headers r]
  first : ∀ before data after, events = before ++ .body data :: after →
    ∃ e ∈ before, e.isHeaders = true
  body : events.filterMap ResponseEvent.body? = f.data.flatten
  trailers : events.filterMap ResponseEvent.trailer? =
    (f.trailing.getD []).map RegularField.pair
  finished : ∃ before, events = before ++ [.finished] ∧ .finished ∉ before

/-- The callbacks of the response raise the events that tell it. -/
def Faithful (f : ResponseFrames) (garbage : Nat) : Prop :=
  ∃ s events, (ResponseStream.init garbage).run f.callbacks = some (s, events) ∧ f.Told events

end ResponseFrames

namespace ResponseStream

variable {s t u : ResponseStream} {events : List ResponseEvent}

theorem run_cons_eq_some {c : ResponseCallback} {cs : List ResponseCallback} :
    s.run (c :: cs) = some (u, events) ↔ ∃ t raised later,
      s.step c = some (t, raised) ∧ t.run cs = some (u, later) ∧ events = raised ++ later := by
  simp only [run, Option.bind_eq_bind, Option.bind_eq_some_iff, Option.some.injEq, Prod.mk.injEq,
    Prod.exists]
  constructor
  · intro ⟨t, raised, hStep, v, later, hRun, hu, hEvents⟩
    exact ⟨t, raised, later, hStep, hu ▸ hRun, hEvents.symm⟩
  · intro ⟨t, raised, later, hStep, hRun, hEvents⟩
    exact ⟨t, raised, hStep, u, later, hRun, rfl, hEvents.symm⟩

/-- A run goes on after its first callbacks. -/
theorem run_append {as bs : List ResponseCallback} {first : List ResponseEvent}
    (hFirst : s.run as = some (t, first)) :
    s.run (as ++ bs) = (t.run bs).map fun r => (r.1, first ++ r.2) := by
  induction as generalizing s first with
  | nil =>
      cases hFirst
      simp
  | cons a as ih =>
      obtain ⟨v, raised, rest, hStep, hRest, hEvents⟩ := run_cons_eq_some.mp hFirst
      have hMore := ih hRest
      rw [List.cons_append, run, hStep, hEvents]
      simp only [Option.bind_eq_bind, Option.bind_some, hMore]
      cases t.run bs with
      | none => rfl
      | some r => simp

/-- A run that stops at the first callbacks stops. -/
theorem run_append_eq_none {as bs : List ResponseCallback} (hFirst : s.run as = none) :
    s.run (as ++ bs) = none := by
  induction as generalizing s with
  | nil => cases hFirst
  | cons a as ih =>
      rw [run] at hFirst
      rw [List.cons_append, run]
      cases hStep : s.step a with
      | none => rfl
      | some r =>
          cases hRest : r.1.run as with
          | none => simp [ih hRest]
          | some r' => simp [hStep, hRest] at hFirst

end ResponseStream

/-- Does the callback report the end of a block of headers? -/
def ResponseCallback.completesHeaders : ResponseCallback → Bool
  | .onFrameRecv isHeaders _ => isHeaders
  | _ => false

namespace ResponseCallback

@[simp] theorem completesHeaders_onHeader (name value : ByteString) :
    (onHeader name value).completesHeaders = false := rfl

@[simp] theorem completesHeaders_onDataChunkRecv (data : ByteString) :
    (onDataChunkRecv data).completesHeaders = false := rfl

@[simp] theorem completesHeaders_onFrameRecv (isHeaders endStream : Bool) :
    (onFrameRecv isHeaders endStream).completesHeaders = isHeaders := rfl

end ResponseCallback

namespace ResponseStream

variable {s t : ResponseStream} {events : List ResponseEvent}

theorem addHeader_raises {key value : ByteString} (h : s.addHeader key value = some (t, events)) :
    events.countP (·.isHeaders) = 0 := by
  rw [addHeader] at h
  split at h
  · obtain ⟨r, -, hEq⟩ := Option.map_eq_some_iff.mp h
    cases hEq
    rfl
  · split at h
    · cases h
      rfl
    · cases h

theorem onHeaderCallback_raises {name value : ByteString}
    (h : s.onHeaderCallback name value = some (t, events)) : events.countP (·.isHeaders) = 0 := by
  rw [onHeaderCallback] at h
  split at h
  · cases h
    rfl
  · split at h
    · obtain ⟨code, -, hEq⟩ := Option.map_eq_some_iff.mp h
      cases hEq
      rfl
    · exact addHeader_raises h

theorem onFrameRecvCallback_raises {isHeaders endStream : Bool}
    (h : s.onFrameRecvCallback isHeaders endStream = some (t, events)) :
    events.countP (·.isHeaders) = if isHeaders then 1 else 0 := by
  have hRaised : events = (if isHeaders then [.headers s.response] else []) ++
      (if endStream then [.finished] else []) := by
    cases hRes : s.res <;> cases isHeaders <;> cases endStream <;>
      simp_all [onFrameRecvCallback, onResponseHeaderComplete, onResponseFinished]
  rw [hRaised]
  cases isHeaders <;> cases endStream <;> rfl

/-- One callback raises a headers event exactly if a block of headers ends there. -/
theorem step_raises {c : ResponseCallback} (h : s.step c = some (t, events)) :
    events.countP (·.isHeaders) = if c.completesHeaders then 1 else 0 := by
  cases c with
  | onHeader name value => exact onHeaderCallback_raises h
  | onDataChunkRecv data =>
      rw [step, onResponseBody] at h
      split at h
      · cases h
        rfl
      · cases h
  | onFrameRecv isHeaders endStream => exact onFrameRecvCallback_raises h

/-- A run raises as many headers events as there are blocks of headers. -/
theorem run_raises {cs : List ResponseCallback} (h : s.run cs = some (t, events)) :
    events.countP (·.isHeaders) = cs.countP (·.completesHeaders) := by
  induction cs generalizing s events with
  | nil =>
      cases h
      rfl
  | cons c cs ih =>
      obtain ⟨u, raised, later, hStep, hRun, hEvents⟩ := run_cons_eq_some.mp h
      rw [hEvents, List.countP_append, List.countP_cons, step_raises hStep, ih hRun, Nat.add_comm]

end ResponseStream

section Counting

theorem countP_fieldCallbacks (fields : List RegularField) :
    (fieldCallbacks fields).countP (·.completesHeaders) = 0 := by
  rw [fieldCallbacks, List.countP_map]
  exact List.countP_eq_zero.mpr (by simp)

theorem countP_chunks (chunks : List ByteString) :
    (chunks.map ResponseCallback.onDataChunkRecv).countP (·.completesHeaders) = 0 := by
  rw [List.countP_map]
  exact List.countP_eq_zero.mpr (by simp)

theorem countP_dataCallbacks (endStream : Bool) (data : List (List ByteString)) :
    (dataCallbacks endStream data).countP (·.completesHeaders) = 0 := by
  fun_induction dataCallbacks endStream data with
  | case1 => rfl
  | case2 chunks =>
      rw [List.countP_append, countP_chunks]
      rfl
  | case3 chunks frames _ ih =>
      rw [List.countP_append, countP_chunks, List.countP_cons, ih]
      rfl

theorem StatusBlock.countP_callbacks {low high : Nat} (b : StatusBlock low high)
    (endStream : Bool) : (b.callbacks endStream).countP (·.completesHeaders) = 1 := by
  simp [StatusBlock.callbacks, countP_fieldCallbacks]

theorem ResponseFrames.countP_callbacks (f : ResponseFrames) :
    f.callbacks.countP (·.completesHeaders) =
      f.interim.length + 1 + if f.trailing.isSome then 1 else 0 := by
  have hInterim : (f.interim.flatMap (·.callbacks false)).countP (·.completesHeaders) =
      f.interim.length := by
    rw [List.countP_flatMap]
    simp [Function.comp_def, StatusBlock.countP_callbacks]
  cases hTrailing : f.trailing with
  | none =>
      simp [ResponseFrames.callbacks, hTrailing, hInterim, StatusBlock.countP_callbacks,
        countP_dataCallbacks]
  | some fields =>
      simp [ResponseFrames.callbacks, hTrailing, hInterim, StatusBlock.countP_callbacks,
        countP_dataCallbacks, countP_fieldCallbacks]

end Counting

namespace ResponseStream

variable {s : ResponseStream}

theorem RegularField.ne_pseudo (f : RegularField) :
    f.name ≠ authorityName ∧ f.name ≠ statusName := by
  constructor
  · intro hEq
    exact f.regular (by rw [hEq]; decide)
  · intro hEq
    exact f.regular (by rw [hEq]; decide)

/-- Before the end of the headers the fields go into the response. -/
theorem run_fieldCallbacks (fields : List RegularField) (hOpen : s.headersSent = false) :
    s.run (fieldCallbacks fields) =
      (storeFields s.response.toStructuredData fields).map fun data =>
        ({ s with response := { s.response with toStructuredData := data } }, []) := by
  induction fields generalizing s with
  | nil => rfl
  | cons f fields ih =>
      obtain ⟨hAuthority, hStatus⟩ := RegularField.ne_pseudo f
      have hStep : s.step (.onHeader f.name f.value) =
          (addField s.response (f.name, f.value)).map fun r => ({ s with response := r }, []) := by
        simp [step, onHeaderCallback, hAuthority, hStatus, addHeader, hOpen]
      have hCallbacks : fieldCallbacks (f :: fields) =
          .onHeader f.name f.value :: fieldCallbacks fields := rfl
      have hStore : storeFields s.response.toStructuredData (f :: fields) =
          ((s.response.toStructuredData.header f.name f.value).toOption).bind
            fun data => storeFields data fields := rfl
      rw [hCallbacks, run, hStep, hStore, addField]
      cases (s.response.toStructuredData.header f.name f.value).toOption with
      | none => rfl
      | some data =>
          have hRest := ih (s := { s with response := { s.response with toStructuredData := data } })
            hOpen
          simp only [Option.map_some, Option.bind_eq_bind, Option.bind_some, hRest]
          cases storeFields data fields with
          | none => rfl
          | some data' => rfl

theorem run_chunks (chunks : List ByteString) (hRes : s.res = true) :
    s.run (chunks.map .onDataChunkRecv) = some (s, chunks.map .body) := by
  induction chunks with
  | nil => rfl
  | cons data chunks ih =>
      have hStep : s.step (.onDataChunkRecv data) = some (s, [.body data]) := by
        simp [step, onResponseBody, hRes]
      exact run_cons_eq_some.mpr ⟨s, [.body data], _, hStep, ih, rfl⟩

/-- A frame with the flag ends the response. -/
theorem run_endStream (hRes : s.res = true) :
    s.run [.onFrameRecv false true] = some ({ s with res := false }, [.finished]) := by
  simp [run, step, onFrameRecvCallback, onResponseFinished, hRes]

/-- Data frames raise one event for each chunk, and the last one the end. -/
theorem run_dataCallbacks {data : List (List ByteString)} (hData : data ≠ [])
    (hRes : s.res = true) :
    s.run (dataCallbacks true data) =
      some ({ s with res := false }, data.flatten.map .body ++ [.finished]) := by
  fun_induction dataCallbacks true data with
  | case1 => exact absurd rfl hData
  | case2 chunks =>
      rw [List.flatten_singleton, run_append (run_chunks chunks hRes), run_endStream hRes]
      rfl
  | case3 chunks frames hNe ih =>
      have hFrame : s.step (.onFrameRecv false false) = some (s, []) := rfl
      have hRest := run_cons_eq_some.mpr ⟨s, [], _, hFrame, ih hNe, rfl⟩
      rw [List.flatten_cons, List.map_append, List.append_assoc,
        run_append (run_chunks chunks hRes), hRest]
      rfl

/-- The response that a block with a status makes of one. -/
def withBlock {low high : Nat} (r : HttpResponse) (b : StatusBlock low high)
    (data : StructuredData) : HttpResponse :=
  { r.setStatus b.status with toStructuredData := data }

/-- A block with a status, at the start of a response. -/
theorem run_statusBlock {low high : Nat} (b : StatusBlock low high) (hHigh : high ≤ 1000)
    (hOpen : s.headersSent = false) (hRes : s.res = true) (endStream : Bool) :
    s.run (b.callbacks endStream) =
      (storeFields s.response.toStructuredData b.fields).map fun data =>
        (⟨movedFrom (withBlock s.response b data), b.status, true, !endStream⟩,
          .headers (withBlock s.response b data) :: if endStream then [.finished] else []) := by
  have hLt : b.status < 1000 := Nat.lt_of_lt_of_le b.inRange.2 hHigh
  have hRead : stoi (numeral b.status) = .ok b.status := stoi_numeral (by omega)
  have hSmall : ((b.status : Int) % 65536).toNat = b.status := by omega
  have hStatus : s.run [.onHeader statusName (numeral b.status)] =
      some (s.setStatus b.status, []) := by
    have hNe : statusName ≠ authorityName := by decide
    simp [run, step, onHeaderCallback, hNe, hRead, Except.toOption]
  have hResponse : (s.setStatus b.status).response = s.response.setStatus b.status := by
    rw [setStatus, hSmall]
  have hData : (s.setStatus b.status).response.toStructuredData = s.response.toStructuredData := by
    rw [hResponse]
    rfl
  have hFields := run_fieldCallbacks b.fields (s := s.setStatus b.status) hOpen
  rw [hData, hResponse] at hFields
  have hBlock : b.callbacks endStream =
      [.onHeader statusName (numeral b.status)] ++ (fieldCallbacks b.fields ++
        [.onFrameRecv true endStream]) := by
    simp [StatusBlock.callbacks]
  rw [hBlock, run_append hStatus]
  cases hStored : storeFields s.response.toStructuredData b.fields with
  | none =>
      rw [hStored] at hFields
      rw [run_append_eq_none hFields]
      rfl
  | some data =>
      rw [hStored] at hFields
      rw [run_append hFields]
      cases endStream <;>
        simp [run, step, onFrameRecvCallback, onResponseHeaderComplete, onResponseFinished,
          setStatus, hRes, withBlock]

end ResponseStream

namespace ResponseFrames

open ResponseStream

variable {f : ResponseFrames} {garbage : Nat}

/-- A final block, data and nothing else. -/
theorem run_oneBlock (hInterim : f.interim = []) (hTrailing : f.trailing = none) :
    (init garbage).run f.callbacks =
      (storeFields (prepared garbage).toStructuredData f.final.fields).map fun data =>
        (⟨movedFrom (withBlock (prepared garbage) f.final data), f.final.status, true, false⟩,
          .headers (withBlock (prepared garbage) f.final data) ::
            (f.data.flatten.map .body ++ [.finished])) := by
  have hBlock := run_statusBlock (s := init garbage) f.final (by decide) rfl rfl
  have hStart : (init garbage).response = prepared garbage := rfl
  rw [hStart] at hBlock
  cases hData : f.data with
  | nil =>
      have hEnd := hBlock true
      simpa [callbacks, hInterim, hTrailing, hData, dataCallbacks] using hEnd
  | cons chunks frames =>
      have hNe : chunks :: frames ≠ [] := List.cons_ne_nil _ _
      have hCallbacks : f.callbacks =
          f.final.callbacks false ++ dataCallbacks true (chunks :: frames) := by
        simp [callbacks, hInterim, hTrailing, hData]
      have hFinal := hBlock false
      rw [hCallbacks]
      cases hStored : storeFields (prepared garbage).toStructuredData f.final.fields with
      | none =>
          rw [hStored] at hFinal
          rw [run_append_eq_none hFinal]
          rfl
      | some data =>
          rw [hStored] at hFinal
          rw [run_append hFinal, run_dataCallbacks hNe rfl]
          rfl

/-- The events of a response without trailers tell it. -/
theorem told_of_events (hTrailing : f.trailing = none) {r : HttpResponse} (hFinal : f.IsFinal r) :
    f.Told (.headers r :: (f.data.flatten.map .body ++ [.finished])) := by
  constructor
  · have hBody : (f.data.flatten.map ResponseEvent.body).filter (·.isHeaders) = [] := by
      rw [List.filter_map]
      simp [Function.comp_def]
    refine ⟨r, hFinal, ?_⟩
    rw [List.filter_cons_of_pos rfl, List.filter_append, hBody]
    rfl
  · intro before data after hEvents
    cases before with
    | nil => exact absurd hEvents (by simp)
    | cons e before =>
        obtain ⟨hHead, -⟩ := List.cons.inj hEvents
        exact ⟨e, List.mem_cons_self, by rw [← hHead]; rfl⟩
  · have hBody : (f.data.flatten.map ResponseEvent.body).filterMap ResponseEvent.body? =
        f.data.flatten := by
      rw [List.filterMap_map]
      exact List.filterMap_some
    rw [List.filterMap_cons_none rfl, List.filterMap_append, hBody]
    exact List.append_nil _
  · have hBody : (f.data.flatten.map ResponseEvent.body).filterMap ResponseEvent.trailer? = [] := by
      rw [List.filterMap_map]
      simp [Function.comp_def, ResponseEvent.trailer?]
    rw [hTrailing, List.filterMap_cons_none rfl, List.filterMap_append, hBody]
    rfl
  · exact ⟨.headers r :: f.data.flatten.map .body, rfl, by simp⟩

/-- One headers event means one block of headers. -/
theorem one_block_of_told {s : ResponseStream} {events : List ResponseEvent}
    (hRun : (init garbage).run f.callbacks = some (s, events)) (h : f.Told events) :
    f.interim = [] ∧ f.trailing = none := by
  obtain ⟨r, -, hHeaders⟩ := h.headers
  have hOne : events.countP (·.isHeaders) = 1 := by
    rw [List.countP_eq_length_filter, hHeaders]
    rfl
  have hCount := (run_raises hRun).symm.trans hOne
  rw [f.countP_callbacks] at hCount
  cases hTrailing : f.trailing with
  | none =>
      have hNone : f.interim.length = 0 := by simpa [hTrailing] using hCount
      exact ⟨List.eq_nil_of_length_eq_zero hNone, rfl⟩
  | some fields =>
      exact absurd hCount (by simp [hTrailing])

end ResponseFrames

/-- A client stream tells a response as it is if and only if the final response is its only
block of headers, the lengths in it are numbers, and its fields last. -/
theorem response_faithful_iff (f : ResponseFrames) (garbage : Nat) :
    f.Faithful garbage ↔
      f.interim = [] ∧ f.trailing = none ∧ Readable f.final.fields ∧ Lasting f.final.fields := by
  have hStart : HasEntries (ResponseStream.prepared garbage).toStructuredData
      ((hfContentLen, ofString "0") :: hostEntry none) := hasEntries_new
  constructor
  · intro ⟨s, events, hRun, hTold⟩
    obtain ⟨hInterim, hTrailing⟩ := ResponseFrames.one_block_of_told hRun hTold
    obtain ⟨r, hFinal, hHeaders⟩ := hTold.headers
    rw [ResponseFrames.run_oneBlock hInterim hTrailing] at hRun
    obtain ⟨data, hStored, hEnd⟩ := Option.map_eq_some_iff.mp hRun
    cases hEnd
    rw [List.filter_cons_of_pos rfl] at hHeaders
    cases (List.cons.inj hHeaders).1
    have hEntries : HasEntries data (entriesWith none f.final.fields) := by
      rw [entriesWith_none]
      exact hFinal.fields
    refine ⟨hInterim, hTrailing, ?_, (storeFields_lasting_iff hStart hStored).mp hEntries⟩
    exact (storeFields_isSome_iff _ _).mp (Option.isSome_of_eq_some hStored)
  · intro ⟨hInterim, hTrailing, hReadable, hLasting⟩
    obtain ⟨data, hStored⟩ := Option.isSome_iff_exists.mp
      ((storeFields_isSome_iff (ResponseStream.prepared garbage).toStructuredData _).mpr hReadable)
    have hEntries := (storeFields_lasting_iff hStart hStored).mpr hLasting
    rw [entriesWith_none] at hEntries
    have hRun := @ResponseFrames.run_oneBlock f garbage hInterim hTrailing
    rw [hStored] at hRun
    exact ⟨_, _, hRun, ResponseFrames.told_of_events hTrailing ⟨rfl, hEntries⟩⟩

/-- With `100 Continue` before the response, both blocks raise a headers event. -/
theorem interim_response_taken_for_final :
    ¬ ∀ (f : ResponseFrames) (garbage : Nat), f.Faithful garbage := by
  intro hAll
  obtain ⟨s, events, hRun, hTold⟩ :=
    hAll ⟨[⟨100, by decide, []⟩],
      ⟨200, by decide, [⟨ofString "content-length", ofString "3", by decide⟩]⟩,
      [[ofString "abc"]], none⟩ 0
  exact absurd (ResponseFrames.one_block_of_told hRun hTold).1 (List.cons_ne_nil _ _)

end Doormat.Http2
