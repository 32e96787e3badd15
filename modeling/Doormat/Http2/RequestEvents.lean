import Mathlib.Data.List.Find
import Doormat.Http2.RequestPath
import Doormat.Http2.ResponseEvents

/-! The request side of a server stream: the callbacks of the library, in `session` and
`stream`, and the events that they raise on the `request`. -/
namespace Doormat.Http2

open Bytes Doormat.Parser Doormat.Http

/-- The events of a `request`. -/
inductive RequestEvent
  | headers (request : HttpRequest)
  | body (data : ByteString)
  | trailer (key value : ByteString)
  | finished
deriving DecidableEq

/-- `frame->headers.cat`: the block that opens a request, or a later one. -/
inductive HeadersCategory
  | request
  | headers
deriving DecidableEq

/-- What the library calls for a stream of a server session. A frame is received when all its
fields or data have been; `category` is there if it is of headers. -/
inductive RequestCallback
  | onBeginHeaders (category : HeadersCategory)
  | onHeader (category : HeadersCategory) (name value : ByteString)
  | onDataChunkRecv (data : ByteString)
  | onFrameRecv (category : Option HeadersCategory) (endStream : Bool)
deriving DecidableEq

/-- The fields of `stream` that the request goes through. `req` tells whether the `request` is
still held. -/
structure RequestStream where
  request : HttpRequest
  headersSent : Bool
  req : Bool

namespace RequestStream

/-- The request that the constructor prepares. -/
def prepared : HttpRequest :=
  let request := HttpRequest.fresh
  { request with toStructuredData := request.toStructuredData.setProtocol .HTTP11 }

def init : RequestStream := ⟨prepared, false, true⟩

/-- What is left of a request that was moved from. -/
def movedFrom (r : HttpRequest) : HttpRequest :=
  { r with
    headers := .empty, schema := [], urihost := [], port := [], path := [], query := [],
    fragment := [], userinfo := [] }

/-- `request.header(key, value)`. There is no request where it throws. -/
def addField (r : HttpRequest) (field : ByteString × ByteString) : Option HttpRequest :=
  (r.toStructuredData.header field.1 field.2).toOption.map fun data =>
    { r with toStructuredData := data }

def addHeader (s : RequestStream) (key value : ByteString) :
    Option (RequestStream × List RequestEvent) :=
  if !s.headersSent then
    (addField s.request (key, value)).map fun request => ({ s with request := request }, [])
  else if s.req then some (s, [.trailer key value])
  else none

def onRequestHeaderComplete (s : RequestStream) : Option (RequestStream × List RequestEvent) :=
  if s.req then
    some ({ s with request := movedFrom s.request, headersSent := true }, [.headers s.request])
  else none

def onRequestBody (s : RequestStream) (data : ByteString) :
    Option (RequestStream × List RequestEvent) :=
  if s.req then some (s, [.body data]) else none

def onRequestFinished (s : RequestStream) : Option (RequestStream × List RequestEvent) :=
  if s.req then some ({ s with req := false }, [.finished]) else none

/-- The fields of a request's headers in `on_header_callback`. -/
def onField (s : RequestStream) (name value : ByteString) :
    Option (RequestStream × List RequestEvent) :=
  if name = Session.pathName then some ({ s with request := Session.onPath s.request value }, [])
  else if name = Session.schemeName then
    some ({ s with request := { s.request with schema := value } }, [])
  else if name = Session.methodName then some ({ s with request := s.request.setMethod value }, [])
  else if name = Session.authorityName then
    some ({ s with request := Session.uriHost s.request value }, [])
  else s.addHeader name value

/-- `on_frame_recv_callback` for a stream. A later block of headers is only logged. -/
def onFrame (s : RequestStream) (category : Option HeadersCategory) (endStream : Bool) :
    Option (RequestStream × List RequestEvent) := do
  let (s, completed) ← if category = some .request then s.onRequestHeaderComplete else some (s, [])
  let (s, finished) ← if endStream then s.onRequestFinished else some (s, [])
  some (s, completed ++ finished)

/-- One callback. The stream is there once the headers of the request have begun; without it
data has nowhere to go. -/
def step (stream : Option RequestStream) (c : RequestCallback) :
    Option (Option RequestStream × List RequestEvent) :=
  match c, stream with
  | .onBeginHeaders category, stream =>
      if category ≠ .request then some (stream, []) else some (some init, [])
  | .onHeader category name value, stream =>
      if category ≠ .request then some (stream, [])
      else match stream with
        | none => some (none, [])
        | some s => (s.onField name value).map fun (s, events) => (some s, events)
  | .onDataChunkRecv _, none => none
  | .onDataChunkRecv data, some s => (s.onRequestBody data).map fun (s, events) => (some s, events)
  | .onFrameRecv _ _, none => some (none, [])
  | .onFrameRecv category endStream, some s =>
      (s.onFrame category endStream).map fun (s, events) => (some s, events)

/-- The events of a run of callbacks. Without a `request`, or after a throw, there is no run. -/
def run (stream : Option RequestStream) :
    List RequestCallback → Option (Option RequestStream × List RequestEvent)
  | [] => some (stream, [])
  | c :: cs => do
      let (stream, events) ← step stream c
      let (stream, later) ← run stream cs
      some (stream, events ++ later)

end RequestStream

/-- The pseudo-headers of a request. -/
inductive Pseudo
  | method | scheme | path | authority
deriving DecidableEq

def Pseudo.name : Pseudo → ByteString
  | .method => Session.methodName
  | .scheme => Session.schemeName
  | .path => Session.pathName
  | .authority => Session.authorityName

/-- The frames of a request: the pseudo-headers, each at most once and in any order, the other
fields, the data frames with the chunks in which each is reported, and the trailers. -/
structure RequestFrames where
  pseudo : List (Pseudo × ByteString)
  distinct : (pseudo.map Prod.fst).Nodup
  fields : List RegularField
  data : List (List ByteString)
  trailing : Option (List RegularField)

/-- The callbacks of data frames; `endStream` is the flag of the last. -/
def requestDataCallbacks (endStream : Bool) : List (List ByteString) → List RequestCallback
  | [] => []
  | [chunks] => chunks.map .onDataChunkRecv ++ [.onFrameRecv none endStream]
  | chunks :: frames =>
      chunks.map .onDataChunkRecv ++ .onFrameRecv none false :: requestDataCallbacks endStream frames

/-- The callbacks of the fields of a block. -/
def requestFieldCallbacks (category : HeadersCategory) (fields : List RegularField) :
    List RequestCallback :=
  fields.map fun f => .onHeader category f.name f.value

namespace RequestFrames

/-- The value of a pseudo-header. -/
def given (f : RequestFrames) (p : Pseudo) : Option ByteString := f.pseudo.lookup p

/-- The callbacks of a request. The last frame ends the stream. -/
def callbacks (f : RequestFrames) : List RequestCallback :=
  .onBeginHeaders .request ::
    (f.pseudo.map (fun p => .onHeader .request p.1.name p.2) ++
      requestFieldCallbacks .request f.fields ++
      [.onFrameRecv (some .request) (f.data = [] && f.trailing.isNone)] ++
      requestDataCallbacks f.trailing.isNone f.data ++
      (match f.trailing with
        | none => []
        | some fields =>
            .onBeginHeaders .headers :: requestFieldCallbacks .headers fields ++
              [.onFrameRecv (some .headers) true]))

end RequestFrames

/-- The method that is written like this. -/
def methodNamed (val : ByteString) : HttpMethod :=
  (methods.find? fun m => m.string = val).getD .END

/-! The parts of a target: the path up to the query or the fragment, the query after `?`, and
the fragment after `#`. -/

def targetPath (value : ByteString) : ByteString :=
  value.takeWhile fun c => c ≠ '?'.toUInt8 && c ≠ '#'.toUInt8

def targetQuery (value : ByteString) : ByteString :=
  ((value.takeWhile (· ≠ '#'.toUInt8)).dropWhile (· ≠ '?'.toUInt8)).tail

def targetFragment (value : ByteString) : ByteString := (value.dropWhile (· ≠ '#'.toUInt8)).tail

namespace RequestFrames

/-- The request is the one that the headers tell: its method, its scheme, the parts of its target,
its authority, and its fields. The authority is the host of a request without one. -/
structure Describes (f : RequestFrames) (r : HttpRequest) : Prop where
  method : r.method = (f.given .method).elim .GET methodNamed
  schema : r.schema = (f.given .scheme).getD []
  path : r.path = (f.given .path).elim [] targetPath
  query : r.query = (f.given .path).elim [] targetQuery
  fragment : r.fragment = (f.given .path).elim [] targetFragment
  urihost : r.urihost = (f.given .authority).getD []
  port : r.port = []
  userinfo : r.userinfo = []
  fields : HasEntries r.toStructuredData (entriesWith (f.given .authority) f.fields)

/-- The callbacks of the request raise its headers once, its data and its trailers in their
order, and its end. -/
def Faithful (f : RequestFrames) : Prop :=
  ∃ s r, f.Describes r ∧
    RequestStream.run none f.callbacks = some (s, .headers r :: (f.data.flatten.map .body ++
      (f.trailing.getD []).map (fun t => .trailer t.name t.value) ++ [.finished]))

/-- What comes through: no delimiter in the target, a method that is named as it is written,
lengths that are numbers, fields that last, and no trailers. -/
structure Plain (f : RequestFrames) : Prop where
  target : ∀ value, f.given .path = some value → '?'.toUInt8 ∉ value ∧ '#'.toUInt8 ∉ value
  method : ∀ value, f.given .method = some value →
    value ≠ ofString "M-SEARCH" ∧ value ≠ ofString "MSEARCH"
  lengths : Readable f.fields
  lasting : Lasting f.fields
  trailers : f.trailing.getD [] = []

end RequestFrames

namespace RequestStream

variable {stream t u : Option RequestStream} {events : List RequestEvent}

theorem run_cons_eq_some {c : RequestCallback} {cs : List RequestCallback} :
    run stream (c :: cs) = some (u, events) ↔ ∃ t raised later,
      step stream c = some (t, raised) ∧ run t cs = some (u, later) ∧ events = raised ++ later := by
  simp only [run, Option.bind_eq_bind, Option.bind_eq_some_iff, Option.some.injEq, Prod.mk.injEq,
    Prod.exists]
  constructor
  · intro ⟨t, raised, hStep, v, later, hRun, hu, hEvents⟩
    exact ⟨t, raised, later, hStep, hu ▸ hRun, hEvents.symm⟩
  · intro ⟨t, raised, later, hStep, hRun, hEvents⟩
    exact ⟨t, raised, hStep, u, later, hRun, rfl, hEvents.symm⟩

/-- A run goes on after its first callbacks. -/
theorem run_append {as bs : List RequestCallback} {first : List RequestEvent}
    (hFirst : run stream as = some (t, first)) :
    run stream (as ++ bs) = (run t bs).map fun r => (r.1, first ++ r.2) := by
  induction as generalizing stream first with
  | nil =>
      obtain ⟨rfl, rfl⟩ := Prod.mk.inj (Option.some.inj hFirst)
      simp
  | cons a as ih =>
      obtain ⟨v, raised, later, hStep, hRest, hEvents⟩ := run_cons_eq_some.mp hFirst
      have hMore := ih hRest
      rw [List.cons_append, run, hStep, hEvents]
      simp only [Option.bind_eq_bind, Option.bind_some, hMore]
      cases run t bs with
      | none => rfl
      | some r => simp

/-- A run that stops at the first callbacks stops. -/
theorem run_append_eq_none {as bs : List RequestCallback} (hFirst : run stream as = none) :
    run stream (as ++ bs) = none := by
  induction as generalizing stream with
  | nil => cases hFirst
  | cons a as ih =>
      rw [run] at hFirst
      rw [List.cons_append, run]
      cases hStep : step stream a with
      | none => rfl
      | some r =>
          cases hRest : run r.1 as with
          | none => simp [ih hRest]
          | some r' => simp [hStep, hRest] at hFirst

/-- Whatever the target or the method, each pseudo-header sets its own fields. -/
def fill (r : HttpRequest) (given : Pseudo → Option ByteString) : HttpRequest :=
  let r := (given .method).elim r r.setMethod
  let r := (given .scheme).elim r fun value => { r with schema := value }
  let r := (given .path).elim r (Session.onPath r)
  (given .authority).elim r (Session.uriHost r)

def setPseudo (r : HttpRequest) (p : Pseudo × ByteString) : HttpRequest :=
  match p.1 with
  | .method => r.setMethod p.2
  | .scheme => { r with schema := p.2 }
  | .path => Session.onPath r p.2
  | .authority => Session.uriHost r p.2

theorem onField_pseudo (s : RequestStream) (p : Pseudo × ByteString) :
    s.onField p.1.name p.2 = some ({ s with request := setPseudo s.request p }, []) := by
  rcases p with ⟨p, value⟩
  have hScheme : Session.schemeName ≠ Session.pathName := by decide
  have hMethod : Session.methodName ≠ Session.pathName ∧ Session.methodName ≠ Session.schemeName := by
    decide
  have hAuthority : Session.authorityName ≠ Session.pathName ∧
      Session.authorityName ≠ Session.schemeName ∧ Session.authorityName ≠ Session.methodName := by
    decide
  cases p with
  | method => simp [onField, Pseudo.name, setPseudo, hMethod]
  | scheme => simp [onField, Pseudo.name, setPseudo, hScheme]
  | path => simp [onField, Pseudo.name, setPseudo]
  | authority => simp [onField, Pseudo.name, setPseudo, hAuthority]

theorem RegularField.ne_name (f : RegularField) (p : Pseudo) : f.name ≠ p.name := by
  intro hEq
  apply f.regular
  rw [hEq]
  cases p with
  | method => decide
  | scheme => decide
  | path => decide
  | authority => decide

theorem onField_regular {s : RequestStream} (hOpen : s.headersSent = false) (f : RegularField) :
    s.onField f.name f.value =
      (addField s.request f.pair).map fun r => ({ s with request := r }, []) := by
  have hPath : f.name ≠ Session.pathName := RegularField.ne_name f .path
  have hScheme : f.name ≠ Session.schemeName := RegularField.ne_name f .scheme
  have hMethod : f.name ≠ Session.methodName := RegularField.ne_name f .method
  have hAuthority : f.name ≠ Session.authorityName := RegularField.ne_name f .authority
  simp [onField, hPath, hScheme, hMethod, hAuthority, addHeader, hOpen, RegularField.pair]

/-- One value for each pseudo-header: their order does not matter. -/
theorem foldl_setPseudo {pseudo : List (Pseudo × ByteString)} (hDistinct : (pseudo.map Prod.fst).Nodup)
    (r : HttpRequest) : pseudo.foldl setPseudo r = fill r fun p => pseudo.lookup p := by
  induction pseudo generalizing r with
  | nil => rfl
  | cons first rest ih =>
      rcases first with ⟨p, value⟩
      rw [List.map_cons, List.nodup_cons] at hDistinct
      have hRest : rest.lookup p = none := by
        rw [List.lookup_eq_none_iff]
        intro q hMem
        have hIn : q.1 ∈ rest.map Prod.fst := List.mem_map_of_mem hMem
        have hNe : p ≠ q.1 := fun hEq => hDistinct.1 (hEq ▸ hIn)
        simpa using hNe
      have hSelf : ((p, value) :: rest).lookup p = some value := List.lookup_cons_self
      have hOther : ∀ {q}, q ≠ p → ((p, value) :: rest).lookup q = rest.lookup q := by
        intro q hNe
        rw [List.lookup_cons, beq_false_of_ne hNe]
      rw [List.foldl_cons, ih hDistinct.2]
      cases p with
      | method =>
          simp only [fill, hRest, hSelf, hOther (q := .scheme) (by decide),
            hOther (q := .path) (by decide), hOther (q := .authority) (by decide)]
          rfl
      | scheme =>
          simp only [fill, hRest, hSelf, hOther (q := .method) (by decide),
            hOther (q := .path) (by decide), hOther (q := .authority) (by decide)]
          cases rest.lookup .method <;> rfl
      | path =>
          simp only [fill, hRest, hSelf, hOther (q := .method) (by decide),
            hOther (q := .scheme) (by decide), hOther (q := .authority) (by decide)]
          cases rest.lookup .method <;> cases rest.lookup .scheme <;> rfl
      | authority =>
          simp only [fill, hRest, hSelf, hOther (q := .method) (by decide),
            hOther (q := .scheme) (by decide), hOther (q := .path) (by decide)]
          cases rest.lookup .method <;> cases rest.lookup .scheme <;>
            cases rest.lookup .path <;> rfl

/-! What the callbacks of each part of a request do. -/

theorem run_pseudo (pseudo : List (Pseudo × ByteString)) (s : RequestStream) :
    run (some s) (pseudo.map fun p => .onHeader .request p.1.name p.2) =
      some (some { s with request := pseudo.foldl setPseudo s.request }, []) := by
  induction pseudo generalizing s with
  | nil => rfl
  | cons p rest ih =>
      simp [run, step, onField_pseudo, ih]

theorem run_fields (fields : List RegularField) {s : RequestStream} (hOpen : s.headersSent = false) :
    run (some s) (requestFieldCallbacks .request fields) =
      (storeFields s.request.toStructuredData fields).map fun data =>
        (some { s with request := { s.request with toStructuredData := data } }, []) := by
  induction fields generalizing s with
  | nil => rfl
  | cons f fields ih =>
      have hStep : step (some s) (.onHeader .request f.name f.value) =
          (addField s.request f.pair).map fun r => (some { s with request := r }, []) := by
        have hCategory : ¬ HeadersCategory.request ≠ .request := fun h => h rfl
        simp only [step, if_neg hCategory, onField_regular hOpen, Option.map_map]
        rfl
      have hStore : storeFields s.request.toStructuredData (f :: fields) =
          ((s.request.toStructuredData.header f.name f.value).toOption).bind
            fun data => storeFields data fields := rfl
      have hCallbacks : requestFieldCallbacks .request (f :: fields) =
          .onHeader .request f.name f.value :: requestFieldCallbacks .request fields := rfl
      rw [hCallbacks, run, hStep, hStore, addField, RegularField.pair]
      cases (s.request.toStructuredData.header f.name f.value).toOption with
      | none => rfl
      | some data =>
          have hRest := ih (s := { s with request := { s.request with toStructuredData := data } })
            hOpen
          simp only [Option.map_some, Option.bind_eq_bind, Option.bind_some, hRest]
          cases storeFields data fields with
          | none => rfl
          | some data' => rfl

theorem run_chunks {s : RequestStream} (hReq : s.req = true) (chunks : List ByteString) :
    run (some s) (chunks.map .onDataChunkRecv) = some (some s, chunks.map .body) := by
  induction chunks with
  | nil => rfl
  | cons data chunks ih => simp [run, step, onRequestBody, hReq, ih]

theorem run_data {s : RequestStream} (hReq : s.req = true) (endStream : Bool)
    (data : List (List ByteString)) :
    run (some s) (requestDataCallbacks endStream data) =
      some (some { s with req := data = [] || !endStream },
        data.flatten.map .body ++ if data ≠ [] ∧ endStream then [.finished] else []) := by
  rcases s with ⟨request, headersSent, req⟩
  subst hReq
  fun_induction requestDataCallbacks endStream data with
  | case1 => simp [run]
  | case2 chunks =>
      rw [run_append (run_chunks rfl chunks)]
      cases endStream with
      | true => simp [run, step, onFrame, onRequestFinished]
      | false => simp [run, step, onFrame]
  | case3 chunks frames hNe ih =>
      have hSome : frames ≠ [] := fun hNil => hNe hNil
      rw [run_append (run_chunks rfl chunks)]
      simp [run, step, onFrame, ih, hSome, List.append_assoc]

/-- A later block of headers passes unseen. -/
theorem run_laterFields (fields : List RegularField) (s : RequestStream) :
    run (some s) (requestFieldCallbacks .headers fields) = some (some s, []) := by
  induction fields with
  | nil => rfl
  | cons f fields ih =>
      rw [requestFieldCallbacks] at ih
      simp [requestFieldCallbacks, run, step, ih]

/-- From the end of the headers on: what comes out is the headers, the data and the end. -/
theorem run_afterHeaders (r : HttpRequest) (data : List (List ByteString))
    (trailing : Option (List RegularField)) :
    run (some ⟨r, false, true⟩) ([.onFrameRecv (some .request) (data = [] && trailing.isNone)] ++
        (requestDataCallbacks trailing.isNone data ++
          (match trailing with
            | none => []
            | some fields =>
                .onBeginHeaders .headers :: requestFieldCallbacks .headers fields ++
                  [.onFrameRecv (some .headers) true]))) =
      some (some ⟨movedFrom r, true, false⟩, .headers r :: (data.flatten.map .body ++ [.finished])) := by
  have hHeaders : ∀ endStream, run (some ⟨r, false, true⟩) [.onFrameRecv (some .request) endStream] =
      some (some ⟨movedFrom r, true, !endStream⟩,
        .headers r :: if endStream then [.finished] else []) := by
    intro endStream
    cases endStream with
    | true => rfl
    | false => rfl
  have hData := run_data (s := ⟨movedFrom r, true, true⟩) rfl trailing.isNone data
  rw [run_append (hHeaders _)]
  cases trailing with
  | none =>
      by_cases hNone : data = []
      · simp [hNone, requestDataCallbacks, run]
      · rw [Option.isNone_none] at hData
        simp [hNone, hData]
  | some fields =>
      have hLater : run (some ⟨movedFrom r, true, true⟩)
          (.onBeginHeaders .headers :: requestFieldCallbacks .headers fields ++
            [.onFrameRecv (some .headers) true]) =
          some (some ⟨movedFrom r, true, false⟩, [.finished]) := by
        have hBegin : run (some ⟨movedFrom r, true, true⟩)
            (.onBeginHeaders .headers :: requestFieldCallbacks .headers fields) =
            some (some ⟨movedFrom r, true, true⟩, []) := by
          simp [run, step, run_laterFields]
        rw [run_append hBegin]
        simp [run, step, onFrame, onRequestFinished]
      have hMore : run (some ⟨movedFrom r, true, true⟩) (requestDataCallbacks false data) =
          some (some ⟨movedFrom r, true, true⟩, data.flatten.map .body) := by
        simpa using hData
      rw [List.cons_append] at hLater
      simp [run_append hMore, hLater]

/-- The request of the headers event. -/
def told (f : RequestFrames) (data : StructuredData) : HttpRequest :=
  { fill prepared f.given with toStructuredData := data }

/-- The events of a whole request, whatever it is. -/
theorem run_callbacks (f : RequestFrames) :
    run none f.callbacks =
      (storeFields (fill prepared f.given).toStructuredData f.fields).map fun data =>
        (some ⟨movedFrom (told f data), true, false⟩,
          .headers (told f data) :: (f.data.flatten.map .body ++ [.finished])) := by
  have hPseudo : run none (.onBeginHeaders .request ::
      f.pseudo.map fun p => .onHeader .request p.1.name p.2) =
      some (some ⟨fill prepared f.given, false, true⟩, []) := by
    have hRun := run_pseudo f.pseudo init
    rw [foldl_setPseudo f.distinct] at hRun
    exact run_cons_eq_some.mpr ⟨some init, [], [], rfl, hRun, rfl⟩
  have hFields := run_fields f.fields (s := ⟨fill prepared f.given, false, true⟩) rfl
  rw [RequestFrames.callbacks, List.append_assoc, List.append_assoc, List.append_assoc,
    ← List.cons_append, run_append hPseudo]
  cases hStored : storeFields (fill prepared f.given).toStructuredData f.fields with
  | none =>
      simp only [hStored, Option.map_none] at hFields
      rw [run_append_eq_none hFields]
      rfl
  | some data =>
      simp only [hStored, Option.map_some] at hFields
      have hTold : run (some ⟨fill prepared f.given, false, true⟩)
          (requestFieldCallbacks .request f.fields) = some (some ⟨told f data, false, true⟩, []) :=
        hFields
      rw [run_append hTold, run_afterHeaders (told f data) f.data f.trailing]
      rfl

end RequestStream

section Described

/-- Only one method is not named as it is written. -/
theorem methodNamed_eq_iff (r : HttpRequest) (value : ByteString) :
    (r.setMethod value).method = methodNamed value ↔
      value ≠ ofString "M-SEARCH" ∧ value ≠ ofString "MSEARCH" := by
  have hNames : ∀ m ∈ methods, m ≠ .MSEARCH → methodMapper m = m.string := by
    intro m hMem hNe
    cases m <;> first | rfl | exact absurd rfl hNe | exact absurd hMem (by decide)
  have hMapped : (r.setMethod value).method =
      (methods.find? fun m => methodMapper m = value).getD .END := rfl
  rw [hMapped]
  constructor
  · intro hSame
    constructor
    · intro hValue
      rw [hValue] at hSame
      exact absurd hSame (by decide +kernel)
    · intro hValue
      rw [hValue] at hSame
      exact absurd hSame (by decide +kernel)
  · intro ⟨hWritten, hNamed⟩
    have hFind : methods.find? (fun m => methodMapper m = value) =
        methods.find? fun m => m.string = value := by
      apply List.find?_congr
      intro m hMem
      by_cases hSearch : m = .MSEARCH
      · rw [hSearch]
        have hLeft : methodMapper .MSEARCH ≠ value := fun hEq => hNamed hEq.symm
        have hRight : HttpMethod.string .MSEARCH ≠ value := fun hEq => hWritten hEq.symm
        simp [hLeft, hRight]
      · rw [hNames m hMem hSearch]
    rw [hFind, methodNamed]

/-- A target is split as it should be exactly if it has nothing to split. -/
theorem onPath_eq_iff (r : HttpRequest) (value : ByteString) (hQuery : r.query = [])
    (hFragment : r.fragment = []) :
    ((Session.onPath r value).path = targetPath value ∧
        (Session.onPath r value).query = targetQuery value ∧
        (Session.onPath r value).fragment = targetFragment value) ↔
      '?'.toUInt8 ∉ value ∧ '#'.toUInt8 ∉ value := by
  have hKept : (Session.onPath r value).fragment = value.dropWhile (· ≠ '?'.toUInt8) := by
    have hIf : (Session.onPath r value).fragment =
        if value.dropWhile (· ≠ '?'.toUInt8) ≠ [] then value.dropWhile (· ≠ '?'.toUInt8)
        else r.fragment := rfl
    rw [hIf]
    split
    case isTrue => rfl
    case isFalse hNone => rw [hFragment, not_not.mp hNone]
  constructor
  · intro ⟨hPath, _, hAfter⟩
    have hNoHash : '#'.toUInt8 ∉ value.takeWhile (· ≠ '?'.toUInt8) := by
      intro hMem
      have hIn : '#'.toUInt8 ∈ targetPath value := hPath ▸ hMem
      have hChar := List.mem_takeWhile_imp hIn
      exact absurd hChar (by decide)
    -- What is left from the query on is longer than what comes after a later delimiter.
    have hNoRest : value.dropWhile (· ≠ '?'.toUInt8) = [] := by
      cases hRest : value.dropWhile (· ≠ '?'.toUInt8) with
      | nil => rfl
      | cons c rest =>
          have hValue : value = value.takeWhile (· ≠ '?'.toUInt8) ++ c :: rest := by
            rw [← hRest]
            exact (List.takeWhile_append_dropWhile).symm
          have hLength := congrArg List.length (hKept.symm.trans hAfter)
          have hSkip : value.dropWhile (· ≠ '#'.toUInt8) = (c :: rest).dropWhile (· ≠ '#'.toUInt8) := by
            conv_lhs => rw [hValue]
            apply List.dropWhile_append_of_pos
            intro a hMem
            exact decide_eq_true fun hEq => hNoHash (hEq ▸ hMem)
          have hShort : ((c :: rest).dropWhile (· ≠ '#'.toUInt8)).length ≤ (c :: rest).length :=
            (List.dropWhile_suffix _).length_le
          rw [targetFragment, hSkip, hRest, List.length_tail] at hLength
          simp only [List.length_cons] at hLength hShort
          omega
    have hAll : value.takeWhile (· ≠ '?'.toUInt8) = value := by
      have hSplit := List.takeWhile_append_dropWhile (p := (· ≠ '?'.toUInt8)) (l := value)
      rw [hNoRest, List.append_nil] at hSplit
      exact hSplit
    refine ⟨?_, hAll ▸ hNoHash⟩
    intro hMem
    rw [← hAll] at hMem
    exact absurd (List.mem_takeWhile_imp hMem) (by decide)
  · intro ⟨hMark, hHash⟩
    have hMark' : ∀ c ∈ value, decide (c ≠ '?'.toUInt8) = true :=
      fun c hMem => decide_eq_true fun hEq => hMark (hEq ▸ hMem)
    have hHash' : ∀ c ∈ value, decide (c ≠ '#'.toUInt8) = true :=
      fun c hMem => decide_eq_true fun hEq => hHash (hEq ▸ hMem)
    have hNoQuery : value.dropWhile (· ≠ '?'.toUInt8) = [] := List.dropWhile_eq_nil_iff.mpr hMark'
    have hNoFragment : value.dropWhile (· ≠ '#'.toUInt8) = [] := List.dropWhile_eq_nil_iff.mpr hHash'
    refine ⟨?_, ?_, ?_⟩
    · have hBoth : ∀ c ∈ value, (decide (c ≠ '?'.toUInt8) && decide (c ≠ '#'.toUInt8)) = true := by
        intro c hMem
        rw [hMark' c hMem, hHash' c hMem]
        rfl
      rw [targetPath, List.takeWhile_eq_self_iff.mpr hBoth]
      exact List.takeWhile_eq_self_iff.mpr hMark'
    · have hIf : (Session.onPath r value).query =
          if (value.dropWhile (· ≠ '?'.toUInt8)).takeWhile (· ≠ '#'.toUInt8) ≠ [] then
            (value.dropWhile (· ≠ '?'.toUInt8)).takeWhile (· ≠ '#'.toUInt8)
          else r.query := rfl
      rw [hIf, targetQuery, List.takeWhile_eq_self_iff.mpr hHash', hNoQuery, hQuery]
      rfl
    · rw [hKept, hNoQuery, targetFragment, hNoFragment]
      rfl

/-- Each part of the request comes from its own pseudo-header. -/
theorem fill_eq (given : Pseudo → Option ByteString) :
    RequestStream.fill RequestStream.prepared given =
      { RequestStream.prepared with
        toStructuredData := (given .authority).elim RequestStream.prepared.toStructuredData
          fun host => RequestStream.prepared.toStructuredData.storeHeader hfHost host
        method := (given .method).elim .GET fun v => (RequestStream.prepared.setMethod v).method
        schema := (given .scheme).getD []
        urihost := (given .authority).getD []
        path := (given .path).elim [] fun v => (Session.onPath RequestStream.prepared v).path
        query := (given .path).elim [] fun v => (Session.onPath RequestStream.prepared v).query
        fragment := (given .path).elim [] fun v =>
          (Session.onPath RequestStream.prepared v).fragment } := by
  rw [RequestStream.fill]
  cases given .method <;> cases given .scheme <;> cases given .path <;> cases given .authority <;> rfl

/-- Before its fields a request has the length of a new message and the authority as its host. -/
theorem hasEntries_fill (given : Pseudo → Option ByteString) :
    HasEntries (RequestStream.fill RequestStream.prepared given).toStructuredData
      ((hfContentLen, ofString "0") :: hostEntry (given .authority)) := by
  rw [fill_eq]
  cases given .authority with
  | none => exact hasEntries_new
  | some host =>
      have hStep : (RequestStream.prepared.toStructuredData.header hfHost host).toOption =
          some (RequestStream.prepared.toStructuredData.storeHeader hfHost host) :=
        StructuredData.header_other (by decide)
      exact HasEntries.header (f := ⟨hfHost, host, by decide⟩) hasEntries_new hStep

/-- The method and the parts of the target are so exactly if nothing goes wrong with them. -/
theorem describes_told_iff (f : RequestFrames) (data : StructuredData) :
    f.Describes (RequestStream.told f data) ↔
      ((∀ value, f.given .path = some value → '?'.toUInt8 ∉ value ∧ '#'.toUInt8 ∉ value) ∧
        ∀ value, f.given .method = some value →
          value ≠ ofString "M-SEARCH" ∧ value ≠ ofString "MSEARCH") ∧
        HasEntries data (entriesWith (f.given .authority) f.fields) := by
  have hMethod := methodNamed_eq_iff RequestStream.prepared
  have hPath := fun value => onPath_eq_iff RequestStream.prepared value rfl rfl
  have hTold : RequestStream.told f data =
      { RequestStream.fill RequestStream.prepared f.given with toStructuredData := data } := rfl
  rw [fill_eq] at hTold
  constructor
  · intro h
    rw [hTold] at h
    refine ⟨⟨?_, ?_⟩, h.fields⟩
    · intro value hValue
      rw [← hPath value]
      refine ⟨?_, ?_, ?_⟩
      · simpa [hValue] using h.path
      · simpa [hValue] using h.query
      · simpa [hValue] using h.fragment
    · intro value hValue
      rw [← hMethod value]
      simpa [hValue] using h.method
  · intro ⟨⟨hTarget, hNamed⟩, hEntries⟩
    rw [hTold]
    constructor
    case method =>
      cases hm : f.given .method with
      | none => rfl
      | some value => exact (hMethod value).mpr (hNamed value hm)
    case path =>
      cases hp : f.given .path with
      | none => rfl
      | some value => exact ((hPath value).mpr (hTarget value hp)).1
    case query =>
      cases hp : f.given .path with
      | none => rfl
      | some value => exact ((hPath value).mpr (hTarget value hp)).2.1
    case fragment =>
      cases hp : f.given .path with
      | none => rfl
      | some value => exact ((hPath value).mpr (hTarget value hp)).2.2
    case fields => exact hEntries
    all_goals rfl

end Described

open RequestFrames in
/-- A server stream tells a request as it is if and only if the request is a plain one. -/
theorem request_faithful_iff (f : RequestFrames) : f.Faithful ↔ f.Plain := by
  have hRun := RequestStream.run_callbacks f
  constructor
  · intro ⟨s, r, hDescribes, hTold⟩
    rw [hRun] at hTold
    obtain ⟨data, hStored, hEvents⟩ := Option.map_eq_some_iff.mp hTold
    obtain ⟨hHead, hTail⟩ := List.cons.inj (Prod.mk.inj hEvents).2
    cases hHead
    obtain ⟨⟨hTarget, hMethod⟩, hEntries⟩ := (describes_told_iff f data).mp hDescribes
    have hTrailers : ([] : List RequestEvent) =
        (f.trailing.getD []).map fun t => .trailer t.name t.value := by
      rw [List.append_assoc] at hTail
      have hRest := List.append_cancel_left hTail
      exact List.append_cancel_right hRest
    exact {
      target := hTarget
      method := hMethod
      lengths := (storeFields_isSome_iff _ _).mp (Option.isSome_of_eq_some hStored)
      lasting := (storeFields_lasting_iff (hasEntries_fill f.given) hStored).mp hEntries
      trailers := List.map_eq_nil_iff.mp hTrailers.symm }
  · intro hPlain
    obtain ⟨data, hStored⟩ := Option.isSome_iff_exists.mp
      ((storeFields_isSome_iff (RequestStream.fill RequestStream.prepared f.given).toStructuredData
        f.fields).mpr hPlain.lengths)
    have hEntries := (storeFields_lasting_iff (hasEntries_fill f.given) hStored).mpr hPlain.lasting
    have hDescribes := (describes_told_iff f data).mpr ⟨⟨hPlain.target, hPlain.method⟩, hEntries⟩
    refine ⟨some ⟨RequestStream.movedFrom (RequestStream.told f data), true, false⟩,
      RequestStream.told f data, hDescribes, ?_⟩
    rw [hRun, hStored, hPlain.trailers, List.map_nil, List.append_nil]
    rfl

/-- A trailing field is not told. -/
theorem trailing_field_lost : ¬ ∀ f : RequestFrames, f.Faithful := by
  intro hAll
  obtain ⟨s, r, -, hTold⟩ := hAll
    ⟨[(.method, ofString "POST"), (.scheme, ofString "https"), (.path, ofString "/"),
        (.authority, ofString "a")], by decide,
      [⟨ofString "content-length", ofString "3", by decide⟩], [[ofString "abc"]],
      some [⟨ofString "sum", ofString "1", by decide⟩]⟩
  rw [RequestStream.run_callbacks] at hTold
  obtain ⟨data, -, hEvents⟩ := Option.map_eq_some_iff.mp hTold
  have hLength := congrArg List.length (Prod.mk.inj hEvents).2
  simp at hLength

end Doormat.Http2
