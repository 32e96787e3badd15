import Doormat.Http.MessageOrder
import Doormat.Protocol.Delivery

/-! What an application may rely on: whatever bytes come in, and whatever it does itself, a
request of a server is told its headers first, then the pieces of its body, then its
trailers, and at most one end, behind which there is nothing. -/
namespace Doormat.Protocol

open Bytes Doormat.Http

/-! ### What a request is told -/

/-- The body and the trailers of a request. -/
def restOf (bodies : List ByteString) (trailers : List (ByteString × ByteString)) : List RemoteEvent :=
  bodies.map .body ++ trailers.map fun t => .trailer t.1 t.2

/-- The headers that a request is told, announced in `es` with the fields `p` of the parser. -/
def HeadersOf (es : List Event) (p : Parser.Fields) (m : Message) : Prop :=
  ∃ message keepalive, .headersDone p message ∈ es ∧ m = message.setData (message.data.setKeepalive keepalive)

/-- What a request is told of a message with the events `es`: nothing or an error, or the headers and
what comes behind them, up to at most one end. A request that is told to its end has the body that
its headers announce. -/
inductive Recital (es : List Event) : List RemoteEvent → Prop
  | silent : Recital es []
  | refused (e : ErrorCode) : Recital es [.error e]
  | part {p : Parser.Fields} {m : Message} (hHeaders : HeadersOf es p m) (bodies : List ByteString)
      (trailers : List (ByteString × ByteString)) : Recital es (.headers m :: restOf bodies trailers)
  | broken {p : Parser.Fields} {m : Message} (hHeaders : HeadersOf es p m) (bodies : List ByteString)
      (trailers : List (ByteString × ByteString)) (e : ErrorCode) :
      Recital es (.headers m :: restOf bodies trailers ++ [.error e])
  | whole {p : Parser.Fields} {m : Message} (hHeaders : HeadersOf es p m) (s : Spelled) (bodies : List ByteString)
      (hFraming : s.framing = some p) (hBody : bodies.flatten = s.body) (hExact : s.Exact) :
      Recital es (.headers m :: restOf bodies s.trailers ++ [.finished])

theorem conveys_rest {bodies : List ByteString} {trailers : List (ByteString × ByteString)} {last : List Event}
    {rs : List RemoteEvent} (h : List.Forall₂ Conveys (restEvents bodies trailers ++ last) rs) :
    ∃ rs', rs = restOf bodies trailers ++ rs' ∧ List.Forall₂ Conveys last rs' := by
  rw [restEvents, List.append_assoc] at h
  rw [restOf]
  induction bodies generalizing rs with
  | nil =>
      induction trailers generalizing rs with
      | nil => exact ⟨rs, rfl, h⟩
      | cons trailer trailers ih =>
          cases h with
          | cons hConveys hRest =>
              cases hConveys
              obtain ⟨rs', rfl, hLast⟩ := ih hRest
              exact ⟨rs', rfl, hLast⟩
  | cons bytes bodies ih =>
      cases h with
      | cons hConveys hRest =>
          cases hConveys
          obtain ⟨rs', rfl, hLast⟩ := ih hRest
          exact ⟨rs', rfl, hLast⟩

/-- The headers, and what comes behind them. -/
theorem conveys_section {es told last : List Event} {p : Parser.Fields} {message : Message} {bodies : List ByteString}
    {trailers : List (ByteString × ByteString)} {rs : List RemoteEvent} (hMem : ∀ ev ∈ told, ev ∈ es)
    (hShape : told = .headersDone p message :: restEvents bodies trailers ++ last) (h : List.Forall₂ Conveys told rs) :
    ∃ m rs', HeadersOf es p m ∧ rs = .headers m :: restOf bodies trailers ++ rs' ∧ List.Forall₂ Conveys last rs' := by
  have hHeaders : .headersDone p message ∈ es := hMem _ (hShape ▸ List.mem_cons_self)
  subst hShape
  rcases h with _ | ⟨hConveys, hRest⟩
  obtain ⟨rs', rfl, hLast⟩ := conveys_rest hRest
  cases hConveys with
  | headers keepalive => exact ⟨_, rs', ⟨message, keepalive, hHeaders, rfl⟩, rfl, hLast⟩

/-- A request that has been told all that there is of a message. -/
theorem Recital.of_recited {es told : List Event} {rs : List RemoteEvent} (hMem : ∀ ev ∈ told, ev ∈ es)
    (h : Recited told) (hTold : List.Forall₂ Conveys told rs) : Recital es rs := by
  cases h with
  | nothing =>
      cases hTold
      exact .silent
  | refused e =>
      rcases hTold with _ | ⟨hConveys, hRest⟩
      cases hConveys
      cases hRest
      exact .refused .decoding
  | part p m bodies trailers =>
      obtain ⟨m', rs', hHeaders, rfl, hLast⟩ := conveys_section hMem (List.append_nil _).symm hTold
      cases hLast
      rw [List.append_nil]
      exact .part hHeaders bodies trailers
  | broken p m bodies trailers e =>
      obtain ⟨m', rs', hHeaders, rfl, hLast⟩ := conveys_section hMem rfl hTold
      rcases hLast with _ | ⟨hConveys, hNone⟩
      cases hConveys
      cases hNone
      exact .broken hHeaders bodies trailers .decoding
  | whole s p m bodies hFraming hBody hExact =>
      obtain ⟨m', rs', hHeaders, rfl, hLast⟩ := conveys_section hMem rfl hTold
      rcases hLast with _ | ⟨hConveys, hNone⟩
      cases hConveys
      cases hNone
      exact .whole hHeaders s bodies hFraming hBody hExact

/-- A request that has been told its message, or a part of it and an error. -/
theorem Settled.recital {es : List Event} {rs : List RemoteEvent} (h : Settled es rs) (hRecited : Recited (toldOf es)) :
    Recital es rs := by
  have hMem : ∀ ev ∈ toldOf es, ev ∈ es := fun _ => mem_of_toldOf
  cases h with
  | whole hOver hTold => exact .of_recited hMem hRecited hTold
  | @cut told front e hPart hOpen hTold hCuts hLast =>
      subst hLast
      rcases hRecited.front hPart hOpen with rfl | ⟨p, m, bodies, trailers, hShape⟩
      · cases hTold
        exact .refused e
      · rw [← List.append_nil (_ :: _)] at hShape
        obtain ⟨m', rs', hHeaders, rfl, hNone⟩ :=
          conveys_section (fun ev hEv => hMem ev (hPart.subset hEv)) hShape hTold
        cases hNone
        rw [List.append_nil]
        exact .broken hHeaders bodies trailers e

namespace Connection

variable {c : Connection}

/-- The codec of the connection keeps its transcript. -/
abbrev Recounts (c : Connection) : Prop :=
  Conducted assembler Recorded (fun p _ _ v => Placed p v ∧ Sized p v ∧ Closed v) c.codec

theorem recounts_start (role : Role) (garbage : Nat) : Recounts (start role garbage) := by
  have hRecorded : Recorded {} (start role garbage).codec.impl :=
    ⟨Impl.reset_tracks (d := Impl.init _ _) [] false, fits_unframed rfl, [], [], rfl, .nil, .idle rfl rfl rfl rfl rfl⟩
  refine ⟨⟨rfl, rfl⟩, enter_regular_fresh, {}, hRecorded, placed_fresh [], sized_unframed rfl, ?_⟩
  intro s hMem
  cases hMem

theorem recounts_mapHandler (h : Recounts c) (f : Except Fault Http1 → Except Fault Http1) :
    Recounts (c.mapHandler f) where
  ready := ⟨h.ready.errno, h.ready.contentLen⟩
  regular := h.regular
  gathered := h.gathered.imp fun _ ha => ⟨⟨{ ha.1.tracks with }, ha.1.fits, ha.1.trace⟩, ha.2⟩

theorem recounts_retained (app : Application) (fuel garbage : Nat) : Retains app fuel garbage Recounts where
  decode := by
    intro c piece codec ok h hDecode
    have hKeeps : Keeps assembler Recorded (fun _ => True) (fun p _ _ v => Placed p v ∧ Sized p v ∧ Closed v)
        (c.codec.decode (handlerCallbacks app fuel garbage) piece) :=
      decode_keeps (transcript_invariant _) (fun _ _ => rfl) h fun _ _ => trivial
    rw [hDecode] at hKeeps
    exact hKeeps
  stop h := recounts_mapHandler h _
  op _ h := recounts_mapHandler h _

/-- Whatever a server reads, and whatever the application does, a request is told the parts of its own message in
their order, and at most one end, and nothing behind it. What is told to have finished is complete. -/
theorem requests_well_told (app : Application) (fuel garbage : Nat) (ins : List Input) (c : Connection) (h : Http1)
    (hRun : (start .server garbage).run app fuel garbage ins = .ok c) (hHandler : c.handler = .ok h) (id : Nat) :
    (h.remotes id).received = [] ∨
      ∃ es, (messagesOf c.codec.impl.trace)[id]? = some es ∧ Recital es (h.remotes id).received := by
  obtain ⟨a, hHeard, -⟩ := ((attends_retained app fuel garbage).run (attends_start garbage) hRun).gathered
  obtain ⟨a', hRecorded, -⟩ := ((recounts_retained app fuel garbage).run (recounts_start .server garbage) hRun).gathered
  obtain ⟨past, now, hTrace, hPast, hNow⟩ := hRecorded.recounted
  have hAttends : Attends a.begun c.codec.impl.trace (.ok h) := hHandler ▸ hHeard.heard
  have hBooks := (hAttends h rfl).books
  by_cases hId : id < h.opened
  · right
    have hBound : id < (messagesOf c.codec.impl.trace).length := lt_of_lt_of_le hId hBooks.opened_le
    refine ⟨_, List.getElem?_eq_getElem hBound, ?_⟩
    have hMessages : ∀ es ∈ messagesOf c.codec.impl.trace, Recited (toldOf es) := by
      rw [hTrace]
      exact hPast.recited hNow
    have hRecited := hMessages _ (List.getElem_mem hBound)
    rcases hAttends.told (List.getElem?_eq_getElem hBound) hId with hSettled | ⟨hUnderway, -, -⟩
    · exact hSettled.recital hRecited
    · exact .of_recited (fun _ => mem_of_toldOf) hRecited hUnderway.told
  · left
    have hNew : h.remotes id = {} := hBooks.unopened id (Nat.le_of_not_lt hId)
    rw [hNew]

theorem requests_well_told_closed : ∃ c h, (start .server 0).run {} 9 0 closedOn = .ok c ∧ c.handler = .ok h ∧
    ∀ id, (h.remotes id).received = [] ∨
      ∃ es, (messagesOf c.codec.impl.trace)[id]? = some es ∧ Recital es (h.remotes id).received := by
  have hServes : serves closedOn = true := by decide +kernel
  obtain ⟨c, h, hRun, hHandler⟩ := serves_elim hServes
  exact ⟨c, h, hRun, hHandler, fun id => requests_well_told {} 9 0 closedOn c h hRun hHandler id⟩

end Connection

end Doormat.Protocol
