import Doormat.Http.Authority
import Doormat.Http.ResponseTrip

/-! Requests that come through: what is encoded for a stream of requests is decoded into the
same requests, each with the host and the port of its `host` header. -/
namespace Doormat.Http

open Bytes Doormat.Parser HttpCodec

variable {υ : Type} {cb : Callbacks υ}

namespace HttpRequest

/-- A request of this version, with a body of `length` bytes, that the other end reads as it
is meant. `M-SEARCH` is written without its hyphen, and a `CONNECT` names an authority. -/
structure Sendable (r : HttpRequest) (version : ProtoVersion) (length : Nat) : Prop extends r.WellFormed where
  states : r.protocolVersion = version
  method : r.method ≠ .CONNECT ∧ r.method ≠ .MSEARCH ∧ r.method ≠ .END
  unhashed : ∀ c ∈ r.fragment.head?, c ≠ '#'.toUInt8
  short : r.target.length ≤ Impl.maxUriLen
  data : r.toStructuredData.Sendable length
  room : (r.startLine ++ crlf).length + (sectionBytes r.lines).length + 2 ≤ httpMaxHeaderSize

/-- The host and the port that the `host` header states: none without a header, else those of a
registered name or of an address of version 4. -/
inductive GoesTo (r : HttpRequest) : ByteString → ByteString → Prop
  | unsaid (hHost : r.getHeaders hfHost = []) : GoesTo r [] []
  | stated (v : HostValue) (hName : v.host.isLiteral = false)
      (hHost : r.getHeaders hfHost = [v.bytes]) : GoesTo r v.host.bytes (v.port.elim [] Subtype.val)

/-- The request as the other end decodes it, with its destination. -/
def receive (version : ProtoVersion) (r : HttpRequest) (host port : ByteString) : HttpRequest :=
  { r with
    toStructuredData := r.received version
    schema := [], urihost := host, port := port, userinfo := []
    path := if r.path ≠ [] then r.path else slash }

end HttpRequest

theorem hostFromHeader_data (r : HttpRequest) :
    (Impl.hostFromHeader r).toStructuredData = r.toStructuredData := by
  unfold Impl.hostFromHeader
  split
  · rfl
  · dsimp only
    split
    · rfl
    · rfl

/-- Of the headers only the host matters. -/
theorem hostFromHeader_congr {r r' : HttpRequest} (hHost : r'.getHeader hfHost = r.getHeader hfHost)
    (hSame : r' = { r with toStructuredData := r'.toStructuredData }) :
    Impl.hostFromHeader r' = { Impl.hostFromHeader r with toStructuredData := r'.toStructuredData } := by
  have hTarget : r'.urihost = r.urihost := by rw [hSame]
  unfold Impl.hostFromHeader
  rw [hTarget, hHost]
  split
  · exact hSame
  · dsimp only
    split
    · rw [hSame]
    · rw [hSame]

namespace HttpRequest.Sendable

variable {r : HttpRequest} {version : ProtoVersion} {length : Nat} {strings : List ByteString}

/-- The other end splits the header as the grammar does. -/
theorem hostFromHeader_received {host port : ByteString} (hGoes : r.GoesTo host port) :
    Impl.hostFromHeader (r.receive version [] []) = r.receive version host port := by
  have hFrame : Impl.hostFromHeader (r.receive version [] []) = r.receive version
      (Impl.hostFromHeader (r.receive version [] [])).urihost
      (Impl.hostFromHeader (r.receive version [] [])).port := by
    rw [Impl.hostFromHeader, if_neg (by simp [receive])]
    dsimp only
    split
    · rfl
    · rfl
  have hValues : (r.receive version [] []).getHeaders hfHost = Multimap.valuesIn r.lines hfHost := rfl
  cases hGoes with
  | unsaid hHost =>
      have hHeader : (r.receive version [] []).getHeader hfHost = [] := by
        rw [StructuredData.getHeader_eq_head?, hValues, StructuredData.valuesIn_lines_none hHost]
        rfl
      have hPlain := hostFromHeader_plain (r := r.receive version [] []) rfl (by rw [hHeader]; exact List.forall_mem_nil _)
      rw [hPlain, hHeader]
      rfl
  | stated v hName hHost =>
      have hHeader : (r.receive version [] []).getHeader hfHost = v.bytes := by
        rw [StructuredData.getHeader_eq_head?, hValues, StructuredData.valuesIn_lines_single hHost]
        rfl
      obtain ⟨hHostPart, hPort⟩ := (told_iff v rfl hHeader).mpr hName
      have hInner : v.host.inner = v.host.bytes := by
        cases hCase : v.host with
        | regName name hChars => rfl
        | ipv6 address hChars hColon =>
            rw [hCase] at hName
            cases hName
      rw [hInner, or_self] at hHostPart
      rw [hFrame, hHostPart, hPort]
      cases v.port with
      | none => rfl
      | some digits => rfl

/-- A request comes through. -/
theorem passes (h : r.Sendable version strings.flatten.length) {host port : ByteString}
    (hGoes : r.GoesTo host port) (hOne : version = .HTTP11 ∨ version = .HTTP10)
    (hOpens : cb.OpensRequests) (hStrings : ∀ s ∈ strings, s.length < 2 ^ 63) :
    Passes cb version (.request r) (.request (r.receive version host port)) strings := by
  intro e c he hc hOwn
  have hRoom := h.room
  obtain ⟨p, d, hOpening, hMethod, hObject⟩ :=
    h.toWellFormed.opening h.states hOne h.method.2 h.short (by omega) (hOpens c.impl.object c.impl.user) hc.reset
  have hFresh : d.object.data = .fresh := by
    rw [hObject]
    rfl
  obtain ⟨w, hEncode, hBytes⟩ := Encoder.encodeMessage_sendable he (m := .request r) h.data strings
  obtain ⟨c', q, m, hDecode, hc', hVersion, hAnnounces, hTrace⟩ :=
    hOpening.decodes hFresh hc hOwn (hMethod ▸ h.method.1) h.data hStrings h.room
  obtain ⟨data, hStores, hData, hOwnMethod, hMessage⟩ := hAnnounces
  have hReceived : m = .request (r.receive version host port) := by
    have hHost : (r.received version).getHeader hfHost = data.getHeader hfHost := by
      rw [← hData, StructuredData.getHeader_eq_head?, StructuredData.getHeader_eq_head?, StructuredData.setKeepalive,
        StructuredData.storeHeader_host, if_neg (by decide)]
      rfl
    rw [hMessage, hObject, ← hostFromHeader_received hGoes, receive]
    rw [@hostFromHeader_congr { Http2.targeted h.toWellFormed.form .fresh with toStructuredData := data, method := q.method } _ hHost]
    · rw [← hData]
      show Message.request { Impl.hostFromHeader _ with
        toStructuredData := (Impl.hostFromHeader _).toStructuredData.setKeepalive q.shouldKeepAlive } = _
      rw [hostFromHeader_data]
    · rw [Http2.targeted, h.toWellFormed.path_eq, h.toWellFormed.form_query,
        h.toWellFormed.form_fragmentText h.unhashed, hOwnMethod, hMethod]
  rw [hReceived] at hTrace
  refine ⟨w, _, c', _, hEncode, rfl, ?_, hc', hVersion, hTrace, q, _, flatten_handedOver r.chunked strings, rfl⟩
  rw [hBytes]
  exact hDecode

end HttpRequest.Sendable

/-- A request with the destination that it states. -/
structure Addressed where
  request : HttpRequest
  host : ByteString
  port : ByteString
  goesTo : request.GoesTo host port

def Addressed.receive (version : ProtoVersion) (a : Addressed) : HttpRequest :=
  a.request.receive version a.host a.port

/-- What is encoded for a stream of requests is decoded, in one buffer, into the same requests
with the same bodies, each with the host and the port that its `host` header states. -/
theorem requests_round_trip (hFatal : cb.Fatal) (hOpens : cb.OpensRequests) {version : ProtoVersion}
    (hOne : version = .HTTP11 ∨ version = .HTTP10) {stream : List (Addressed × List ByteString)}
    (hSendable : ∀ x ∈ stream, x.1.request.Sendable version x.2.flatten.length)
    (hStrings : ∀ x ∈ stream, ∀ s ∈ x.2, s.length < 2 ^ 63) {e : Encoder} (he : e.state = .ZERO) {c : HttpCodec υ}
    (hc : c.Between) (hOwn : c.impl.version = .UNSET ∨ c.impl.version = version) :
    ∃ bytes e' c' ess,
      e.encodeStream (stream.map fun x => (.request x.1.request, x.2)) = .ok (bytes, e') ∧
      c.decode cb bytes = .ok (c', true) ∧ c'.impl.trace = c.impl.trace ++ ess.flatten ∧
      List.Forall₂
        (fun x es => Arrives (.request x.1.request) (.request (x.1.receive version)) x.2 es)
        stream ess := by
  have hPasses : ∀ x ∈ stream,
      Passes cb version (.request x.1.request) (.request (x.1.receive version)) x.2 := by
    intro x hx
    exact (hSendable x hx).passes x.1.goesTo hOne hOpens (hStrings x hx)
  exact stream_passes hFatal (fun a : Addressed => .request a.request)
    (fun a => .request (a.receive version)) hPasses he hc hOwn

/-- A request with every part of a target, in chunks. -/
def everyPart : HttpRequest :=
  { HttpRequest.fresh with
    toStructuredData :=
      (((StructuredData.fresh.setProtocol .HTTP11).storeHeader hfHost (ofString "doormat:8080")).setChunked
        true).setKeepalive true
    method := .POST, path := ofString "/a/b", query := ofString "c=d?", fragment := ofString "e" }

/-- A request without a path that is the last of its connection. -/
def noPath : HttpRequest :=
  { HttpRequest.fresh with
    toStructuredData := (StructuredData.fresh.setProtocol .HTTP11).setKeepalive false }

theorem everyPart_sendable : everyPart.Sendable .HTTP11 3 where
  states := by decide +kernel
  method := by decide +kernel
  path := by decide +kernel
  pathChars := by decide +kernel
  query := by decide +kernel
  fragment := by decide +kernel
  unhashed := by decide +kernel
  short := by decide +kernel
  data :=
    { lines := by decide +kernel
      lower := by decide +kernel
      plain := by decide +kernel
      persistency := by decide +kernel
      coding := fun _ => ⟨by decide +kernel, hvChunked, by decide +kernel, by decide +kernel⟩
      length := fun h => absurd h (by decide +kernel) }
  room := by decide +kernel

theorem noPath_sendable : noPath.Sendable .HTTP11 0 where
  states := by decide +kernel
  method := by decide +kernel
  path := by decide +kernel
  pathChars := by decide +kernel
  query := by decide +kernel
  fragment := by decide +kernel
  unhashed := by decide +kernel
  short := by decide +kernel
  data :=
    { lines := by decide +kernel
      lower := by decide +kernel
      plain := by decide +kernel
      persistency := by decide +kernel
      coding := fun h => absurd h (by decide +kernel)
      length := fun _ => by decide +kernel }
  room := by decide +kernel

theorem doormat_chars : ∀ c ∈ ofString "doormat", isRegNameChar c = true := by decide +kernel

theorem port_digits : ∀ c ∈ ofString "8080", isNum c = true := by decide +kernel

/-- `doormat:8080`. -/
def doormatHost : HostValue where
  host := .regName (ofString "doormat") doormat_chars
  port := some ⟨ofString "8080", port_digits⟩

/-- One request in chunks, and one without a body. -/
def twoRequests : List (Addressed × List ByteString) :=
  [(⟨everyPart, ofString "doormat", ofString "8080", .stated doormatHost rfl (by decide +kernel)⟩,
      [ofString "xy", ofString "z"]),
    (⟨noPath, [], [], .unsaid (by decide +kernel)⟩, [])]

theorem requests_round_trip_two :
    ∃ bytes e' c' ess,
      Encoder.encodeStream {} (twoRequests.map fun x => (.request x.1.request, x.2)) = .ok (bytes, e') ∧
      (HttpCodec.init (.request .fresh) ()).decode handing bytes = .ok (c', true) ∧
      c'.impl.trace = ess.flatten ∧
      List.Forall₂
        (fun x es => Arrives (.request x.1.request) (.request (x.1.receive .HTTP11)) x.2 es)
        twoRequests ess := by
  have hFatal : handing.Fatal := fun _ _ => rfl
  have hOpens : handing.OpensRequests := fun _ _ => rfl
  have hSendable : ∀ x ∈ twoRequests, x.1.request.Sendable .HTTP11 x.2.flatten.length := by
    intro x hx
    rcases List.mem_pair.mp hx with rfl | rfl
    · exact everyPart_sendable
    · exact noPath_sendable
  have hStrings : ∀ x ∈ twoRequests, ∀ s ∈ x.2, s.length < 2 ^ 63 := by
    intro x hx
    rcases List.mem_pair.mp hx with rfl | rfl
    · decide +kernel
    · decide +kernel
  exact requests_round_trip (e := {}) hFatal hOpens (.inl rfl) hSendable hStrings rfl (init_between _ _) (.inl rfl)

end Doormat.Http
