import Doormat.Http.Opening

/-! Responses that come through: what is encoded for a stream of responses is decoded into
the same responses. -/
namespace Doormat.Http

open Bytes Doormat.Parser HttpCodec

variable {υ : Type} {cb : Callbacks υ}

/-- A response of this version, with a body of `length` bytes, that the other end reads as
it is meant. -/
structure HttpResponse.Sendable (r : HttpResponse) (version : ProtoVersion) (length : Nat) : Prop
    extends r.WellFormed where
  states : r.protocolVersion = version
  phrase : r.statusMessage ≠ []
  data : r.toStructuredData.Sendable length
  room : (r.startLine ++ crlf).length + (sectionBytes r.lines).length + 2 ≤ httpMaxHeaderSize

/-- The response as the other end decodes it. -/
def HttpResponse.receive (version : ProtoVersion) (r : HttpResponse) : HttpResponse :=
  { r with toStructuredData := r.received version }

variable {r : HttpResponse} {version : ProtoVersion} {length : Nat} {strings : List ByteString}

namespace HttpResponse.Sendable

/-- A response comes through. -/
theorem passes (h : r.Sendable version strings.flatten.length) (hOne : version = .HTTP11 ∨ version = .HTTP10)
    (hOpens : cb.OpensResponses) (hStrings : ∀ s ∈ strings, s.length < 2 ^ 63) :
    Passes cb version (.response r) (.response (r.receive version)) strings := by
  intro e c he hc hOwn
  have hRoom := h.room
  obtain ⟨garbage, hBegin⟩ := hOpens c.impl.object c.impl.user
  obtain ⟨p, d, hOpening, hDefault, hFresh, hObject⟩ :=
    h.toWellFormed.opening h.states hOne (by omega) hBegin hc.reset
  obtain ⟨w, hEncode, hBytes⟩ := Encoder.encodeMessage_sendable he (m := .response r) h.data strings
  obtain ⟨c', q, m, hDecode, hc', hVersion, hAnnounces, hTrace⟩ :=
    hOpening.decodes hFresh hc hOwn (by rw [hDefault]; decide) h.data hStrings h.room
  obtain ⟨data, hStores, hData, hMethod, hMessage⟩ := hAnnounces
  have hReceived : m = .response (r.receive version) := by
    rw [hMessage, hObject h.phrase, receive, ← hData]
    rfl
  rw [hReceived] at hTrace
  refine ⟨w, _, c', _, hEncode, rfl, ?_, hc', hVersion, hTrace, q, _, flatten_handedOver r.chunked strings, rfl⟩
  rw [hBytes]
  exact hDecode

end HttpResponse.Sendable

/-- What is encoded for a stream of responses is decoded, in one buffer, into the same
responses with the same bodies. -/
theorem responses_round_trip (hFatal : cb.Fatal) (hOpens : cb.OpensResponses)
    (hOne : version = .HTTP11 ∨ version = .HTTP10) {stream : List (HttpResponse × List ByteString)}
    (hSendable : ∀ x ∈ stream, x.1.Sendable version x.2.flatten.length)
    (hStrings : ∀ x ∈ stream, ∀ s ∈ x.2, s.length < 2 ^ 63) {e : Encoder} (he : e.state = .ZERO) {c : HttpCodec υ}
    (hc : c.Between) (hOwn : c.impl.version = .UNSET ∨ c.impl.version = version) :
    ∃ bytes e' c' ess, e.encodeStream (stream.map fun x => (.response x.1, x.2)) = .ok (bytes, e') ∧
      c.decode cb bytes = .ok (c', true) ∧ c'.impl.trace = c.impl.trace ++ ess.flatten ∧
      List.Forall₂ (fun x es => Arrives (.response x.1) (.response (x.1.receive version)) x.2 es) stream ess :=
  stream_passes hFatal .response (fun r => .response (r.receive version))
    (fun x hx => (hSendable x hx).passes hOne hOpens (hStrings x hx)) he hc hOwn

/-- A response in chunks. -/
def inChunks : HttpResponse :=
  { (HttpResponse.fresh 0).setStatus 200 with
    toStructuredData := ((StructuredData.fresh.setProtocol .HTTP11).setChunked true).setKeepalive true }

/-- A response that states its length. -/
def ofLength : HttpResponse :=
  { (HttpResponse.fresh 0).setStatus 404 with
    toStructuredData :=
      (((StructuredData.fresh.setProtocol .HTTP11).setContentLen 9).getD .fresh).setKeepalive true }

theorem inChunks_sendable : inChunks.Sendable .HTTP11 3 where
  states := by decide +kernel
  code := by decide +kernel
  phrase := by decide +kernel
  ends := by decide +kernel
  data :=
    { lines := by decide +kernel
      lower := by decide +kernel
      plain := by decide +kernel
      persistency := by decide +kernel
      coding := fun _ => ⟨by decide +kernel, hvChunked, by decide +kernel, by decide +kernel⟩
      length := fun h => absurd h (by decide +kernel) }
  room := by decide +kernel

theorem ofLength_sendable : ofLength.Sendable .HTTP11 9 where
  states := by decide +kernel
  code := by decide +kernel
  phrase := by decide +kernel
  ends := by decide +kernel
  data :=
    { lines := by decide +kernel
      lower := by decide +kernel
      plain := by decide +kernel
      persistency := by decide +kernel
      coding := fun h => absurd h (by decide +kernel)
      length := fun _ => by decide +kernel }
  room := by decide +kernel

/-- A new codec is between two messages. -/
theorem init_between (object : Message) (user : υ) : (HttpCodec.init object user).Between :=
  ⟨⟨rfl, rfl⟩, rfl, rfl⟩

/-- One response in chunks and one that states its length. -/
def twoResponses : List (HttpResponse × List ByteString) :=
  [(inChunks, [ofString "ab", [], ofString "c"]), (ofLength, [ofString "not found"])]

theorem responses_round_trip_two :
    ∃ bytes e' c' ess, Encoder.encodeStream {} (twoResponses.map fun x => (.response x.1, x.2)) = .ok (bytes, e') ∧
      (HttpCodec.init (.response (.fresh 0)) ()).decode (receiving 0) bytes = .ok (c', true) ∧
      c'.impl.trace = ess.flatten ∧
      List.Forall₂ (fun x es => Arrives (.response x.1) (.response (x.1.receive .HTTP11)) x.2 es)
        twoResponses ess := by
  have hOpens : (receiving 0).OpensResponses := fun _ _ => ⟨0, rfl⟩
  have hSendable : ∀ x ∈ twoResponses, x.1.Sendable .HTTP11 x.2.flatten.length := by
    intro x hx
    rcases List.mem_pair.mp hx with rfl | rfl
    · exact inChunks_sendable
    · exact ofLength_sendable
  have hStrings : ∀ x ∈ twoResponses, ∀ s ∈ x.2, s.length < 2 ^ 63 := by decide +kernel
  exact responses_round_trip (e := {}) (receiving_fatal 0) hOpens (.inl rfl) hSendable hStrings rfl
    (init_between _ _) (.inl rfl)

end Doormat.Http
