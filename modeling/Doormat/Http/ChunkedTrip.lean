import Doormat.Http.HeaderTrip
import Doormat.Http.RequestTrip

/-! Which chunked messages come through. The condition is one on the message: its method, its
target, the names of its header fields and the length of its header section. -/
namespace Doormat.Http

open Bytes Doormat.Parser HttpCodec

variable {υ : Type} {cb : Callbacks υ} {c : HttpCodec υ} {m : Message}

/-! ### Messages -/

namespace Message

/-- A chunked message, of which each line is one of the grammar. -/
structure InChunks (m : Message) : Prop where
  version : m.data.protocolVersion = .HTTP11 ∨ m.data.protocolVersion = .HTTP10
  wellFormed : m.WellFormed
  chunked : m.data.chunked = true
  coding : ∃ value, m.data.getHeaders hfTransferEncoding = [value] ∧ lower value = ofString "chunked"
  lines : ∀ line ∈ m.data.lines, Line line.1 line.2

/-- The header section is one that the decoder takes for that of a chunked message. A `CONNECT` ends
with its headers. The parser knows a content length by the first characters of its name, and refuses
one besides the coding. -/
structure Acceptable (m : Message) : Prop where
  requestable : ∀ r, m = .request r → r.Requestable ∧ r.method ≠ .CONNECT
  undeclared : ∀ line ∈ m.data.lines, ¬ hfContentLen <+: lower line.1
  room : (m.startLine ++ crlf).length + (sectionBytes m.data.lines).length + 2 ≤ httpMaxHeaderSize

end Message

namespace Message.InChunks

theorem coding_ne_nil (h : m.InChunks) : m.data.getHeaders hfTransferEncoding ≠ [] := by
  obtain ⟨value, hValues, -⟩ := h.coding
  rw [hValues]
  exact List.cons_ne_nil value []

theorem lines_ne_nil (h : m.InChunks) : m.data.lines ≠ [] :=
  StructuredData.lines_ne_nil h.coding_ne_nil

theorem codes (h : m.InChunks) : ∃ line ∈ m.data.lines, Codes line := by
  obtain ⟨value, hValues, hLower⟩ := h.coding
  have hMem : value ∈ Multimap.valuesIn m.data.lines hfTransferEncoding := by
    rw [StructuredData.valuesIn_lines_single hValues]
    exact List.mem_singleton_self value
  obtain ⟨line, hLine, rfl⟩ := List.mem_map.mp hMem
  obtain ⟨hMem, hName⟩ := List.mem_filter.mp hLine
  have hCoding : line.1 = hfTransferEncoding := by simpa using hName
  refine ⟨line, hMem, ?_, saysChunked_iff.mpr ⟨0, ?_⟩⟩
  · rw [hCoding]
    decide
  · rw [List.replicate_zero, List.append_nil]
    exact hLower

/-- What is written for the header section. -/
theorem encodeHeader (h : m.InChunks) {e : Encoder} (he : e.state = .ZERO) :
    e.encodeHeader m = .ok (m.startLine ++ crlf ++ (sectionBytes m.data.lines ++ crlf),
      { state := .HEADER, chunked := true }) := by
  have hSerialize := StructuredData.serialize_section h.coding_ne_nil h.lines
  rw [Encoder.encodeHeader, if_neg (not_not_intro he), Message.serialize, hSerialize, ← h.chunked]
  rfl

end Message.InChunks

/-! ### What is taken -/

theorem mem_headerSection {lines : List (ByteString × ByteString)} {q : Fields} {ev : Event}
    (h : ev ∈ messageEvents { headers := lines } q m []) :
    ev = .begin ∨ (∃ line ∈ lines, ev = headerEvent line) ∨ ev = .headersDone q m := by
  simpa [messageEvents, eq_comm] using h

/-- A header section has no body, no trailers and no end. -/
theorem headerSection_events (lines : List (ByteString × ByteString)) (q : Fields) (m : Message) :
    bodyOf (messageEvents { headers := lines } q m []) = [] ∧
      trailersOf (messageEvents { headers := lines } q m []) = [] ∧
      (messageEvents { headers := lines } q m []).count .completion = 0 := by
  refine ⟨?_, ?_, ?_⟩
  · apply List.flatMap_eq_nil_iff.mpr
    intro ev hEv
    rcases mem_headerSection hEv with rfl | ⟨line, -, rfl⟩ | rfl
    all_goals rfl
  · apply List.filterMap_eq_nil_iff.mpr
    intro ev hEv
    rcases mem_headerSection hEv with rfl | ⟨line, -, rfl⟩ | rfl
    all_goals rfl
  · apply List.count_eq_zero.mpr
    intro hEv
    rcases mem_headerSection hEv with hEq | ⟨line, -, hEq⟩ | hEq
    all_goals cases hEq

variable {version : ProtoVersion} {p : Fields}

/-- The decoder takes a header section for that of a chunked message. -/
theorem Opening.headerRead {line : ByteString} {e : Impl υ} (h : Opening cb line version c.impl p e)
    (hc : c.Between) (hMethod : p.method ≠ .CONNECT) {lines : List (ByteString × ByteString)} (hSome : lines ≠ [])
    (hLines : ∀ line ∈ lines, Line line.1 line.2) (hCoding : ∃ line ∈ lines, Codes line)
    (hUndeclared : ∀ line ∈ lines, ¬ hfContentLen <+: lower line.1)
    (hRoom : line.length + (sectionBytes lines).length + 2 ≤ httpMaxHeaderSize) :
    ∃ c', HeaderRead cb c (line ++ (sectionBytes lines ++ crlf)) c' := by
  obtain ⟨q, hRun, hLeaves⟩ := sectionRun_leaves (p := p) hLines (.of_undeclared hUndeclared _)
  have hFlags := h.starts.flags
  have hBounded : Bounded q true 0 := by
    refine ⟨hLeaves.method ▸ hMethod, ?_, ?_, hLeaves.chunked.mpr (.inr hCoding), fun _ => ?_, fun hNot => by cases hNot⟩
    · rw [hLeaves.trailing, hFlags]
    · rw [hLeaves.skipbody, hFlags]
    · rw [← Bool.not_eq_true, hLeaves.contentlength, hFlags]
      rintro (hNone | ⟨line, hMem, hLong⟩)
      · cases hNone
      · exact hUndeclared line hMem hLong
  have hLF := read_headersLF_chunked (n := line.length + (sectionBytes lines).length + 1) hBounded (by omega)
  have hReadable : ∀ line ∈ lines, lower line.1 = hfContentLen → ∃ n, stoull line.2 = .ok n :=
    fun line hMem hName => absurd (hName ▸ List.prefix_refl _) (hUndeclared line hMem)
  obtain ⟨data, hStored⟩ := StructuredData.stored_ok (e.chooseVersion (announced q)).version e.object.data hReadable
  have hDecode := h.decode_section hc hSome hLines hRun (hLeaves.major.trans h.starts.major) hStored hRoom hLF rfl
  have hInBody : ((e.tookAll (announced q) lines data).announceHeaders cb (announced q)).InBody :=
    inBody_announced h.awaits h.heeds (announced q) lines data
  refine ⟨_, hDecode, ⟨_, h.trace_announced _ _ _, headerSection_events _ _ _⟩, ?_⟩
  exact { hInBody with
    errno := rfl, contentLen := hc.contentLen, state := rfl, nread := rfl, chunked := hBounded.coding,
    undeclared := hBounded.undeclared rfl }

namespace Message

/-- The decoder takes the header section of such a message for what it is. -/
theorem InChunks.headerRead (h : m.InChunks) (hAcceptable : m.Acceptable) (hOpens : cb.Opens c.impl m) (hc : c.Between) :
    ∃ c', HeaderRead cb c (m.startLine ++ crlf ++ (sectionBytes m.data.lines ++ crlf)) c' := by
  have hRoom := hAcceptable.room
  obtain ⟨blank, hBegin, hKind⟩ := hOpens
  obtain ⟨p, e, hOpening, hConnect, -⟩ :=
    h.wellFormed.opening h.version (fun r hr => (hAcceptable.requestable r hr).1) (by omega) hBegin hKind hc.reset
  refine hOpening.headerRead hc (fun hMethod => ?_) h.lines_ne_nil h.lines h.codes hAcceptable.undeclared hRoom
  obtain ⟨r, hr, hOwn⟩ := hConnect.mp hMethod
  exact (hAcceptable.requestable r hr).2 hOwn

end Message

/-! ### What is not taken -/

/-- A message that has been completed on the way. -/
theorem replay_completion {a : Assembly} {d d' : Impl υ} (hTracks : Tracks a d) {front back : List Callback}
    (hReplay : d.replay cb (front ++ .messageComplete :: back) = .ok d') :
    ∃ es, d'.trace = d.trace ++ es ∧ .completion ∈ es := by
  obtain ⟨f, hFront, hRest⟩ := Impl.replay_append_eq_ok.mp hReplay
  obtain ⟨g, hComplete, hBack⟩ := Impl.replay_cons_eq_ok.mp hRest
  obtain ⟨⟨before, hBefore⟩, b, hTracksFront⟩ := replay_extends_trace hTracks hFront
  have hOne : f.replay cb [.messageComplete] = .ok g := Impl.replay_cons_eq_ok.mpr ⟨g, hComplete, rfl⟩
  obtain ⟨-, b', hTracksOne⟩ := replay_extends_trace hTracksFront hOne
  obtain ⟨⟨after, hAfter⟩, -⟩ := replay_extends_trace hTracksOne hBack
  cases hComplete
  have hTrace : ∃ es, (f.completeMessage cb).trace = f.trace ++ es ++ [.completion] := by
    unfold Impl.completeMessage Impl.flushTrailer
    split
    · exact ⟨[.trailer f.key f.value], rfl⟩
    · exact ⟨[], by simp [Impl.record, Impl.reset]⟩
  obtain ⟨es, hTrace⟩ := hTrace
  refine ⟨before ++ es ++ [.completion] ++ after, ?_, by simp⟩
  rw [← hAfter, hTrace, ← hBefore]
  simp only [List.append_assoc]

/-- A header section with a coding that is read to its end names no content length, and fits. -/
theorem Starts.section_forced (h : Starts version p) {lines : List (ByteString × ByteString)}
    (hLines : ∀ line ∈ lines, Line line.1 line.2) (hCoding : ∃ line ∈ lines, Codes line) {n : Nat}
    {tail : ByteString} {l : Locals} {cs : List Callback}
    (hReads : (Locals.mk p n none .outer).reads (sectionBytes lines ++ CR :: LF :: tail) = some (l, cs))
    (hNot : ¬ l.Overdrawn) :
    (∀ line ∈ lines, ¬ hfContentLen <+: lower line.1) ∧ n + (sectionBytes lines).length + 2 ≤ httpMaxHeaderSize ∧
      (p.method = .CONNECT →
        ∃ q rest, cs = lines.flatMap lineCallbacks ++ .headersComplete q :: .messageComplete :: rest) := by
  obtain ⟨-, hRoom, q, l', out, rest, hRun, hLeaves, hReadLF, rfl⟩ := headers_forced hLines h.state hReads hNot
  have hTrailing : q.flags.trailing = false := by rw [hLeaves.trailing, h.flags]
  have hUndeclared : q.flags.contentlength = false := by
    rw [← Bool.not_eq_true]
    intro hDeclared
    rw [read_headersLF_both hTrailing (hLeaves.chunked.mpr (.inr hCoding)) hDeclared] at hReadLF
    cases hReadLF
  refine ⟨fun line hMem hLong => ?_, hRoom, fun hMethod => ?_⟩
  · have hDeclared := hLeaves.contentlength.mpr (.inr ⟨line, hMem, hLong⟩)
    rw [hUndeclared] at hDeclared
    cases hDeclared
  · rw [read_headersLF_connect (hLeaves.method.trans hMethod) hTrailing hUndeclared (by omega)] at hReadLF
    cases hReadLF
    exact ⟨announced q, rest, rfl⟩

theorem accepts_one {c t : HttpCodec υ} {piece : ByteString} (hDecode : c.decode cb piece = .ok (t, true)) :
    c.accepts cb [piece] t :=
  accepts_cons.mpr ⟨t, hDecode, [], rfl, List.forall_mem_nil _⟩

/-- Between two messages the codec holds nothing of either. -/
theorem HttpCodec.Between.tracks (hc : c.Between) : Tracks {} c.impl := by
  rw [← hc.reset]
  exact Impl.reset_tracks [] false

/-- No call of `decode` takes an event back. -/
theorem HttpCodec.Between.trace_of_accepts (hc : c.Between) (hFatal : cb.Fatal) {pieces : List ByteString}
    {t : HttpCodec υ} (hAccepts : c.accepts cb pieces t) : ∃ es, t.impl.trace = c.impl.trace ++ es := by
  obtain ⟨p, cs, d, -, hReplay, rfl⟩ := (accepts_iff hFatal hc.toReady hc.regular).mp hAccepts
  obtain ⟨⟨es, hTrace⟩, -⟩ := replay_extends_trace hc.tracks hReplay
  exact ⟨es, hTrace.symm⟩

namespace Message

/-- A message whose header section is read to its end is one that the decoder takes, or is complete
with its headers. -/
theorem InChunks.acceptable_of_reads (h : m.InChunks) (hOpens : cb.Opens c.impl m) (hc : c.Between) {after : ByteString}
    {l : Locals} {cs cs' : List Callback} {d : Impl υ}
    (hReads : (enter c.parser).reads (m.startLine ++ crlf ++ (sectionBytes m.data.lines ++ crlf) ++ after) =
      some (l, cs))
    (hNot : ¬ l.Overdrawn) (hReplay : c.impl.replay cb (cs ++ cs') = .ok d) :
    m.Acceptable ∨ ∃ es, d.trace = c.impl.trace ++ es ∧ .completion ∈ es := by
  rw [hc.fresh, List.append_assoc] at hReads
  obtain ⟨hRequestable, hShort⟩ := h.wellFormed.startLine_forced h.version hOpens hc.reset hReads hReplay
  obtain ⟨blank, hBegin, hKind⟩ := hOpens
  obtain ⟨p, e, hOpening, hConnect, -⟩ := h.wellFormed.opening h.version hRequestable hShort hBegin hKind hc.reset
  obtain ⟨start, hLine, -⟩ := hOpening.replays
  obtain ⟨l₁, out, out', hFront, hSection, rfl⟩ := Transducer.reads_append_eq_some.mp hReads
  obtain ⟨rfl, rfl⟩ := Prod.mk.inj (Option.some.inj (hLine.symm.trans hFront))
  have hBytes : sectionBytes m.data.lines ++ crlf ++ after = sectionBytes m.data.lines ++ CR :: LF :: after := by
    rw [List.append_assoc]
    rfl
  rw [hBytes] at hSection
  obtain ⟨hUndeclared, hRoom, hTold⟩ := hOpening.starts.section_forced h.lines h.codes hSection hNot
  by_cases hMethod : p.method = .CONNECT
  · obtain ⟨q, rest, rfl⟩ := hTold hMethod
    have hSplit : start ++ (m.data.lines.flatMap lineCallbacks ++ .headersComplete q :: .messageComplete :: rest) ++ cs' =
        (start ++ m.data.lines.flatMap lineCallbacks ++ [.headersComplete q]) ++ .messageComplete :: (rest ++ cs') := by
      simp
    rw [hSplit] at hReplay
    exact .inr (replay_completion hc.tracks hReplay)
  · have hOther : ∀ r, m = .request r → r.method ≠ .CONNECT :=
      fun r hr hOwn => hMethod (hConnect.mpr ⟨r, hr, hOwn⟩)
    exact .inl ⟨fun r hr => ⟨hRequestable r hr, hOther r hr⟩, hUndeclared, hRoom⟩

/-- In calls of `decode` that all go through, the first of them with the whole header section. -/
theorem InChunks.acceptable_of_accepts (h : m.InChunks) (hFatal : cb.Fatal) (hOpens : cb.Opens c.impl m) (hc : c.Between)
    {after : ByteString} {pieces : List ByteString} {t : HttpCodec υ} {es : List Event}
    (hAccepts : c.accepts cb
      ((m.startLine ++ crlf ++ (sectionBytes m.data.lines ++ crlf) ++ after) :: pieces) t)
    (hTrace : t.impl.trace = c.impl.trace ++ es) (hNone : .completion ∉ es) : m.Acceptable := by
  obtain ⟨p, cs, d, hEmit, hReplay, rfl⟩ := (accepts_iff hFatal hc.toReady hc.regular).mp hAccepts
  obtain ⟨r, out, later, hFirst, -, rfl⟩ := emitAll_cons.mp hEmit
  rw [emitPiece, if_neg (by simp [crlf])] at hFirst
  obtain ⟨l, told, rest, hReads, hClose, rfl⟩ := emit_eq_some.mp hFirst
  rw [List.append_assoc] at hReplay
  rcases h.acceptable_of_reads hOpens hc hReads (not_overdrawn_of_close hClose) hReplay with hDone | hComplete
  · exact hDone
  · obtain ⟨es', hTrace', hMem⟩ := hComplete
    have hSame : es' = es := List.append_cancel_left (hTrace'.symm.trans hTrace)
    exact absurd (hSame ▸ hMem) hNone

end Message

/-- A chunked message comes through, with any body, if it is one that the decoder takes. A
`std::string` holds fewer than 2^63 bytes. -/
theorem body_round_trips (hm : m.InChunks) (hAcceptable : m.Acceptable) (hOpens : cb.Opens c.impl m) {e : Encoder}
    (he : e.state = .ZERO) (hc : c.Between) (strings : List ByteString) (hLength : ∀ s ∈ strings, s.length < 2 ^ 63) :
    BodyRoundTrips cb c e m strings := by
  obtain ⟨c', hRead⟩ := hm.headerRead hAcceptable hOpens hc
  exact hRead.bodyRoundTrips (hm.encodeHeader he) hm.chunked hLength

theorem chunkedRequest_inChunks : (chunkedRequest .POST).InChunks where
  version := .inl (by decide +kernel)
  wellFormed := by
    apply HttpRequest.WellFormed.mk
    all_goals decide +kernel
  chunked := by decide +kernel
  coding := ⟨hvChunked, by decide +kernel, by decide +kernel⟩
  lines := by
    have hOne : (chunkedRequest .POST).data.lines = [(hfTransferEncoding, hvChunked)] := by decide +kernel
    rw [hOne, List.forall_mem_singleton]
    apply Line.mk
    all_goals decide +kernel

theorem chunkedRequest_acceptable : (chunkedRequest .POST).Acceptable where
  requestable r hr := by
    cases hr
    refine ⟨⟨?_, ?_⟩, ?_⟩
    all_goals decide +kernel
  undeclared := by decide +kernel
  room := by decide +kernel

theorem requestCallbacks_opens : requestCallbacks.Opens requestCodec.impl (chunkedRequest .POST) :=
  ⟨_, rfl, rfl⟩

/-- A `POST` with two strings, one of which looks like the end. -/
theorem body_round_trips_post :
    BodyRoundTrips requestCallbacks requestCodec {} (chunkedRequest .POST)
      [ofString "0", [], [48, 13, 10, 13, 10]] :=
  body_round_trips chunkedRequest_inChunks chunkedRequest_acceptable requestCallbacks_opens rfl
    requestCodec_between _ (by decide)

/-- A chunked message comes through only if the decoder takes it. -/
theorem BodyRoundTrips.acceptable {e : Encoder} {strings : List ByteString} (h : BodyRoundTrips cb c e m strings)
    (hm : m.InChunks) (hFatal : cb.Fatal) (hOpens : cb.Opens c.impl m) (he : e.state = .ZERO) (hc : c.Between) :
    m.Acceptable := by
  obtain ⟨w, e', t, c', t', es, hEncode, hAccepts, -, hTrace, -, hOnce, -, hShort, hLast, -⟩ := h
  have hHeader := hm.encodeHeader he
  rw [Encoder.encodeMessage_chunked hHeader hm.chunked] at hEncode
  cases hEncode
  have hAll := accepts_append.mpr ⟨t, hAccepts, accepts_one hShort⟩
  obtain ⟨before, hBefore⟩ := hc.trace_of_accepts hFatal hAll
  rw [hLast, hBefore, List.append_assoc] at hTrace
  have hSplit := List.append_cancel_left hTrace
  rw [← hSplit, List.count_append] at hOnce
  have hNone : before.count .completion = 0 := by
    have hEnd : [Event.completion].count .completion = 1 := rfl
    omega
  rw [List.cons_append, ← List.append_nil (m.startLine ++ crlf ++ (sectionBytes m.data.lines ++ crlf))] at hAll
  exact hm.acceptable_of_accepts hFatal hOpens hc hAll hBefore (List.count_eq_zero.mp hNone)

/-- A chunked message comes through with its trailers exactly if the decoder takes it, and it has no
trailers, or one that the parser reads and a body that has been given a string. -/
theorem trailers_round_trip_iff (hm : m.InChunks) (hFatal : cb.Fatal) (hOpens : cb.Opens c.impl m) {e : Encoder}
    (he : e.state = .ZERO) (hc : c.Between) (strings : List ByteString) (hLength : ∀ s ∈ strings, s.length < 2 ^ 63)
    (trailers : List (ByteString × ByteString)) (hLines : ∀ t ∈ trailers, Line t.1 t.2) :
    TrailersRoundTrip cb c e m strings trailers ↔ m.Acceptable ∧
      (trailers = [] ∨ ∃ t, trailers = [t] ∧ strings ≠ [] ∧ Fits t ∧ Legible t.1 t.2) := by
  have hHeader := hm.encodeHeader he
  have hIff : m.Acceptable → (TrailersRoundTrip cb c e m strings trailers ↔
      trailers = [] ∨ ∃ t, trailers = [t] ∧ strings ≠ [] ∧ Fits t ∧ Legible t.1 t.2) := by
    intro hAcceptable
    obtain ⟨c', hRead⟩ := hm.headerRead hAcceptable hOpens hc
    exact hRead.trailersRoundTrip_iff hFatal hc.toReady hc.regular hHeader hm.chunked hLength hLines
  constructor
  · intro hTrip
    have hAcceptable : m.Acceptable := by
      obtain ⟨w, e', c', t', es, es', hEncode, -, -, -, -, hShort, hTrace, hNone⟩ := hTrip
      have hStrings : trailers = [] ∨ strings ≠ [] := by
        cases trailers with
        | nil => exact .inl rfl
        | cons t rest =>
            right
            rintro rfl
            rw [Encoder.encodeMessage_bodiless hHeader] at hEncode
            cases hEncode
      obtain ⟨w', hEncode', hBytes⟩ := Encoder.encodeMessage_trailers hHeader hm.chunked hStrings
      rw [hEncode'] at hEncode
      cases hEncode
      obtain ⟨front, hFront⟩ : ∃ front, Encoder.trailerSection trailers = front ++ [LF] :=
        ⟨_, by rw [Encoder.trailerSection]; exact List.append_cons _ CR [LF]⟩
      rw [hBytes, hFront, ← List.append_assoc, List.dropLast_concat, List.append_assoc] at hShort
      exact hm.acceptable_of_accepts hFatal hOpens hc (accepts_one hShort) hTrace (List.count_eq_zero.mp hNone)
    exact ⟨hAcceptable, (hIff hAcceptable).mp hTrip⟩
  · rintro ⟨hAcceptable, hCarried⟩
    exact (hIff hAcceptable).mpr hCarried

/-- A `POST` with a body and one trailer. -/
theorem trailers_round_trip_iff_one :
    TrailersRoundTrip requestCallbacks requestCodec {} (chunkedRequest .POST) [ofString "x"]
      [(ofString "date", ofString "now")] := by
  have hLine : Line (ofString "date") (ofString "now") := by
    apply Line.mk
    all_goals decide +kernel
  have hLegible : Legible (ofString "date") (ofString "now") := by
    intro hName
    have hOther : lower (ofString "date") ≠ hfContentLen := by decide +kernel
    exact absurd hName hOther
  have hFits : Fits (ofString "date", ofString "now") := by
    show (ofString "date").length + (ofString "now").length + 6 ≤ httpMaxHeaderSize
    decide +kernel
  have he : ({} : Encoder).state = .ZERO := rfl
  have hIff := trailers_round_trip_iff chunkedRequest_inChunks (fun _ _ => rfl) requestCallbacks_opens he
    requestCodec_between [ofString "x"] (by decide) [(ofString "date", ofString "now")] (by simpa using hLine)
  exact hIff.mpr ⟨chunkedRequest_acceptable, .inr ⟨_, rfl, List.cons_ne_nil _ _, hFits, hLegible⟩⟩

end Doormat.Http
