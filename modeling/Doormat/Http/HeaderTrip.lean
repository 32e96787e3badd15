import Doormat.Http.HeaderSection
import Doormat.Http.Opening
import Doormat.Http.WrittenHeaders

/-! Header blocks that come through, whatever the headers in them. The decoder takes a block, and
announces the message with it, exactly if the parser takes its first line and its lines. -/
namespace Doormat.Http

open Bytes Doormat.Parser HttpCodec

variable {υ : Type} {cb : Callbacks υ} {c : HttpCodec υ} {m : Message}

/-! ### First lines -/

/-- The request line is one that the decoder takes: `M-SEARCH` is written without its hyphen, and
the request without a method with the name `NONE`. -/
structure HttpRequest.Requestable (r : HttpRequest) : Prop where
  method : r.method ≠ .MSEARCH ∧ r.method ≠ .END
  short : r.target.length ≤ Impl.maxUriLen

/-- The first line is one of the grammar. -/
def Message.WellFormed : Message → Prop
  | .request r => r.WellFormed
  | .response r => r.WellFormed

/-- At the beginning of a message the callbacks install an object of the kind of `m`, whatever it
holds. -/
def Callbacks.Opens (cb : Callbacks υ) (d : Impl υ) (m : Message) : Prop :=
  ∃ blank, (cb.begin d.object d.user).1 = some blank ∧ blank.isRequest = m.isRequest

namespace Message.WellFormed

/-- The first line opens the message, if the decoder takes it. -/
theorem opening (h : m.WellFormed) (hOne : m.data.protocolVersion = .HTTP11 ∨ m.data.protocolVersion = .HTTP10)
    (hRequestable : ∀ r, m = .request r → r.Requestable) (hRoom : (m.startLine ++ crlf).length ≤ httpMaxHeaderSize)
    {d : Impl υ} {blank : Message} (hBegin : (cb.begin d.object d.user).1 = some blank)
    (hKind : blank.isRequest = m.isRequest) (hReset : d.reset = d) :
    ∃ p e, Opening cb (m.startLine ++ crlf) m.data.protocolVersion d p e ∧
      (p.method = .CONNECT ↔ ∃ r, m = .request r ∧ r.method = .CONNECT) ∧ e.object.data = blank.data := by
  cases m with
  | request r =>
      cases blank with
      | response blank => cases hKind
      | request blank =>
          obtain ⟨hMethod, hShort⟩ := hRequestable r rfl
          have hForm : r.WellFormed := h
          obtain ⟨p, e, hOpening, hSame, hObject⟩ := hForm.opening rfl hOne hMethod hShort hRoom hBegin hReset
          refine ⟨p, e, hOpening, ⟨fun hConnect => ⟨r, rfl, hSame ▸ hConnect⟩, ?_⟩, ?_⟩
          · rintro ⟨r', hr, hConnect⟩
            cases hr
            exact hSame.trans hConnect
          · rw [hObject]
            rfl
  | response r =>
      cases blank with
      | request blank => cases hKind
      | response blank =>
          have hForm : r.WellFormed := h
          obtain ⟨p, e, hOpening, hDelete, hData, -⟩ := hForm.opening rfl hOne hRoom hBegin hReset
          refine ⟨p, e, hOpening, ⟨fun hConnect => ?_, ?_⟩, hData⟩
          · rw [hDelete] at hConnect
            cases hConnect
          · rintro ⟨r', hr, -⟩
            cases hr

/-- A first line that is read to its end and taken in. -/
theorem startLine_forced (h : m.WellFormed) (hOne : m.data.protocolVersion = .HTTP11 ∨ m.data.protocolVersion = .HTTP10)
    {d d' : Impl υ} (hOpens : cb.Opens d m) (hReset : d.reset = d) {after : ByteString} {l : Locals} {cs cs' : List Callback}
    (hReads : (enter fresh).reads (m.startLine ++ crlf ++ after) = some (l, cs))
    (hReplay : d.replay cb (cs ++ cs') = .ok d') :
    (∀ r, m = .request r → r.Requestable) ∧ (m.startLine ++ crlf).length ≤ httpMaxHeaderSize := by
  cases m with
  | response r =>
      have hForm : r.WellFormed := h
      refine ⟨fun r' hr => ?_, hForm.startLine_forced rfl hOne hReads⟩
      cases hr
  | request r =>
      have hForm : r.WellFormed := h
      obtain ⟨hMethod, hRoom⟩ := hForm.startLine_forced rfl hOne hReads
      refine ⟨fun r' hr => ?_, hRoom⟩
      cases hr
      obtain ⟨p, -, -, hLine⟩ := hForm.reads_startLine rfl hOne hMethod hRoom
      obtain ⟨l₁, out, out', hFront, -, rfl⟩ := Transducer.reads_append_eq_some.mp hReads
      obtain ⟨-, rfl⟩ := Prod.mk.inj (Option.some.inj (hLine.symm.trans hFront))
      rw [List.append_assoc] at hReplay
      obtain ⟨blank, hBegin, -⟩ := hOpens
      exact ⟨hMethod, HttpRequest.WellFormed.short_of_replay hReset hBegin hReplay⟩

end Message.WellFormed

/-! ### What is announced -/

variable {line : ByteString} {version : ProtoVersion} {p q r : Fields} {e d' : Impl υ}
  {lines : List (ByteString × ByteString)} {data : StructuredData}

/-- A header section that is read to its end is taken in, with what the parser calls behind it. -/
theorem Opening.decode_section (h : Opening cb line version c.impl p e) (hc : c.Between) (hSome : lines ≠ [])
    (hLines : ∀ line ∈ lines, Line line.1 line.2) (hRun : sectionRun p lines = some q)
    (hMajor : (announced q).httpMajor = 1)
    (hStored : StructuredData.stored (e.chooseVersion (announced q)).version e.object.data lines = .ok data)
    (hRoom : line.length + (sectionBytes lines).length + 2 ≤ httpMaxHeaderSize) {n : Nat} {rest : List Callback}
    (hLF : (Locals.mk (q.updateState .headersAlmostDone) (line.length + (sectionBytes lines).length + 1) none .outer).read
      LF = some (⟨r, n, none, .outer⟩, .headersComplete (announced q) :: rest))
    (hRest : ((e.tookAll (announced q) lines data).announceHeaders cb (announced q)).replay cb rest = .ok d') :
    c.decode cb (line ++ (sectionBytes lines ++ crlf)) = .ok (c.update ⟨r, n, none⟩ d', true) := by
  obtain ⟨cs, hLine, hOpened⟩ := h.replays
  have hState := sectionRun_state h.starts.state hRun
  have hSection := reads_section (n := line.length) hLines h.starts.state hRun (by omega) [LF]
  have hEnd := Locals.reads_cons (read_endCR hState (n := line.length + (sectionBytes lines).length) (by omega))
    (Locals.reads_cons hLF (Locals.reads_nil _))
  rw [hEnd, Option.map_some] at hSection
  have hReads := Locals.reads_trans hLine hSection
  rw [← hc.fresh] at hReads
  have hEmit := emitPiece_of_reads (by simp) hReads
  have hHeaders := @Impl.replay_headers _ cb _ _ h.awaits hMajor _ hSome _ hStored
  have hReplay : c.impl.replay cb (cs ++ (lines.flatMap lineCallbacks ++ ([] ++
      (.headersComplete (announced q) :: rest ++ [])))) = .ok d' := by
    apply Impl.replay_append_eq_ok.mpr ⟨e, hOpened, ?_⟩
    rw [List.nil_append, List.append_nil, ← List.singleton_append, ← List.append_assoc]
    exact Impl.replay_append_eq_ok.mpr ⟨_, hHeaders, hRest⟩
  exact decode_of_emit hc.toReady hc.regular hEmit hReplay

theorem Opening.trace_announced (h : Opening cb line version c.impl p e) (q : Fields)
    (lines : List (ByteString × ByteString)) (data : StructuredData) :
    ((e.tookAll q lines data).announceHeaders cb q).trace = c.impl.trace ++
      messageEvents { headers := lines } q (Impl.completeHeaders q (e.object.setData data)) [] := by
  have hAnnounced : ((e.tookAll q lines data).announceHeaders cb q).trace =
      e.trace ++ lines.map headerEvent ++ [.headersDone q (Impl.completeHeaders q (e.object.setData data))] := rfl
  rw [hAnnounced, h.trace]
  simp [messageEvents]

/-- The version that a codec announces of a message that states `version`: the codec keeps the first
one. -/
def versionKept (own version : ProtoVersion) : ProtoVersion := if own = .UNSET then version else own

theorem Opening.version_kept (h : Opening cb line version c.impl p e) (hMinor : q.httpMinor = p.httpMinor) :
    (e.chooseVersion (announced q)).version = versionKept c.impl.version version := by
  have hOwn : ownVersion (announced q) = version := by
    show (if q.httpMinor = 1 then ProtoVersion.HTTP11 else .HTTP10) = _
    rw [hMinor]
    exact h.starts.version
  rw [Impl.chooseVersion, versionKept, h.version]
  split
  · exact hOwn
  · exact h.version

/-- A section that the parser takes is announced with what is stored of its lines. -/
theorem Opening.announces (h : Opening cb line version c.impl p e) (hc : c.Between) (hSome : lines ≠ [])
    (hLines : ∀ line ∈ lines, Line line.1 line.2) (hAdmissible : AdmissibleSection false lines)
    (hOne : ¬ ((∃ line ∈ lines, Codes line) ∧ ∃ line ∈ lines, hfContentLen <+: lower line.1))
    (hStored : StructuredData.stored (versionKept c.impl.version version) e.object.data lines = .ok data)
    (hRoom : line.length + (sectionBytes lines).length + 2 ≤ httpMaxHeaderSize) :
    ∃ c' q es, c.decode cb (line ++ (sectionBytes lines ++ crlf)) = .ok (c', true) ∧ q.method = p.method ∧
      c'.impl.trace = c.impl.trace ++
        (messageEvents { headers := lines } q (Impl.completeHeaders q (e.object.setData data)) [] ++ es) ∧
      (es = [] ∨ es = [.completion]) := by
  have hFlags := h.starts.flags
  have hUnstated : p.flags.contentlength = false := by rw [hFlags]
  obtain ⟨q, hRun, hLeaves⟩ := sectionRun_leaves (p := p) hLines (hUnstated ▸ hAdmissible)
  have hTrailing : q.flags.trailing = false := by rw [hLeaves.trailing, hFlags]
  have hExclusive : ¬ (q.flags.chunked = true ∧ q.flags.contentlength = true) := by
    rw [hLeaves.chunked, hLeaves.contentlength, hFlags]
    simpa using hOne
  obtain ⟨r, n, rest, hLF, hRest⟩ :=
    read_headersLF (n := line.length + (sectionBytes lines).length + 1) hTrailing hExclusive (by omega)
  rw [← h.version_kept hLeaves.minor] at hStored
  have hDecode := fun d' => @Opening.decode_section _ _ _ _ _ _ _ r e d' _ _ h hc hSome hLines hRun
    (hLeaves.major.trans h.starts.major) hStored hRoom n rest hLF
  have hTrace := h.trace_announced (announced q) lines data
  rcases hRest with rfl | rfl
  · exact ⟨_, announced q, [], hDecode _ rfl, hLeaves.method, by rw [List.append_nil]; exact hTrace, .inl rfl⟩
  · have hGot : ((e.tookAll (announced q) lines data).announceHeaders cb (announced q)).gotHeader = false := by
      rw [Impl.tookAll, Impl.chooseVersion_eq]
      exact h.awaits.gotHeader
    refine ⟨_, announced q, [.completion], hDecode _ rfl, hLeaves.method, ?_, .inr rfl⟩
    show (Impl.completeMessage cb _).trace = _
    rw [completeMessage_trace cb hGot, hTrace, List.append_assoc]

/-! ### Header blocks -/

theorem announcements_section (lines : List (ByteString × ByteString)) (q : Fields) (m : Message) {es : List Event}
    (hEs : es = [] ∨ es = [.completion]) :
    announcements (messageEvents { headers := lines } q m [] ++ es) = [(q, m)] := by
  have hHeaders : announcements (lines.map headerEvent) = [] := by
    apply List.filterMap_eq_nil_iff.mpr
    intro ev hEv
    obtain ⟨line, -, rfl⟩ := List.mem_map.mp hEv
    rfl
  have hSplit : messageEvents { headers := lines } q m [] ++ es =
      [.begin] ++ lines.map headerEvent ++ ([.headersDone q m] ++ es) := by
    simp [messageEvents]
  rw [hSplit, announcements_append, announcements_append, hHeaders]
  rcases hEs with rfl | rfl
  · rfl
  · rfl

/-- The header block of `m` is decoded in one call, which announces `m'` and no other message. -/
def HeaderArrives (cb : Callbacks υ) (c : HttpCodec υ) (e : Encoder) (m m' : Message) : Prop :=
  ∃ bytes e' c' q, e.encodeHeader m = .ok (bytes, e') ∧ c.decode cb bytes = .ok (c', true) ∧
    announcements c'.impl.trace = announcements c.impl.trace ++ [(q, m')]

theorem HeaderArrives.unique {e : Encoder} {m' m'' : Message} (h : HeaderArrives cb c e m m')
    (h' : HeaderArrives cb c e m m'') : m' = m'' := by
  obtain ⟨bytes, e₁, c₁, q₁, hEncode, hDecode, hTold⟩ := h
  obtain ⟨bytes', e₂, c₂, q₂, hEncode', hDecode', hTold'⟩ := h'
  rw [hEncode] at hEncode'
  cases hEncode'
  rw [hDecode] at hDecode'
  cases hDecode'
  rw [hTold] at hTold'
  have hSame := List.append_cancel_left hTold'
  exact (Prod.mk.inj (List.cons.inj hSame).1).2

namespace Message

/-- The header block is one that the decoder takes. The parser knows a content length by the first
characters of its name, and refuses a second one, one that is not a number, and one besides the
coding. -/
structure Admitted (m : Message) : Prop where
  requestable : ∀ r, m = .request r → r.Requestable
  headed : m.data.lines ≠ []
  admissible : AdmissibleSection false m.data.lines
  exclusive : ¬ ((∃ line ∈ m.data.lines, Codes line) ∧ ∃ line ∈ m.data.lines, hfContentLen <+: lower line.1)
  room : (m.startLine ++ crlf).length + (sectionBytes m.data.lines).length + 2 ≤ httpMaxHeaderSize

/-- What is written for the header block. -/
theorem encodeHeader_eq (hWritten : m.data.Written) (hSome : m.data.lines ≠ []) {e : Encoder} (he : e.state = .ZERO) :
    e.encodeHeader m = .ok (m.startLine ++ crlf ++ (sectionBytes m.data.lines ++ crlf),
      { state := .HEADER, chunked := m.data.chunked }) := by
  rw [Encoder.encodeHeader, if_neg (not_not_intro he), Message.serialize, hWritten.serialize hSome]
  rfl

theorem lines_ne_nil_of_encodeHeader {e e' : Encoder} {bytes : ByteString} (h : e.encodeHeader m = .ok (bytes, e')) :
    m.data.lines ≠ [] := by
  intro hNone
  rw [Encoder.encodeHeader, Message.serialize, StructuredData.serialize_none hNone] at h
  split at h
  · cases h
  · cases h

end Message

/-- A message that the decoder takes is announced, with the values of each name joined. -/
theorem Opening.arrives {e : Impl υ} (h : Opening cb (m.startLine ++ crlf) m.data.protocolVersion c.impl p e)
    (hc : c.Between) (hFresh : e.object.data = .fresh) (hWritten : m.data.Written) (hAdmitted : m.Admitted)
    {encoder : Encoder} (hZero : encoder.state = .ZERO) :
    ∃ q data, HeaderArrives cb c encoder m (Impl.completeHeaders q (e.object.setData data)) ∧ q.method = p.method ∧
      data.protocolVersion = versionKept c.impl.version m.data.protocolVersion ∧
      ∀ key, key ≠ hfConnection → key ≠ hfContentLen → key ≠ hfTransferEncoding →
        data.getHeaders key = Multimap.valuesIn m.data.lines key := by
  have hLines : ∀ line ∈ m.data.lines, Line line.1 line.2 := fun line hMem => (hWritten.spells hMem).1
  obtain ⟨data, hStored⟩ := StructuredData.stored_ok (versionKept c.impl.version m.data.protocolVersion) e.object.data
    fun line hMem => hWritten.readable hMem
  obtain ⟨c', q, es, hDecode, hMethod, hTrace, hEs⟩ :=
    h.announces hc hAdmitted.headed hLines hAdmitted.admissible hAdmitted.exclusive hStored hAdmitted.room
  have hEncode := Message.encodeHeader_eq hWritten hAdmitted.headed hZero
  have hTold : announcements c'.impl.trace =
      announcements c.impl.trace ++ [(q, Impl.completeHeaders q (e.object.setData data))] := by
    rw [hTrace, announcements_append, announcements_section _ _ _ hEs]
  refine ⟨q, data, ⟨_, _, c', q, hEncode, hDecode, hTold⟩, hMethod, StructuredData.stored_protocolVersion hStored, ?_⟩
  intro key hConnection hLength hCoding
  have hNone : StructuredData.fresh.getHeaders key = [] :=
    (StructuredData.stores_fresh.other key hConnection hLength).trans (Multimap.valuesIn_nil key)
  rw [hFresh] at hStored
  rw [StructuredData.stored_values hStored (fun line hMem => (hWritten.spells hMem).2) m.data.nodup_lines hConnection
    hLength hCoding (.inl hNone), hNone, List.nil_append]

/-- A message that is announced is one that the decoder takes. -/
theorem HeaderArrives.admitted {e : Encoder} {m' : Message} (h : HeaderArrives cb c e m m') (hWritten : m.data.Written)
    (hForm : m.WellFormed) (hOne : m.data.protocolVersion = .HTTP11 ∨ m.data.protocolVersion = .HTTP10)
    (hFatal : cb.Fatal) (hOpens : cb.Opens c.impl m) (he : e.state = .ZERO) (hc : c.Between) : m.Admitted := by
  obtain ⟨bytes, e', c', q, hEncode, hDecode, -⟩ := h
  have hSome := Message.lines_ne_nil_of_encodeHeader hEncode
  rw [Message.encodeHeader_eq hWritten hSome he] at hEncode
  cases hEncode
  have hLines : ∀ line ∈ m.data.lines, Line line.1 line.2 := fun line hMem => (hWritten.spells hMem).1
  obtain ⟨p', cs, d, hEmit, hReplay, -⟩ := emit_of_decode hFatal hc.toReady hc.regular hDecode
  rw [emitPiece, if_neg (by simp [crlf])] at hEmit
  obtain ⟨l, out, out', hReads, hClose, rfl⟩ := emit_eq_some.mp hEmit
  rw [hc.fresh] at hReads
  obtain ⟨hRequestable, hShort⟩ := hForm.startLine_forced hOne hOpens hc.reset hReads hReplay
  obtain ⟨blank, hBegin, hKind⟩ := hOpens
  obtain ⟨p, e₁, hOpening, -, -⟩ := hForm.opening hOne hRequestable hShort hBegin hKind hc.reset
  obtain ⟨start, hLine, -⟩ := hOpening.replays
  obtain ⟨l₁, front, back, hFront, hSection, rfl⟩ := Transducer.reads_append_eq_some.mp hReads
  obtain ⟨rfl, rfl⟩ := Prod.mk.inj (Option.some.inj (hLine.symm.trans hFront))
  have hFlags := hOpening.starts.flags
  obtain ⟨hAdmissible, hRoom, q', l', told, rest, hRun, hLeaves, hLF, -⟩ :=
    headers_forced hLines hOpening.starts.state hSection (not_overdrawn_of_close hClose)
  rw [hFlags] at hAdmissible
  refine ⟨hRequestable, hSome, hAdmissible, ?_, hRoom⟩
  rintro ⟨hCoding, hLength⟩
  have hTrailing : q'.flags.trailing = false := by rw [hLeaves.trailing, hFlags]
  rw [read_headersLF_both hTrailing (hLeaves.chunked.mpr (.inr hCoding)) (hLeaves.contentlength.mpr (.inr hLength))] at hLF
  cases hLF

/-! ### Headers -/

/-- The names that belong to the connection and to the framing. -/
def framingNames : List ByteString := [hfConnection, hfContentLen, hfTransferEncoding, hfUpgrade]

/-- The values of a name as one, if there are any. -/
def StructuredData.joined (d : StructuredData) (key : ByteString) : List ByteString :=
  if d.getHeaders key = [] then [] else [(separator key).intercalate (d.getHeaders key)]

/-- The headers come through: each name has its values in one, and no other name has any. -/
def HeadersRoundTrip (cb : Callbacks υ) (c : HttpCodec υ) (e : Encoder) (m : Message) : Prop :=
  ∃ m', HeaderArrives cb c e m m' ∧ ∀ key ∉ framingNames, m'.data.getHeaders key = m.data.joined key

/-- At the beginning of a message the callbacks install a new object of the kind of `m`. -/
def Callbacks.OpensNew (cb : Callbacks υ) (d : Impl υ) (m : Message) : Prop :=
  ∃ blank, (cb.begin d.object d.user).1 = some blank ∧ blank.isRequest = m.isRequest ∧ blank.data = .fresh

theorem Callbacks.OpensNew.opens {d : Impl υ} (h : cb.OpensNew d m) : cb.Opens d m := by
  obtain ⟨blank, hBegin, hKind, -⟩ := h
  exact ⟨blank, hBegin, hKind⟩

/-- Of a request the announcement changes the destination, the method and the persistency. -/
theorem completeHeaders_request (q : Fields) (r : HttpRequest) :
    ∃ host port, Impl.completeHeaders q (.request r) = .request { r with
      toStructuredData := r.setKeepalive q.shouldKeepAlive, method := q.method, urihost := host, port := port } := by
  unfold Impl.completeHeaders Impl.hostFromHeader
  dsimp only
  split
  · exact ⟨_, _, rfl⟩
  split
  · exact ⟨_, _, rfl⟩
  · exact ⟨_, _, rfl⟩

theorem getHeaders_completeHeaders (q : Fields) (m : Message) {key : ByteString} (h : key ≠ hfConnection) :
    (Impl.completeHeaders q m).data.getHeaders key = m.data.getHeaders key := by
  have hAlive : ∀ d : StructuredData, (d.setKeepalive q.shouldKeepAlive).getHeaders key = d.getHeaders key := by
    intro d
    rw [StructuredData.setKeepalive, StructuredData.getHeaders_storeHeader _ (by decide), if_neg h]
    rfl
  cases m with
  | request r =>
      obtain ⟨host, port, hSame⟩ := completeHeaders_request q r
      rw [hSame]
      exact hAlive r.toStructuredData
  | response r => exact hAlive r.toStructuredData

/-- Whatever headers an application sets, the header block of its message is decoded into the same
headers, each name with its values joined, exactly if the decoder takes the block. -/
theorem headers_round_trip_iff {ops : List Mutation}
    (hSet : Runs.run StructuredData.mutate .fresh ops = some m.data) (hSpelled : ∀ op ∈ ops, op.Spelled)
    (hForm : m.WellFormed) (hOne : m.data.protocolVersion = .HTTP11 ∨ m.data.protocolVersion = .HTTP10)
    (hFatal : cb.Fatal) (hOpens : cb.OpensNew c.impl m) {e : Encoder} (he : e.state = .ZERO) (hc : c.Between) :
    HeadersRoundTrip cb c e m ↔ m.Admitted := by
  have hWritten := StructuredData.written_run hSet hSpelled
  constructor
  · rintro ⟨m', hArrives, -⟩
    exact hArrives.admitted hWritten hForm hOne hFatal hOpens.opens he hc
  · intro hAdmitted
    obtain ⟨blank, hBegin, hKind, hFresh⟩ := hOpens
    have hRoom := hAdmitted.room
    obtain ⟨p, d, hOpening, -, hData⟩ :=
      hForm.opening hOne hAdmitted.requestable (by omega) hBegin hKind hc.reset
    obtain ⟨q, data, hArrives, -, -, hValues⟩ := hOpening.arrives hc (hData.trans hFresh) hWritten hAdmitted he
    refine ⟨_, hArrives, fun key hKey => ?_⟩
    simp only [framingNames, List.mem_cons, List.not_mem_nil, or_false, not_or] at hKey
    obtain ⟨hConnection, hLength, hCoding, -⟩ := hKey
    rw [getHeaders_completeHeaders _ _ hConnection, Message.data_setData, hValues key hConnection hLength hCoding,
      StructuredData.valuesIn_lines, StructuredData.joined]

theorem requestCodec_between : requestCodec.Between := ⟨⟨rfl, rfl⟩, rfl, rfl⟩

theorem requestCallbacks_opensNew (r : HttpRequest) : requestCallbacks.OpensNew requestCodec.impl (.request r) :=
  ⟨_, rfl, rfl, rfl⟩

/-- The headers that these calls leave on a new message. -/
def setBy (ops : List Mutation) : StructuredData := (Runs.run StructuredData.mutate .fresh ops).getD .fresh

/-- Two cookies, and a header without a value. -/
def cookieCalls : List Mutation :=
  [.protocol .HTTP11, .header (ofString "Cookie") (ofString "a=1"), .header (ofString "cookie") (ofString "b=2"),
    .header (ofString "X-Note") []]

def cookieRequest : HttpRequest := { HttpRequest.fresh with toStructuredData := setBy cookieCalls }

theorem headers_round_trip_iff_cookies :
    HeadersRoundTrip requestCallbacks requestCodec {} (.request cookieRequest) := by
  have hSet : Runs.run StructuredData.mutate .fresh cookieCalls = some (Message.request cookieRequest).data := by
    decide +kernel
  have hSpelled : ∀ op ∈ cookieCalls, op.Spelled := by
    simp only [cookieCalls, List.forall_mem_cons, Mutation.Spelled, List.not_mem_nil, false_implies, implies_true, and_true,
      true_and]
    decide +kernel
  have hForm : (Message.request cookieRequest).WellFormed := by
    apply HttpRequest.WellFormed.mk
    all_goals decide +kernel
  have hAdmitted : (Message.request cookieRequest).Admitted := by
    refine ⟨fun r hr => ?_, by decide +kernel, ⟨fun hStated => ?_, by decide +kernel, ?_⟩, by decide +kernel, by decide +kernel⟩
    · cases hr
      exact ⟨by decide +kernel, by decide +kernel⟩
    · cases hStated
    · show ∀ line ∈ cookieRequest.lines, lower line.1 = hfContentLen → readsLength line.2 = true
      decide +kernel
  have he : ({} : Encoder).state = .ZERO := rfl
  exact (headers_round_trip_iff hSet hSpelled hForm (.inl (by decide +kernel)) (fun _ _ => rfl)
    (requestCallbacks_opensNew cookieRequest) he requestCodec_between).mpr hAdmitted

/-- A header whose name starts as `content-length` does, besides the length that every message has. -/
def lengthsCalls : List Mutation := [.protocol .HTTP11, .header (ofString "content-lengths") (ofString "x")]

def lengthsRequest : HttpRequest := { HttpRequest.fresh with toStructuredData := setBy lengthsCalls }

theorem lengths_lost : ¬ HeadersRoundTrip requestCallbacks requestCodec {} (.request lengthsRequest) := by
  rintro ⟨m', hArrives, -⟩
  have hSet : Runs.run StructuredData.mutate .fresh lengthsCalls = some (Message.request lengthsRequest).data := by
    decide +kernel
  have hSpelled : ∀ op ∈ lengthsCalls, op.Spelled := by
    simp only [lengthsCalls, List.forall_mem_cons, Mutation.Spelled, List.not_mem_nil, false_implies, implies_true, and_true,
      true_and]
    decide +kernel
  have hForm : (Message.request lengthsRequest).WellFormed := by
    apply HttpRequest.WellFormed.mk
    all_goals decide +kernel
  have hAdmitted := hArrives.admitted (StructuredData.written_run hSet hSpelled) hForm (.inl (by decide +kernel))
    (fun _ _ => rfl) (requestCallbacks_opensNew lengthsRequest).opens rfl requestCodec_between
  have hTwice := hAdmitted.admissible.once
  revert hTwice
  decide +kernel

/-! ### Request lines -/

/-- The request line comes through. -/
def RequestLineRoundTrip (cb : Callbacks υ) (c : HttpCodec υ) (e : Encoder) (r : HttpRequest) : Prop :=
  ∃ r', HeaderArrives cb c e (.request r) (.request r') ∧ r'.method = r.method ∧
    r'.protocolVersion = r.protocolVersion ∧ r'.path = r.path ∧ r'.query = r.query ∧ r'.fragment = r.fragment

theorem versionKept_eq_iff {own : ProtoVersion} : versionKept own version = version ↔ own = .UNSET ∨ own = version := by
  rw [versionKept]
  split
  case isTrue hUnset => exact iff_of_true rfl (.inl hUnset)
  case isFalse hSet => exact ⟨.inr, fun h => h.resolve_left hSet⟩

/-- A request that the decoder takes is announced with its method and with its target, but for what
leads the fragment. -/
theorem HttpRequest.WellFormed.arrives {r : HttpRequest} (hForm : r.WellFormed) (hPath : r.path ≠ [])
    (hWritten : r.toStructuredData.Written) (hOne : r.protocolVersion = .HTTP11 ∨ r.protocolVersion = .HTTP10)
    (hOpens : cb.OpensNew c.impl (.request r)) {e : Encoder} (he : e.state = .ZERO) (hc : c.Between)
    (hAdmitted : (Message.request r).Admitted) :
    ∃ r', HeaderArrives cb c e (.request r) (.request r') ∧ r'.method = r.method ∧
      r'.protocolVersion = versionKept c.impl.version r.protocolVersion ∧ r'.path = r.path ∧ r'.query = r.query ∧
      r'.fragment = r.fragment.dropWhile (· = '#'.toUInt8) := by
  obtain ⟨blank, hBegin, hKind, hFresh⟩ := hOpens
  cases blank with
  | response blank => cases hKind
  | request blank =>
      have hRoom : (r.startLine ++ crlf).length + (sectionBytes r.lines).length + 2 ≤ httpMaxHeaderSize := hAdmitted.room
      obtain ⟨hMethod, hShort⟩ := hAdmitted.requestable r rfl
      obtain ⟨p, d, hOpening, hSame, hObject⟩ := hForm.opening rfl hOne hMethod hShort (by omega) hBegin hc.reset
      have hNew : d.object.data = .fresh := by
        rw [hObject]
        exact hFresh
      obtain ⟨q, data, hArrives, hOwn, hVersion, -⟩ :=
        Opening.arrives (m := .request r) hOpening hc hNew hWritten hAdmitted he
      rw [hObject] at hArrives
      obtain ⟨host, port, hTold⟩ :=
        completeHeaders_request q { Http2.targeted hForm.form blank with toStructuredData := data }
      have hRequest : Impl.completeHeaders q ((Message.request (Http2.targeted hForm.form blank)).setData data) = _ := hTold
      rw [hRequest] at hArrives
      refine ⟨_, hArrives, hOwn.trans hSame, ?_, ?_, hForm.form_query, ?_⟩
      · exact (StructuredData.setKeepalive_protocolVersion data _).trans hVersion
      · show '/'.toUInt8 :: hForm.form.path = r.path
        rw [hForm.path_eq, if_pos hPath]
      · exact hForm.form_fragmentText_eq

/-- A request line comes through exactly if the decoder takes the header block, nothing but the
separator leads the fragment, and the codec has not settled on another version. -/
theorem request_line_round_trip_iff {r : HttpRequest} {ops : List Mutation}
    (hSet : Runs.run StructuredData.mutate .fresh ops = some r.toStructuredData) (hSpelled : ∀ op ∈ ops, op.Spelled)
    (hForm : r.WellFormed) (hPath : r.path ≠ []) (hOne : r.protocolVersion = .HTTP11 ∨ r.protocolVersion = .HTTP10)
    (hFatal : cb.Fatal) (hOpens : cb.OpensNew c.impl (.request r)) {e : Encoder} (he : e.state = .ZERO) (hc : c.Between) :
    RequestLineRoundTrip cb c e r ↔ (Message.request r).Admitted ∧ (∀ c ∈ r.fragment.head?, c ≠ '#'.toUInt8) ∧
      (c.impl.version = .UNSET ∨ c.impl.version = r.protocolVersion) := by
  have hWritten := StructuredData.written_run hSet hSpelled
  constructor
  · rintro ⟨r', hArrives, -, hVersion, -, -, hFragment⟩
    have hAdmitted := hArrives.admitted hWritten hForm hOne hFatal hOpens.opens he hc
    obtain ⟨r'', hArrives', -, hVersion', -, -, hFragment'⟩ := hForm.arrives hPath hWritten hOne hOpens he hc hAdmitted
    obtain rfl := Message.request.inj (hArrives.unique hArrives')
    exact ⟨hAdmitted, dropWhile_hash_eq_iff.mp (hFragment'.symm.trans hFragment),
      versionKept_eq_iff.mp (hVersion'.symm.trans hVersion)⟩
  · rintro ⟨hAdmitted, hUnhashed, hOwn⟩
    obtain ⟨r', hArrives, hMethod, hVersion, hSame, hQuery, hFragment⟩ :=
      hForm.arrives hPath hWritten hOne hOpens he hc hAdmitted
    exact ⟨r', hArrives, hMethod, hVersion.trans (versionKept_eq_iff.mpr hOwn), hSame, hQuery,
      hFragment.trans (dropWhile_hash_eq_iff.mpr hUnhashed)⟩

/-- A request with every part of a target. -/
def partsRequest (method : HttpMethod) : HttpRequest :=
  { HttpRequest.fresh with
    toStructuredData := setBy [.protocol .HTTP11]
    method := method, path := ofString "/a", query := ofString "b=c", fragment := ofString "d" }

theorem partsRequest_set (method : HttpMethod) :
    Runs.run StructuredData.mutate .fresh [.protocol .HTTP11] = some (partsRequest method).toStructuredData := by
  show _ = some (setBy [.protocol .HTTP11])
  decide +kernel

theorem partsRequest_spelled : ∀ op ∈ [Mutation.protocol .HTTP11], op.Spelled := by simp [Mutation.Spelled]

theorem partsRequest_wellFormed (method : HttpMethod) : (partsRequest method).WellFormed where
  path := by
    show ∀ c ∈ (ofString "/a").head?, _
    decide +kernel
  pathChars := by
    show ∀ c ∈ ofString "/a", _
    decide +kernel
  query := by
    show ∀ c ∈ ofString "b=c", _
    decide +kernel
  fragment := by
    show ∀ c ∈ ofString "d", _
    decide +kernel

theorem request_line_round_trip_iff_put :
    RequestLineRoundTrip requestCallbacks requestCodec {} (partsRequest .PUT) := by
  have hAdmitted : (Message.request (partsRequest .PUT)).Admitted := by
    refine ⟨fun r hr => ?_, by decide +kernel, ⟨fun hStated => ?_, by decide +kernel, ?_⟩, by decide +kernel, by decide +kernel⟩
    · cases hr
      exact ⟨by decide +kernel, by decide +kernel⟩
    · cases hStated
    · show ∀ line ∈ (partsRequest .PUT).lines, lower line.1 = hfContentLen → readsLength line.2 = true
      decide +kernel
  have he : ({} : Encoder).state = .ZERO := rfl
  exact (request_line_round_trip_iff (partsRequest_set .PUT) partsRequest_spelled (partsRequest_wellFormed .PUT)
    (by decide +kernel) (.inl (by decide +kernel)) (fun _ _ => rfl) (requestCallbacks_opensNew (partsRequest .PUT)) he
    requestCodec_between).mpr ⟨hAdmitted, by decide +kernel, .inl rfl⟩

/-- `M-SEARCH` is written without its hyphen, and refused. -/
theorem search_lost : ¬ RequestLineRoundTrip requestCallbacks requestCodec {} (partsRequest .MSEARCH) := by
  rintro ⟨r', hArrives, -⟩
  have hWritten := StructuredData.written_run (partsRequest_set .MSEARCH) partsRequest_spelled
  have hAdmitted := hArrives.admitted hWritten (partsRequest_wellFormed .MSEARCH) (.inl (by decide +kernel))
    (fun _ _ => rfl) (requestCallbacks_opensNew (partsRequest .MSEARCH)).opens rfl requestCodec_between
  exact (hAdmitted.requestable _ rfl).method.1 rfl

end Doormat.Http
