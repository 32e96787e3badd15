import Doormat.Http.MessageRun
import Doormat.Http.Pieces
import Doormat.Http.Received

/-! Messages that come through whole. What is encoded for a message is decoded into its
header lines, in order, one announcement of the same message with the values of each name
joined, its body, and one completion, and after that the decoder is ready for the next. -/
namespace Doormat.Http

open Bytes Doormat.Parser HttpCodec

variable {υ : Type} {cb : Callbacks υ} {d : Impl υ} {p : Fields}

/-! ### The header section -/

namespace Impl

/-- The codec in front of a header line. -/
structure Awaits (d : Impl υ) : Prop where
  installed : d.installed = true
  open_ : d.headersCompleted = false
  gotHeader : d.gotHeader = false
  key : d.key = []
  value : d.value = []

/-- The codec with a line that it has yet to take in. -/
def holding (d : Impl υ) (line : ByteString × ByteString) : Impl υ :=
  { d with key := line.1, value := line.2, gotHeader := true }

/-- The codec that has taken a line in. -/
def took (d : Impl υ) (line : ByteString × ByteString) (data : StructuredData) : Impl υ :=
  { d.record (headerEvent line) with object := d.object.setData data }

theorem Awaits.took (h : d.Awaits) (line : ByteString × ByteString) (data : StructuredData) :
    (d.took line data).Awaits := { h with }

theorem replay_firstLine (h : d.Awaits) (line : ByteString × ByteString) :
    d.replay cb (lineCallbacks line) = .ok (d.holding line) := by
  have hOpen := h.open_
  have hGot := h.gotHeader
  have hKey := h.key
  have hValue := h.value
  simp [replay, lineCallbacks, List.foldlM, apply, settings, Settings.data, accept, hOpen, onHeaderField,
    processCurrentHeader_idle hGot, onHeaderValue, hKey, hValue, bind, Except.bind, pure, Except.pure, holding]

theorem processCurrentHeader_holding (h : d.Awaits) {line : ByteString × ByteString} {data : StructuredData}
    (hHeader : d.object.data.header line.1 line.2 = .ok data) :
    (d.holding line).processCurrentHeader = .ok (d.took line data) := by
  have hGot := h.gotHeader
  have hKey := h.key
  have hValue := h.value
  obtain ⟨installed, object, version, ignore, connected, gotHeader, headersCompleted, urline, status, key, value,
    url, user, trace⟩ := d
  have hInstalled := h.installed
  dsimp only at hGot hKey hValue hInstalled hHeader
  subst hGot hKey hValue hInstalled
  simp [processCurrentHeader, holding, deref, hHeader, bind, Except.bind, took, record, headerEvent]

theorem replay_nextLine (h : d.Awaits) {line next : ByteString × ByteString} {data : StructuredData}
    (hHeader : d.object.data.header line.1 line.2 = .ok data) :
    (d.holding line).replay cb (lineCallbacks next) = .ok ((d.took line data).holding next) := by
  have hOpen : (d.holding line).headersCompleted = false := h.open_
  have hProcess := processCurrentHeader_holding h hHeader
  have hOpen' : (d.took line data).headersCompleted = false := h.open_
  have hKey : (d.took line data).key = [] := h.key
  have hValue : (d.took line data).value = [] := h.value
  simp [replay, lineCallbacks, List.foldlM, apply, settings, Settings.data, accept, hOpen, onHeaderField,
    hProcess, onHeaderValue, hOpen', hKey, hValue, bind, Except.bind, pure, Except.pure]
  rw [← hOpen']
  rfl

/-- The codec with all lines taken in, under the version in force. -/
def tookAll (p : Fields) (d : Impl υ) (lines : List (ByteString × ByteString)) (data : StructuredData) : Impl υ :=
  { d.chooseVersion p with
    object := d.object.setData data, trace := d.trace ++ lines.map headerEvent }

theorem chooseVersion_eq (p : Fields) (d : Impl υ) :
    d.chooseVersion p = { d with version := (d.chooseVersion p).version } := by
  unfold chooseVersion
  split
  · rfl
  · rfl

theorem setVersion_holding (p : Fields) (d : Impl υ) (line : ByteString × ByteString) :
    (d.holding line).setVersion p = (d.setVersion p).holding line := by
  unfold setVersion chooseVersion holding
  split
  · rfl
  · rfl

theorem Awaits.setVersion (h : d.Awaits) (p : Fields) : (d.setVersion p).Awaits := by
  rw [Impl.setVersion, chooseVersion_eq]
  exact { h with }

/-- The headers are complete: the last line is taken in, and the message is announced. -/
theorem apply_headersComplete (h : d.Awaits) (hMajor : p.httpMajor = 1) {line : ByteString × ByteString}
    {data : StructuredData}
    (hHeader : (d.object.data.setProtocol (d.chooseVersion p).version).header line.1 line.2 = .ok data) :
    (d.holding line).apply cb (.headersComplete p) = .ok ((d.tookAll p [line] data).announceHeaders cb p) := by
  have hDeref : (d.holding line).deref = .ok (d.holding line).object := deref_ok h.installed
  have hObject : (d.setVersion p).object.data.header line.1 line.2 = .ok data := by
    rw [Impl.setVersion, Message.data_setData]
    exact hHeader
  have hTook : (d.setVersion p).took line data = d.tookAll p [line] data := by
    rw [Impl.setVersion, took, tookAll, record, Message.setData_setData, chooseVersion_eq]
    rfl
  rw [Impl.apply, Beside.onHeadersComplete_eq hMajor, hDeref, setVersion_holding]
  simp only [bind, Except.bind, processCurrentHeader_holding (h.setVersion p) hObject, hTook]
  rfl

/-- The lines behind the one at hand, and the end of the headers. -/
theorem replay_held (h : d.Awaits) (hMajor : p.httpMajor = 1) {line : ByteString × ByteString}
    {lines : List (ByteString × ByteString)} {data : StructuredData}
    (hStored : StructuredData.stored (d.chooseVersion p).version d.object.data (line :: lines) = .ok data) :
    (d.holding line).replay cb (lines.flatMap lineCallbacks ++ [.headersComplete p]) =
      .ok ((d.tookAll p (line :: lines) data).announceHeaders cb p) := by
  induction lines generalizing d line with
  | nil => exact replay_cons_eq_ok.mpr ⟨_, apply_headersComplete h hMajor hStored, rfl⟩
  | cons next lines ih =>
      rw [StructuredData.stored] at hStored
      split at hStored
      case h_1 => cases hStored
      case h_2 data₁ hHeader =>
        have hVersion : ((d.took line data₁).chooseVersion p).version = (d.chooseVersion p).version := by
          unfold chooseVersion took record
          split
          · rfl
          · rfl
        have hData : (d.took line data₁).object.data = data₁ := Message.data_setData _ _
        have hRest := @ih _ (h.took line data₁) next (by rw [hVersion, hData]; exact hStored)
        have hSame : (d.took line data₁).tookAll p (next :: lines) data = d.tookAll p (line :: next :: lines) data := by
          rw [tookAll, tookAll, chooseVersion_eq p (d.took line data₁), hVersion, chooseVersion_eq p d, took, record,
            Message.setData_setData]
          simp
        rw [hSame] at hRest
        rw [List.flatMap_cons, List.append_assoc]
        exact replay_append_eq_ok.mpr ⟨_, replay_nextLine h hHeader, hRest⟩

/-- A whole header section. -/
theorem replay_headers (h : d.Awaits) (hMajor : p.httpMajor = 1) {lines : List (ByteString × ByteString)}
    (hLines : lines ≠ []) {data : StructuredData}
    (hStored : StructuredData.stored (d.chooseVersion p).version d.object.data lines = .ok data) :
    d.replay cb (lines.flatMap lineCallbacks ++ [.headersComplete p]) =
      .ok ((d.tookAll p lines data).announceHeaders cb p) := by
  cases lines with
  | nil => exact absurd rfl hLines
  | cons line lines =>
      rw [List.flatMap_cons, List.append_assoc]
      exact replay_append_eq_ok.mpr ⟨_, replay_firstLine h line, replay_held h hMajor hStored⟩

end Impl

/-! ### The body -/

/-- The strings that a body is handed over in. -/
def handedOver (chunked : Bool) (strings : List ByteString) : List ByteString :=
  if chunked then strings.filter (· ≠ []) else if strings.flatten = [] then [] else [strings.flatten]

theorem flatten_handedOver (chunked : Bool) (strings : List ByteString) :
    (handedOver chunked strings).flatten = strings.flatten := by
  cases chunked with
  | true => exact List.flatten_filter_ne_nil
  | false =>
      rw [handedOver, if_neg Bool.false_ne_true]
      split
      case isTrue hNil => rw [hNil]; rfl
      case isFalse => simp

namespace Impl

/-- The chunks of a body are handed over one by one. -/
theorem replay_chunks (cb : Callbacks υ) (hHeeds : d.ignore = false) (p : Fields) (strings : List ByteString) :
    ∃ user, d.replay cb (bodyCallbacks p strings) =
      .ok { d with user := user, trace := d.trace ++ (strings.filter (· ≠ [])).map .body } := by
  induction strings generalizing d with
  | nil => exact ⟨d.user, by simp [bodyCallbacks]⟩
  | cons s rest ih =>
      by_cases hs : s = []
      · obtain ⟨user, hRest⟩ := ih hHeeds
        exact ⟨user, by simpa [bodyCallbacks, hs] using hRest⟩
      · obtain ⟨user, hRest⟩ := ih (d := { d.record (.body s) with user := cb.body s d.user }) hHeeds
        have hAll := replay_append_eq_ok.mpr ⟨_, replay_chunk hHeeds p s, hRest⟩
        exact ⟨user, by simpa [bodyCallbacks, hs, record] using hAll⟩

/-- The end of a message leaves a codec that is reset. -/
theorem completeMessage_resets (cb : Callbacks υ) (d : Impl υ) :
    (d.completeMessage cb).reset = d.completeMessage cb ∧ (d.completeMessage cb).version = d.version := by
  unfold completeMessage flushTrailer
  split
  · exact ⟨rfl, rfl⟩
  · exact ⟨rfl, rfl⟩

/-- A body, to the end of its message. -/
theorem replay_rest (cb : Callbacks υ) (h : d.InBody) (chunked : Bool) (p : Fields) (strings : List ByteString) :
    ∃ d', d.replay cb (restCallbacks chunked p strings) = .ok d' ∧ d'.reset = d' ∧ d'.version = d.version ∧
      d'.trace = d.trace ++ (handedOver chunked strings).map .body ++ [.completion] := by
  cases chunked with
  | true =>
      obtain ⟨user, hBody⟩ := replay_chunks cb h.heeds p strings
      generalize hd : ({ d with user := user, trace := d.trace ++ (strings.filter (· ≠ [])).map .body } : Impl υ) = e
        at hBody
      have hLast := replay_lastChunk cb e p
      have hEnd := replay_end cb e (trailerFields p)
      obtain ⟨hReset, hVersion⟩ := completeMessage_resets cb { e with ignore := true }
      have hGot : ({ e with ignore := true } : Impl υ).gotHeader = false := by
        rw [← hd]
        exact h.gotHeader
      refine ⟨_, replay_append_eq_ok.mpr ⟨_, hBody, replay_append_eq_ok.mpr ⟨_, hLast, hEnd⟩⟩, hReset, ?_, ?_⟩
      · rw [hVersion, ← hd]
      · rw [completeMessage_trace cb hGot, ← hd]
        rfl
  | false =>
      have hHeeds := h.heeds
      by_cases hNil : strings.flatten = []
      · obtain ⟨hReset, hVersion⟩ := completeMessage_resets cb d
        refine ⟨d.completeMessage cb, ?_, hReset, hVersion, ?_⟩
        · simp only [restCallbacks, Bool.false_eq_true, if_false, hNil, if_true]
          rfl
        · rw [completeMessage_trace cb h.gotHeader]
          simp [handedOver, hNil]
      · generalize hd : ({ d.record (.body strings.flatten) with user := cb.body strings.flatten d.user } : Impl υ) = e
        have hBody : d.apply cb (.data 0 .body strings.flatten) = .ok e := by
          rw [← hd]
          simp [apply, settings, Settings.data, accept, onBody, hHeeds]
        obtain ⟨hReset, hVersion⟩ := completeMessage_resets cb e
        have hGot : e.gotHeader = false := by
          rw [← hd]
          exact h.gotHeader
        refine ⟨e.completeMessage cb, ?_, hReset, ?_, ?_⟩
        · simp only [restCallbacks, Bool.false_eq_true, if_false, hNil]
          exact replay_cons_eq_ok.mpr ⟨e, hBody, rfl⟩
        · rw [hVersion, ← hd]
          rfl
        · rw [completeMessage_trace cb hGot, ← hd]
          simp [handedOver, hNil, record]

end Impl

/-! ### From the first line on -/

/-- The parser behind the first line of a message that states `version`. -/
structure Starts (version : ProtoVersion) (p : Fields) : Prop where
  state : p.state = .headerFieldStart
  flags : p.flags = {}
  contentLength : p.contentLength = ullongMax
  major : p.httpMajor = 1
  version : ownVersion p = version

variable {version : ProtoVersion} {q : Fields} {data : StructuredData} {length : Nat}

/-- What the lines of a section have declared, between `p` and `q`. -/
structure Declares (lines : List (ByteString × ByteString)) (p q : Fields) : Prop where
  method : q.method = p.method
  major : q.httpMajor = p.httpMajor
  minor : q.httpMinor = p.httpMinor
  trailing : q.flags.trailing = p.flags.trailing
  skipbody : q.flags.skipbody = p.flags.skipbody
  chunked : q.flags.chunked = (p.flags.chunked || decide (Multimap.valuesIn lines hfTransferEncoding ≠ []))
  contentlength : q.flags.contentlength =
    (p.flags.contentlength || decide (Multimap.valuesIn lines hfContentLen ≠ []))
  contentLength : q.contentLength = ((Multimap.valuesIn lines hfContentLen).head?.map decimal).getD p.contentLength
  keepAlive : q.flags.connectionKeepAlive =
    (p.flags.connectionKeepAlive || (Multimap.valuesIn lines hfConnection).contains hvKeepalive)
  close : q.flags.connectionClose =
    (p.flags.connectionClose || (Multimap.valuesIn lines hfConnection).contains hvConnectionClose)

theorem declares_of_kept {lines : List (ByteString × ByteString)} (h : kept q = declared lines (kept p)) :
    Declares lines p q := by
  have hField : ∀ {β : Type} (f : Fields → β), f (kept q) = f (declared lines (kept p)) := fun f => congrArg f h
  exact ⟨hField Fields.method, hField Fields.httpMajor, hField Fields.httpMinor, hField fun p => p.flags.trailing,
    hField fun p => p.flags.skipbody, hField fun p => p.flags.chunked, hField fun p => p.flags.contentlength,
    hField Fields.contentLength, hField fun p => p.flags.connectionKeepAlive,
    hField fun p => p.flags.connectionClose⟩

namespace Starts

/-- The lines of the section say how the message ends. -/
theorem bounded (h : Starts version p) (hMethod : p.method ≠ .CONNECT) (hData : data.Sendable length)
    (hDeclares : Declares data.lines p q) : Bounded q data.chunked length := by
  have hFlags := h.flags
  refine ⟨hDeclares.method ▸ hMethod, ?_, ?_, ?_, ?_, ?_⟩
  · rw [hDeclares.trailing, hFlags]
  · rw [hDeclares.skipbody, hFlags]
  · rw [hDeclares.chunked, hFlags]
    cases hCase : data.chunked with
    | true =>
        obtain ⟨-, coding, hCoding, -⟩ := hData.coding hCase
        rw [StructuredData.valuesIn_lines_single hCoding]
        rfl
    | false =>
        rw [StructuredData.valuesIn_lines_none (hData.length hCase).1]
        rfl
  · intro hCase
    rw [hDeclares.contentlength, hFlags, StructuredData.valuesIn_lines_none (hData.coding hCase).1]
    rfl
  · intro hCase
    rw [hDeclares.contentLength, StructuredData.valuesIn_lines_single (hData.length hCase).2.2.2]
    exact (numeral_digits length).2

/-- Neither kind of body lasts until the connection is closed. -/
theorem messageNeedsEof (h : Bounded q data.chunked length) (hData : data.Sendable length) :
    q.messageNeedsEof = false := by
  have hEnds : (q.flags.chunked || decide (q.contentLength ≠ ullongMax)) = true := by
    cases hCase : data.chunked with
    | true =>
        rw [hCase] at h
        rw [h.coding]
        rfl
    | false =>
        have hBound := (hData.length hCase).2.1
        rw [hCase] at h
        rw [h.length rfl, Bool.or_eq_true]
        refine .inr (decide_eq_true ?_)
        rw [ullongMax]
        omega
  rw [Fields.messageNeedsEof, hEnds]
  simp

/-- Both ends agree on whether the connection persists. -/
theorem shouldKeepAlive (h : Starts version p) (hMethod : p.method ≠ .CONNECT) (hData : data.Sendable length)
    (hDeclares : Declares data.lines p q) : q.shouldKeepAlive = data.keepalive := by
  have hEof := messageNeedsEof (h.bounded hMethod hData hDeclares) hData
  have hAlive := hDeclares.keepAlive
  have hClose := hDeclares.close
  rw [h.flags, StructuredData.valuesIn_lines_single hData.persistency] at hAlive hClose
  rw [Fields.shouldKeepAlive, hEof, hDeclares.major, h.major, hAlive, hClose]
  have hNe : hvConnectionClose ≠ hvKeepalive := by decide
  cases data.keepalive with
  | true => simp [hNe]
  | false => simp [hNe.symm]

end Starts

/-! ### A whole message -/

/-- A decoder between two messages. -/
structure HttpCodec.Between (c : HttpCodec υ) : Prop extends c.Ready where
  fresh : c.parser = fresh
  reset : c.impl.reset = c.impl

theorem HttpCodec.Between.regular {c : HttpCodec υ} (h : c.Between) : (enter c.parser).Regular := by
  rw [h.fresh]
  exact enter_regular_fresh

/-- The first line of a message that states `version` leaves the parser at `p`, and brings
the codec from `d` to `e`. -/
structure Opening (cb : Callbacks υ) (line : ByteString) (version : ProtoVersion) (d : Impl υ) (p : Fields)
    (e : Impl υ) : Prop where
  replays : ∃ cs, (enter fresh).reads line = some (⟨p, line.length, none, .outer⟩, cs) ∧ d.replay cb cs = .ok e
  starts : Starts version p
  awaits : e.Awaits
  heeds : e.ignore = false
  version : e.version = d.version
  trace : e.trace = d.trace ++ [.begin]

/-- The message that is announced at `q` once the lines have been taken in as `data`. -/
def Announces (sent : StructuredData) (version : ProtoVersion) (method : HttpMethod) (object : Message) (q : Fields)
    (m : Message) : Prop :=
  ∃ data, StructuredData.Stores sent.lines data ∧ data.setKeepalive q.shouldKeepAlive = sent.received version ∧
    q.method = method ∧ m = Impl.completeHeaders q (object.setData data)

/-- The codec at the end of a header section. -/
theorem inBody_announced {e : Impl υ} (h : e.Awaits) (hHeeds : e.ignore = false) (q : Fields)
    (lines : List (ByteString × ByteString)) (data : StructuredData) :
    ((e.tookAll q lines data).announceHeaders cb q).InBody := by
  rw [Impl.tookAll, Impl.chooseVersion_eq]
  exact ⟨rfl, hHeeds, h.gotHeader, h.key, h.value⟩

/-- A message that has been opened comes through. -/
theorem Opening.decodes {c : HttpCodec υ} {line : ByteString} {e : Impl υ} (h : Opening cb line version c.impl p e)
    (hFresh : e.object.data = .fresh) (hc : c.Between) (hOwn : c.impl.version = .UNSET ∨ c.impl.version = version) (hMethod : p.method ≠ .CONNECT)
    {strings : List ByteString} (hData : data.Sendable strings.flatten.length) (hStrings : ∀ s ∈ strings, s.length < 2 ^ 63)
    (hRoom : line.length + (sectionBytes data.lines).length + 2 ≤ httpMaxHeaderSize) :
    ∃ c' q m, c.decode cb (line ++ (sectionBytes data.lines ++ crlf) ++ bodyBytes data.chunked strings) =
        .ok (c', true) ∧ c'.Between ∧ c'.impl.version = version ∧ Announces data version p.method e.object q m ∧
      c'.impl.trace = c.impl.trace ++
        (messageEvents { headers := data.lines } q m (handedOver data.chunked strings) ++ [.completion]) := by
  obtain ⟨cs, hLine, hOpened⟩ := h.replays
  have hFlag : p.flags.contentlength = false := by rw [h.starts.flags]
  obtain ⟨q, hSection, hKept⟩ := sectionRun_declared hData.lines hData.ordinary data.nodup_lines fun _ => hFlag
  have hDeclares := declares_of_kept hKept
  have hState := sectionRun_state h.starts.state hSection
  have hLines := reads_section (n := line.length) hData.lines h.starts.state hSection (by omega)
    (LF :: bodyBytes data.chunked strings)
  rw [reads_rest hState (h.starts.bounded hMethod hData hDeclares) hStrings (fun hCase => (hData.length hCase).2.1) hRoom,
    Option.map_some] at hLines
  have hReads := Locals.reads_trans hLine hLines
  have hVersion : (e.chooseVersion (announced q)).version = version := by
    have hMinor : ownVersion (announced q) = ownVersion p := by
      show (if q.httpMinor = 1 then ProtoVersion.HTTP11 else .HTTP10) = _
      rw [hDeclares.minor]
      rfl
    rw [Impl.chooseVersion]
    split
    case isTrue => exact hMinor.trans h.starts.version
    case isFalse hSet => exact hOwn.resolve_left (h.version ▸ hSet) |> h.version.trans
  obtain ⟨data', hStored, hStores⟩ := StructuredData.stores_fresh.all version hData.ordinary data.nodup_lines
    hData.exclusive
  have hKeepAlive : q.shouldKeepAlive = data.keepalive := h.starts.shouldKeepAlive hMethod hData hDeclares
  have hOwned := StructuredData.stored_protocolVersion hStored
  rw [← hVersion, ← hFresh] at hStored
  have hMajor : (announced q).httpMajor = 1 := hDeclares.major.trans h.starts.major
  have hHeaders := @Impl.replay_headers _ cb _ _ h.awaits hMajor _ hData.lines_ne_nil _ hStored
  have hInBody : ((e.tookAll (announced q) data.lines data').announceHeaders cb (announced q)).InBody :=
    inBody_announced h.awaits h.heeds (announced q) data.lines data'
  obtain ⟨d', hBody, hReset, hSame, hTrace⟩ := Impl.replay_rest cb hInBody data.chunked (announced q) strings
  have hReplay : c.impl.replay cb (cs ++ (data.lines.flatMap lineCallbacks ++
      .headersComplete (announced q) :: restCallbacks data.chunked (announced q) strings)) = .ok d' := by
    apply Impl.replay_append_eq_ok.mpr ⟨e, hOpened, ?_⟩
    rw [← List.singleton_append, ← List.append_assoc]
    exact Impl.replay_append_eq_ok.mpr ⟨_, hHeaders, hBody⟩
  have hPiece : line ++ (sectionBytes data.lines ++ CR :: LF :: bodyBytes data.chunked strings) ≠ [] := by simp
  rw [← hc.fresh] at hReads
  have hEmit := emitPiece_of_reads hPiece (q := fresh.toFields) (n := 0) (hReads.trans (by rw [hc.fresh]; rfl))
  refine ⟨c.update fresh d', announced q, Impl.completeHeaders (announced q) (e.object.setData data'), ?_, ?_, ?_, ?_, ?_⟩
  · have hBytes : line ++ (sectionBytes data.lines ++ crlf) ++ bodyBytes data.chunked strings =
        line ++ (sectionBytes data.lines ++ CR :: LF :: bodyBytes data.chunked strings) := by
      rw [List.append_assoc, List.append_assoc]
      rfl
    rw [hBytes]
    exact decode_of_emit hc.toReady hc.regular hEmit hReplay
  · exact ⟨⟨rfl, hc.contentLen⟩, rfl, hReset⟩
  · exact hSame.trans hVersion
  · refine ⟨data', hStores, ?_, hDeclares.method, rfl⟩
    show data'.setKeepalive q.shouldKeepAlive = _
    rw [hKeepAlive]
    exact StructuredData.received_of_stores hData hStores hOwned
  · show d'.trace = _
    rw [hTrace]
    have hAnnounced : ((e.tookAll (announced q) data.lines data').announceHeaders cb (announced q)).trace =
        e.trace ++ data.lines.map headerEvent ++
          [.headersDone (announced q) (Impl.completeHeaders (announced q) (e.object.setData data'))] := rfl
    rw [hAnnounced, h.trace]
    simp [messageEvents]

/-! ### Encoding -/

namespace Encoder

variable {e e' : Encoder}

/-- The strings of a body that is not chunked are written as they are. -/
theorem encodeBodies_whole (hState : e.state = .HEADER ∨ e.state = .BODY) (hWhole : e.chunked = false)
    (strings : List ByteString) :
    ∃ s, e.encodeBodies strings = .ok (strings, { e with state := s }) ∧ (s = .HEADER ∨ s = .BODY) := by
  induction strings generalizing e with
  | nil => exact ⟨e.state, rfl, hState⟩
  | cons data rest ih =>
      have hBody : e.encodeBody data = .ok (data, { e with state := .BODY }) := by
        have hNot : ¬ (e.state ≠ .HEADER ∧ e.state ≠ .BODY) := fun hBoth =>
          hState.elim (fun h => hBoth.1 h) fun h => hBoth.2 h
        rw [encodeBody, if_neg hNot]
        by_cases hData : data = []
        · simp [hData]
        · simp [hData, hWhole]
      obtain ⟨s, hRest, hs⟩ := ih (e := { e with state := .BODY }) (.inr rfl) hWhole
      refine ⟨s, ?_, hs⟩
      rw [encodeBodies, hBody]
      simp only [bind, Except.bind, hRest]

theorem encodeEom_whole (hState : e.state = .HEADER ∨ e.state = .BODY) (hWhole : e.chunked = false) :
    e.encodeEom = .ok ([], { e with state := .ZERO }) := by
  have hNot : e.state ≠ .ZERO := by
    intro hZero
    rw [hZero] at hState
    cases hState with
    | inl h => cases h
    | inr h => cases h
  rw [encodeEom, if_neg hNot]
  simp [hWhole]

/-- What is written for a message, with its body. -/
theorem encodeMessage_sendable (he : e.state = .ZERO) {m : Message} {length : Nat} (hData : m.data.Sendable length)
    (strings : List ByteString) :
    ∃ w, e.encodeMessage m strings [] = .ok (w, { state := .ZERO, chunked := m.data.chunked }) ∧
      w.bytes = (m.startLine ++ crlf) ++ (sectionBytes m.data.lines ++ crlf) ++ bodyBytes m.data.chunked strings := by
  have hHeader : e.encodeHeader m = .ok ((m.startLine ++ crlf) ++ (sectionBytes m.data.lines ++ crlf),
      { state := .HEADER, chunked := m.data.chunked }) := by
    rw [encodeHeader, if_neg (not_not_intro he), Message.serialize, hData.serialize]
    rfl
  cases hChunked : m.data.chunked with
  | true =>
      rw [hChunked] at hHeader
      refine ⟨_, encodeMessage_chunked hHeader hChunked strings, ?_⟩
      simp [Encoded.bytes, Encoded.outputs, bodyBytes]
  | false =>
      rw [hChunked] at hHeader
      obtain ⟨s, hBodies, hs⟩ :=
        encodeBodies_whole (e := { state := .HEADER, chunked := false }) (.inl rfl) rfl strings
      have hEom := encodeEom_whole (e := { state := s, chunked := false }) hs rfl
      refine ⟨⟨(m.startLine ++ crlf) ++ (sectionBytes m.data.lines ++ crlf), strings, [], []⟩, ?_, ?_⟩
      · rw [encodeMessage, hHeader]
        simp only [bind, Except.bind, hBodies, encodeTrailers, hEom]
      · simp [Encoded.bytes, Encoded.outputs, bodyBytes]

/-- Messages without trailers, each with the strings of its body, one after the other. -/
def encodeStream (e : Encoder) : List (Message × List ByteString) → Except EncoderAssertion (ByteString × Encoder)
  | [] => .ok ([], e)
  | (m, strings) :: rest => do
      let (w, e) ← e.encodeMessage m strings []
      let (bytes, e) ← e.encodeStream rest
      .ok (w.bytes ++ bytes, e)

end Encoder

/-! ### A stream of messages -/

/-- The events for a message that has come through: its lines in order, `m`, and its body. -/
def Arrives (sent m : Message) (strings : List ByteString) (es : List Event) : Prop :=
  ∃ q bodies, bodies.flatten = strings.flatten ∧
    es = messageEvents { headers := sent.data.lines } q m bodies ++ [.completion]

/-- What is encoded for `sent` comes through as `m`, wherever a message begins. -/
def Passes (cb : Callbacks υ) (version : ProtoVersion) (sent m : Message) (strings : List ByteString) : Prop :=
  ∀ (e : Encoder) (c : HttpCodec υ), e.state = .ZERO → c.Between →
    c.impl.version = .UNSET ∨ c.impl.version = version →
    ∃ w e' c' es, e.encodeMessage sent strings [] = .ok (w, e') ∧ e'.state = .ZERO ∧
      c.decode cb w.bytes = .ok (c', true) ∧ c'.Between ∧ c'.impl.version = version ∧
      c'.impl.trace = c.impl.trace ++ es ∧ Arrives sent m strings es

/-- Messages that come through one by one come through in one buffer. -/
theorem stream_passes (hFatal : cb.Fatal) {α : Type} (sent received : α → Message)
    {stream : List (α × List ByteString)}
    (hStream : ∀ x ∈ stream, Passes cb version (sent x.1) (received x.1) x.2) {e : Encoder} (he : e.state = .ZERO)
    {c : HttpCodec υ} (hc : c.Between) (hOwn : c.impl.version = .UNSET ∨ c.impl.version = version) :
    ∃ bytes e' c' ess, e.encodeStream (stream.map fun x => (sent x.1, x.2)) = .ok (bytes, e') ∧
      c.decode cb bytes = .ok (c', true) ∧ c'.impl.trace = c.impl.trace ++ ess.flatten ∧
      List.Forall₂ (fun x es => Arrives (sent x.1) (received x.1) x.2 es) stream ess := by
  induction stream generalizing e c with
  | nil => exact ⟨[], e, c, [], rfl, rfl, (List.append_nil _).symm, .nil⟩
  | cons x rest ih =>
      obtain ⟨w, e₁, c₁, es, hEncode, he₁, hDecode, hc₁, hVersion, hTrace, hArrives⟩ :=
        hStream x List.mem_cons_self e c he hc hOwn
      obtain ⟨bytes, e', c', ess, hRest, hDecodes, hTraces, hAll⟩ :=
        ih (fun y hy => hStream y (List.mem_cons_of_mem x hy)) he₁ hc₁ (.inr hVersion)
      refine ⟨w.bytes ++ bytes, e', c', es :: ess, ?_, ?_, ?_, .cons hArrives hAll⟩
      · rw [List.map_cons, Encoder.encodeStream, hEncode]
        simp only [bind, Except.bind, hRest]
      · rw [decode_append hFatal hc.toReady hc.regular hDecode hc₁.fresh]
        exact hDecodes
      · rw [hTraces, hTrace, List.flatten_cons, List.append_assoc]

end Doormat.Http
