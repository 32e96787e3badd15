import Doormat.Parser.Chunks
import Doormat.Http.Beside
import Doormat.Http.Encoder

/-! Chunked messages from end to end: the calls that encode one, and what a decoder makes
of their output. -/
namespace Doormat.Http

open Bytes Doormat.Parser HttpCodec

/-! ### Encoding -/

/-- What the calls for one message return, in their order. -/
structure Encoded where
  header : ByteString
  bodies : List ByteString
  trailers : List ByteString
  eom : ByteString
deriving DecidableEq

namespace Encoded

def outputs (w : Encoded) : List ByteString := w.header :: w.bodies ++ w.trailers ++ [w.eom]

def bytes (w : Encoded) : ByteString := w.outputs.flatten

end Encoded

namespace Encoder

/-- `encode_body` for each of the strings. -/
def encodeBodies (e : Encoder) : List ByteString → Except EncoderAssertion (List ByteString × Encoder)
  | [] => .ok ([], e)
  | data :: rest => do
      let (piece, e) ← e.encodeBody data
      let (pieces, e) ← e.encodeBodies rest
      .ok (piece :: pieces, e)

/-- `encode_trailer` for each of the trailers. -/
def encodeTrailers (e : Encoder) :
    List (ByteString × ByteString) → Except EncoderAssertion (List ByteString × Encoder)
  | [] => .ok ([], e)
  | (key, value) :: rest => do
      let (line, e) ← e.encodeTrailer key value
      let (lines, e) ← e.encodeTrailers rest
      .ok (line :: lines, e)

/-- `encode_header`, `encode_body` for each string, `encode_trailer` for each trailer and
`encode_eom`. -/
def encodeMessage (e : Encoder) (m : Message) (strings : List ByteString)
    (trailers : List (ByteString × ByteString)) : Except EncoderAssertion (Encoded × Encoder) := do
  let (header, e) ← e.encodeHeader m
  let (bodies, e) ← e.encodeBodies strings
  let (lines, e) ← e.encodeTrailers trailers
  let (eom, e) ← e.encodeEom
  .ok (⟨header, bodies, lines, eom⟩, e)

variable {e e' : Encoder}

/-- The output for one string of a chunked body. -/
def chunkPiece (data : ByteString) : ByteString := if data = [] then [] else chunkBytes data

theorem encodeBody_chunked (hState : e.state = .HEADER ∨ e.state = .BODY) (hChunked : e.chunked = true)
    (data : ByteString) : e.encodeBody data = .ok (chunkPiece data, { e with state := .BODY }) := by
  have hNot : ¬ (e.state ≠ .HEADER ∧ e.state ≠ .BODY) := by
    intro hBoth
    cases hState with
    | inl hHeader => exact hBoth.1 hHeader
    | inr hBody => exact hBoth.2 hBody
  rw [encodeBody, if_neg hNot]
  by_cases hData : data = []
  · simp [hData, chunkPiece]
  · simp only [hData, if_false, hChunked, if_true, chunkPiece]
    rfl

/-- The output for a chunked body; the encoder remembers whether there was a string. -/
theorem encodeBodies_chunked (hState : e.state = .HEADER ∨ e.state = .BODY) (hChunked : e.chunked = true)
    (strings : List ByteString) :
    e.encodeBodies strings =
      .ok (strings.map chunkPiece, if strings = [] then e else { e with state := .BODY }) := by
  induction strings generalizing e with
  | nil => rfl
  | cons data rest ih =>
      have hRest := ih (e := { e with state := .BODY }) (.inr rfl) hChunked
      rw [encodeBodies, encodeBody_chunked hState hChunked]
      simp only [bind, Except.bind, hRest]
      cases rest with
      | nil => rfl
      | cons next rest => rfl

/-- The end of a chunked message without trailers: the last chunk and an empty line. -/
def lastChunk : ByteString := ['0'.toUInt8, CR, LF]

theorem encodeEom_chunked (hState : e.state = .HEADER ∨ e.state = .BODY) (hChunked : e.chunked = true) :
    e.encodeEom = .ok (lastChunk ++ [CR, LF], { e with state := .ZERO }) := by
  have hNot : e.state ≠ .ZERO := by
    intro hZero
    cases hState with
    | inl hHeader => rw [hZero] at hHeader; cases hHeader
    | inr hBody => rw [hZero] at hBody; cases hBody
  rw [encodeEom, if_neg hNot]
  cases hState with
  | inl hHeader =>
      simp only [hChunked, hHeader]
      rfl
  | inr hBody =>
      simp only [hChunked, hBody]
      rfl

theorem encodeHeader_chunked {m : Message} {header : ByteString}
    (hHeader : e.encodeHeader m = .ok (header, e')) : e'.state = .HEADER ∧ e'.chunked = m.data.chunked := by
  rw [encodeHeader] at hHeader
  split at hHeader
  · cases hHeader
  split at hHeader
  · cases hHeader
  · cases hHeader
    exact ⟨rfl, rfl⟩

/-- A chunked message without trailers is encoded, whatever its body. -/
theorem encodeMessage_chunked {m : Message} {header : ByteString}
    (hHeader : e.encodeHeader m = .ok (header, e')) (hChunked : m.data.chunked = true)
    (strings : List ByteString) :
    e.encodeMessage m strings [] =
      .ok (⟨header, strings.map chunkPiece, [], lastChunk ++ [CR, LF]⟩, { e' with state := .ZERO }) := by
  obtain ⟨hState, hEncoder⟩ := encodeHeader_chunked hHeader
  rw [hChunked] at hEncoder
  rw [encodeMessage, hHeader]
  simp only [bind, Except.bind, encodeBodies_chunked (.inl hState) hEncoder, encodeTrailers]
  by_cases hStrings : strings = []
  · simp only [hStrings, if_true, encodeEom_chunked (.inl hState) hEncoder]
  · have hEom := encodeEom_chunked (e := { e' with state := .BODY }) (.inr rfl) hEncoder
    simp only [hStrings, if_false, hEom]

end Encoder

/-! ### Decoding -/

variable {υ : Type} {cb : Callbacks υ}

/-- The bytes that the body callback is given. -/
def bodyOf (es : List Event) : ByteString :=
  es.flatMap fun
    | .body bytes => bytes
    | _ => []

/-- The trailers that the trailer callback is given. -/
def trailersOf (es : List Event) : List (ByteString × ByteString) :=
  es.filterMap fun
    | .trailer key value => some (key, value)
    | _ => none

/-- Within a body the codec holds no line back, and heeds what comes. -/
structure Impl.InBody (d : Impl υ) : Prop where
  headersCompleted : d.headersCompleted = true
  heeds : d.ignore = false
  gotHeader : d.gotHeader = false
  key : d.key = []
  value : d.value = []

/-- A decoder that waits for the next chunk of a message without a content length. -/
structure HttpCodec.AwaitsChunk (c : HttpCodec υ) : Prop extends c.Ready, c.impl.InBody where
  state : c.parser.state = .chunkSizeStart
  nread : c.parser.nread = 0
  chunked : c.parser.flags.chunked = true
  undeclared : c.parser.flags.contentlength = false

/-- The decoder takes `header` for the header section of one chunked message: it accepts
the bytes, announces nothing but headers, and waits for the first chunk. -/
structure HeaderRead (cb : Callbacks υ) (c : HttpCodec υ) (header : ByteString) (c' : HttpCodec υ) :
    Prop where
  decodes : c.decode cb header = .ok (c', true)
  announces : ∃ es, c'.impl.trace = c.impl.trace ++ es ∧ bodyOf es = [] ∧ trailersOf es = [] ∧
    es.count .completion = 0
  awaits : c'.AwaitsChunk

namespace HttpCodec

theorem AwaitsChunk.enter {c : HttpCodec υ} (h : c.AwaitsChunk) :
    enter c.parser = atSize c.parser.toFields c.parser.contentLength := by
  have hState := h.state
  have hNread := h.nread
  obtain ⟨⟨fields, nread, errno⟩, impl, ignoreContentLen⟩ := c
  obtain ⟨type, flags, state, headerState, index, contentLength, major, minor, status, method, upgrade⟩ :=
    fields
  simp only at hState hNread
  subst hState hNread
  rfl

theorem AwaitsChunk.regular {c : HttpCodec υ} (h : c.AwaitsChunk) : (Parser.enter c.parser).Regular :=
  enter_regular fun _ => h.nread

end HttpCodec

/-- A buffer that leaves no data behind is over. -/
theorem close_outer (p : Fields) (n : Nat) :
    (Locals.mk p n none .outer).close = some (⟨p, n, none⟩, []) := by
  rw [Locals.close_eq, if_neg (fun h => h.1 rfl)]
  rfl

/-- What the parser emits for a piece that it reads to the end of. -/
theorem emitPiece_of_reads {p : HttpParser} {piece : ByteString} {q : Fields} {n : Nat}
    {cs : List Callback} (hPiece : piece ≠ [])
    (hReads : (enter p).reads piece = some (⟨q, n, none, .outer⟩, cs)) :
    emitPiece p piece = some (⟨q, n, none⟩, cs) := by
  rw [emitPiece, if_neg hPiece]
  exact emit_eq_some.mpr ⟨_, cs, [], hReads, close_outer q n, (List.append_nil cs).symm⟩

namespace Impl

/-- A chunk is handed over in one piece. -/
theorem replay_chunk {d : Impl υ} (hHeeds : d.ignore = false) (p : Fields) (data : ByteString) :
    d.replay cb (chunkCallbacks p data) =
      .ok { d.record (.body data) with user := cb.body data d.user } := by
  simp [replay, chunkCallbacks, List.foldlM, apply, settings, Settings.notification, Settings.data,
    accept, onChunk, onBody, Fields.bodyIsFinal, hHeeds, bind, Except.bind, pure, Except.pure]

/-- The line of the last chunk does nothing. -/
theorem replay_lastChunk (cb : Callbacks υ) (d : Impl υ) (p : Fields) :
    d.replay cb [.notify (trailerFields p) .chunkHeader] = .ok d := by
  simp [replay, List.foldlM, apply, settings, Settings.notification, accept, onChunk, Fields.bodyIsFinal,
    trailerFields, bind, Except.bind, pure, Except.pure]

/-- The end of a message: what is held back is flushed, and the message completed. -/
theorem replay_end (cb : Callbacks υ) (d : Impl υ) (q : Fields) :
    d.replay cb [.notify (q.updateState .messageDone) .chunkComplete, .messageComplete] =
      .ok ({ d with ignore := true }.completeMessage cb) := by
  simp [replay, List.foldlM, apply, settings, Settings.notification, accept, onChunk, Fields.bodyIsFinal,
    Fields.updateState, bind, Except.bind, pure, Except.pure]

end Impl

/-- One string of a chunked body is decoded into itself. -/
theorem decode_chunkPiece {c : HttpCodec υ} (h : c.AwaitsChunk) {data : ByteString}
    (hLength : data.length < 2 ^ 63) :
    ∃ c', c.decode cb (Encoder.chunkPiece data) = .ok (c', true) ∧ c'.AwaitsChunk ∧
      c'.impl.trace = c.impl.trace ++ (if data = [] then [] else [.body data]) := by
  by_cases hData : data = []
  · refine ⟨c, ?_, h, ?_⟩
    · simp only [Encoder.chunkPiece, hData, if_true]
      rfl
    · simp [hData]
  · have hReads := reads_chunk (p := c.parser.toFields) h.chunked c.parser.contentLength hData hLength
    rw [← h.enter] at hReads
    have hNe : chunkBytes data ≠ [] := by simp [chunkBytes]
    have hEmit := emitPiece_of_reads hNe hReads
    have hReplay : c.impl.replay cb (chunkCallbacks c.parser.toFields data) =
        .ok { c.impl.record (.body data) with user := cb.body data c.impl.user } :=
      Impl.replay_chunk h.heeds _ data
    rw [Encoder.chunkPiece, if_neg hData, if_neg hData]
    refine ⟨_, decode_of_emit h.toReady h.regular hEmit hReplay, ?_, rfl⟩
    have hBody : c.impl.InBody := h.toInBody
    exact { hBody with
      errno := rfl, contentLen := h.contentLen, state := rfl, nread := rfl, chunked := h.chunked,
      undeclared := h.undeclared }

/-- The body events of a chunked body: an empty string makes no chunk. -/
def bodyEvents (strings : List ByteString) : List Event := (strings.filter (· ≠ [])).map .body

theorem bodyEvents_cons (data : ByteString) (rest : List ByteString) :
    bodyEvents (data :: rest) = (if data = [] then [] else [.body data]) ++ bodyEvents rest := by
  by_cases hData : data = []
  · simp [bodyEvents, hData]
  · simp [bodyEvents, hData]

theorem bodyOf_append (es es' : List Event) : bodyOf (es ++ es') = bodyOf es ++ bodyOf es' :=
  List.flatMap_append

theorem trailersOf_append (es es' : List Event) :
    trailersOf (es ++ es') = trailersOf es ++ trailersOf es' :=
  List.filterMap_append

theorem bodyOf_bodyEvents (strings : List ByteString) : bodyOf (bodyEvents strings) = strings.flatten := by
  induction strings with
  | nil => rfl
  | cons data rest ih =>
      rw [bodyEvents_cons, bodyOf_append, ih, List.flatten_cons]
      by_cases hData : data = []
      · simp [hData, bodyOf]
      · simp [hData, bodyOf]

theorem trailersOf_bodyEvents (strings : List ByteString) : trailersOf (bodyEvents strings) = [] := by
  induction strings with
  | nil => rfl
  | cons data rest ih =>
      rw [bodyEvents_cons, trailersOf_append, ih]
      by_cases hData : data = []
      · simp [hData, trailersOf]
      · simp [hData, trailersOf]

theorem count_bodyEvents (strings : List ByteString) :
    (bodyEvents strings).count .completion = 0 := by
  apply List.count_eq_zero.mpr
  intro hMem
  obtain ⟨data, -, hData⟩ := List.mem_map.mp hMem
  cases hData

/-- All strings of a chunked body, each in a call of its own. -/
theorem accepts_chunkPieces (cb : Callbacks υ) {c : HttpCodec υ} (h : c.AwaitsChunk) {strings : List ByteString}
    (hLength : ∀ s ∈ strings, s.length < 2 ^ 63) :
    ∃ c', c.accepts cb (strings.map Encoder.chunkPiece) c' ∧ c'.AwaitsChunk ∧
      c'.impl.trace = c.impl.trace ++ bodyEvents strings := by
  induction strings generalizing c with
  | nil => exact ⟨c, ⟨[], rfl, nofun⟩, h, (List.append_nil _).symm⟩
  | cons data rest ih =>
      obtain ⟨t, hDecode, hAwaits, hTrace⟩ :=
        decode_chunkPiece h (hLength data List.mem_cons_self)
      obtain ⟨c', ⟨oks, hAll, hOks⟩, hAwaits', hTrace'⟩ :=
        ih hAwaits (fun s hs => hLength s (List.mem_cons_of_mem data hs))
      refine ⟨c', ⟨true :: oks, ?_, ?_⟩, hAwaits', ?_⟩
      · exact bind_eq_ok.mpr ⟨_, hDecode, bind_eq_ok.mpr ⟨_, hAll, rfl⟩⟩
      · intro ok hOk
        cases List.mem_cons.mp hOk with
        | inl hFirst => exact hFirst
        | inr hRest => exact hOks ok hRest
      · rw [hTrace', hTrace, bodyEvents_cons, List.append_assoc]

/-- The end of a chunked message without trailers. -/
theorem decode_end {c : HttpCodec υ} (h : c.AwaitsChunk) :
    c.decode cb (Encoder.lastChunk ++ [CR, LF]) =
      .ok (c.update fresh ({ c.impl with ignore := true }.completeMessage cb), true) := by
  have hLast := reads_lastChunk (p := c.parser.toFields) h.chunked c.parser.contentLength
  have hEnd := reads_end (q := trailerFields c.parser.toFields) (n := 0) rfl rfl (by decide)
  rw [← h.enter] at hLast
  have hEmit := emitPiece_of_reads (by decide) (Locals.reads_trans hLast hEnd)
  have hReplay := Impl.replay_append_eq_ok.mpr
    ⟨c.impl, Impl.replay_lastChunk cb c.impl c.parser.toFields,
      Impl.replay_end cb c.impl (trailerFields c.parser.toFields)⟩
  exact decode_of_emit h.toReady h.regular hEmit hReplay

/-- Before the last byte of the end nothing is complete. -/
theorem decode_end_dropLast (cb : Callbacks υ) {c : HttpCodec υ} (h : c.AwaitsChunk) :
    ∃ c', c.decode cb (Encoder.lastChunk ++ [CR, LF]).dropLast = .ok (c', true) ∧
      c'.impl.trace = c.impl.trace := by
  have hLast := reads_lastChunk (p := c.parser.toFields) h.chunked c.parser.contentLength
  have hReadCR := read_endCR (q := trailerFields c.parser.toFields) (n := 0) rfl (by decide)
  rw [← h.enter] at hLast
  have hReads := Locals.reads_trans hLast (Locals.reads_cons hReadCR (Locals.reads_nil _))
  have hEmit := emitPiece_of_reads (by decide) hReads
  have hReplay := Impl.replay_lastChunk cb c.impl c.parser.toFields
  exact ⟨_, decode_of_emit h.toReady h.regular hEmit hReplay, rfl⟩

/-- What a completed message leaves in the trace. -/
theorem completeMessage_trace (cb : Callbacks υ) {d : Impl υ} (hGot : d.gotHeader = false) :
    (d.completeMessage cb).trace = d.trace ++ [.completion] := by
  simp [Impl.completeMessage, Impl.flushTrailer, hGot, Impl.record, Impl.reset]

/-- The output for a chunked message, given to `decode` call by call: the body comes
through, the message is completed once, by the last byte, no trailer is delivered, and the
decoder is where the next message begins. -/
def BodyRoundTrips (cb : Callbacks υ) (c : HttpCodec υ) (e : Encoder) (m : Message)
    (strings : List ByteString) : Prop :=
  ∃ w e' t c' t' es, e.encodeMessage m strings [] = .ok (w, e') ∧
    c.accepts cb (w.header :: w.bodies) t ∧ t.decode cb w.eom = .ok (c', true) ∧
    c'.impl.trace = c.impl.trace ++ es ∧ bodyOf es = strings.flatten ∧
    es.count .completion = 1 ∧ trailersOf es = [] ∧
    t.decode cb w.eom.dropLast = .ok (t', true) ∧
    c'.impl.trace = t'.impl.trace ++ [.completion] ∧
    c'.parser = .init .both ∧ c'.impl.reset = c'.impl ∧
    (cb.Fatal → ∀ next, t.decode cb (w.eom ++ next) = c'.decode cb next)

/-- A chunked message comes through, with any body, if the decoder takes its header
section for that of a chunked message. A `std::string` holds fewer than 2^63 bytes. -/
theorem HeaderRead.bodyRoundTrips {c c₁ : HttpCodec υ} {e e₁ : Encoder} {m : Message} {header : ByteString}
    (hRead : HeaderRead cb c header c₁) (hHeader : e.encodeHeader m = .ok (header, e₁))
    (hChunked : m.data.chunked = true) {strings : List ByteString} (hLength : ∀ s ∈ strings, s.length < 2 ^ 63) :
    BodyRoundTrips cb c e m strings := by
  obtain ⟨front, hFront, hBody, hTrailers, hCount⟩ := hRead.announces
  obtain ⟨t, ⟨oks, hAll, hOks⟩, hAwaits, hTrace⟩ := accepts_chunkPieces cb hRead.awaits hLength
  obtain ⟨t', hShort, hShortTrace⟩ := decode_end_dropLast cb hAwaits
  have hComplete : (({ t.impl with ignore := true } : Impl υ).completeMessage cb).trace =
      t.impl.trace ++ [.completion] := completeMessage_trace cb hAwaits.gotHeader
  refine ⟨_, _, t, _, t', front ++ bodyEvents strings ++ [.completion],
    Encoder.encodeMessage_chunked hHeader hChunked strings, ?_, decode_end hAwaits, ?_, ?_, ?_, ?_, hShort, ?_,
    rfl, rfl, fun hFatal => decode_append hFatal hAwaits.toReady hAwaits.regular (decode_end hAwaits) rfl⟩
  · refine ⟨true :: oks, bind_eq_ok.mpr ⟨_, hRead.decodes, bind_eq_ok.mpr ⟨_, hAll, rfl⟩⟩, ?_⟩
    intro ok hOk
    cases List.mem_cons.mp hOk with
    | inl hFirst => exact hFirst
    | inr hRest => exact hOks ok hRest
  · show (({ t.impl with ignore := true } : Impl υ).completeMessage cb).trace = _
    rw [hComplete, hTrace, hFront]
    simp only [List.append_assoc]
  · rw [bodyOf_append, bodyOf_append, hBody, bodyOf_bodyEvents]
    exact List.append_nil _
  · rw [List.count_append, List.count_append, hCount, count_bodyEvents]
    rfl
  · rw [trailersOf_append, trailersOf_append, hTrailers, trailersOf_bodyEvents]
    rfl
  · show (({ t.impl with ignore := true } : Impl υ).completeMessage cb).trace = _
    rw [hComplete, hShortTrace]

/-! ### Two requests -/

/-- A chunked request without a target of its own. -/
def chunkedRequest (method : HttpMethod) : Message :=
  .request { HttpRequest.fresh with
    toStructuredData := (StructuredData.fresh.setProtocol .HTTP11).setChunked true
    method := method }

/-- A new codec, all of whose messages are requests. -/
def requestCodec : HttpCodec Unit := .init (.request .fresh) ()

abbrev requestCallbacks : Callbacks Unit := .alone (.request .fresh)

/-- What is written for a message with a body is not decoded. -/
def bodyRefused (m : Message) (strings : List ByteString) : Bool :=
  match ({} : Encoder).encodeMessage m strings [] with
  | .error _ => true
  | .ok (w, _) =>
      match requestCodec.decodeAll requestCallbacks (w.header :: w.bodies) with
      | .error _ => true
      | .ok (_, oks) => !oks.all id

/-- A `CONNECT` is complete with its headers. -/
theorem connect_takes_no_body :
    ¬ BodyRoundTrips requestCallbacks requestCodec {} (chunkedRequest .CONNECT) [ofString "x"] := by
  rintro ⟨w, e', t, c', t', es, hEncode, ⟨oks, hAll, hOks⟩, -⟩
  have hRefused : bodyRefused (chunkedRequest .CONNECT) [ofString "x"] = true := by decide +kernel
  simp only [bodyRefused, hEncode, hAll] at hRefused
  have hAllOk : oks.all id = true := List.all_eq_true.mpr hOks
  rw [hAllOk] at hRefused
  cases hRefused

end Doormat.Http
