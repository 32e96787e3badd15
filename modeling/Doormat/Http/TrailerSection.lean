import Doormat.Http.ChunkedMessage
import Doormat.Http.HeaderLine

/-! Chunked messages with trailers. `encode_trailer` writes the last chunk before each
trailer, so that a message comes through with one trailer at most, and with that one
only after a body that has been given at least one string. -/
namespace Doormat.Http

open Bytes Doormat.Parser HttpCodec

/-! ### Encoding -/

namespace Encoder

/-- The output for one trailer. -/
def trailerBytes (t : ByteString × ByteString) : ByteString := lastChunk ++ lineBytes t.1 t.2

variable {e e' : Encoder}

theorem encodeTrailer_chunked (hState : e.state = .BODY ∨ e.state = .TRAILER) (key value : ByteString) :
    e.encodeTrailer key value = .ok (trailerBytes (key, value), { e with state := .TRAILER }) := by
  have hNot : ¬ (e.state ≠ .BODY ∧ e.state ≠ .TRAILER) := by
    intro hBoth
    cases hState with
    | inl hBody => exact hBoth.1 hBody
    | inr hTrailer => exact hBoth.2 hTrailer
  have hBytes : transferChunkedTermination ++ key ++ colonSpace ++ value ++ crlf =
      trailerBytes (key, value) := by
    have hColon : colonSpace = [':'.toUInt8, SP] := by decide
    have hLast : transferChunkedTermination = lastChunk := by decide
    rw [hColon, hLast, trailerBytes, lineBytes]
    simp only [List.append_assoc, List.cons_append, List.nil_append]
    rfl
  rw [encodeTrailer, if_neg hNot, hBytes]

theorem encodeTrailers_chunked (hState : e.state = .BODY ∨ e.state = .TRAILER)
    (trailers : List (ByteString × ByteString)) :
    e.encodeTrailers trailers =
      .ok (trailers.map trailerBytes, if trailers = [] then e else { e with state := .TRAILER }) := by
  induction trailers generalizing e with
  | nil => rfl
  | cons t rest ih =>
      have hRest := ih (e := { e with state := .TRAILER }) (.inr rfl)
      rw [encodeTrailers, encodeTrailer_chunked hState]
      simp only [bind, Except.bind, hRest]
      cases rest with
      | nil => rfl
      | cons next rest => rfl

/-- What is written after the body. -/
def trailerSection (trailers : List (ByteString × ByteString)) : ByteString :=
  (if trailers = [] then lastChunk else (trailers.map trailerBytes).flatten) ++ [CR, LF]

/-- With trailers but without a string of a body the encoder fails an assertion. -/
theorem encodeMessage_bodiless {m : Message} {header : ByteString}
    (hHeader : e.encodeHeader m = .ok (header, e')) (t : ByteString × ByteString)
    (rest : List (ByteString × ByteString)) : e.encodeMessage m [] (t :: rest) = .error .trailer := by
  have hState := encodeHeader_state hHeader
  have hFails : e'.encodeTrailer t.1 t.2 = .error .trailer := by
    rw [encodeTrailer, if_pos (by simp [hState])]
  rw [encodeMessage, hHeader]
  simp only [bind, Except.bind, encodeBodies, encodeTrailers, hFails]

theorem encodeMessage_trailers {m : Message} {header : ByteString}
    (hHeader : e.encodeHeader m = .ok (header, e')) (hChunked : m.data.chunked = true)
    {strings : List ByteString} {trailers : List (ByteString × ByteString)}
    (hStrings : trailers = [] ∨ strings ≠ []) :
    ∃ w, e.encodeMessage m strings trailers = .ok (w, { e' with state := .ZERO }) ∧
      w.bytes = header ++ (strings.map chunkPiece).flatten ++ trailerSection trailers := by
  by_cases hNone : trailers = []
  · subst hNone
    refine ⟨_, encodeMessage_chunked hHeader hChunked strings, ?_⟩
    simp [Encoded.bytes, Encoded.outputs, trailerSection]
  · have hSome := hStrings.resolve_left hNone
    obtain ⟨hState, hEncoder⟩ := encodeHeader_chunked hHeader
    rw [hChunked] at hEncoder
    have hTrailers := encodeTrailers_chunked (e := { e' with state := .BODY }) (.inl rfl) trailers
    have hEom : ({ e' with state := .TRAILER } : Encoder).encodeEom =
        .ok ([CR, LF], { e' with state := .ZERO }) := by
      simp only [encodeEom, hEncoder]
      rfl
    rw [if_neg hNone] at hTrailers
    refine ⟨⟨header, strings.map chunkPiece, trailers.map trailerBytes, [CR, LF]⟩, ?_, ?_⟩
    · rw [encodeMessage, hHeader]
      simp only [bind, Except.bind, encodeBodies_chunked (.inl hState) hEncoder, if_neg hSome, hTrailers,
        hEom]
    · simp [Encoded.bytes, Encoded.outputs, trailerSection, hNone]

end Encoder

open Encoder

/-! ### Reading -/

variable {υ : Type} {cb : Callbacks υ} {c c₁ : HttpCodec υ} {header : ByteString}

/-- The parser reads a header section to where the body begins. -/
theorem HeaderRead.reads (h : HeaderRead cb c header c₁) (hFatal : cb.Fatal) (hc : c.Ready)
    (hRegular : (enter c.parser).Regular) :
    ∃ cs, (enter c.parser).reads header = some (enter c₁.parser, cs) ∧ c.impl.replay cb cs = .ok c₁.impl := by
  obtain ⟨p, cs, d, hEmit, hReplay, hEq⟩ := emit_of_decode hFatal hc hRegular h.decodes
  have hState := h.awaits.state
  rw [hEq] at hState ⊢
  unfold emitPiece at hEmit
  split at hEmit
  case isTrue hNil =>
    cases hEmit
    cases hReplay
    rw [hNil]
    exact ⟨[], rfl, rfl⟩
  case isFalse hNe =>
    obtain ⟨l, out, out', hReads, hClose, rfl⟩ := emit_eq_some.mp hEmit
    have hUnmarked : ∀ cur, p.state.admits cur = true → cur = none := by
      intro cur hAdmits
      have hStart : p.state = .chunkSizeStart := hState
      rw [hStart] at hAdmits
      exact of_decide_eq_true hAdmits
    obtain ⟨rfl, rfl⟩ := locals_of_close_unmarked (reads_regular hRegular hReads) hUnmarked hClose
    rw [List.append_nil] at hReplay
    exact ⟨out, hReads, hReplay⟩

/-- What the parser calls for the strings of a body. -/
def bodyCallbacks (p : Fields) (strings : List ByteString) : List Callback :=
  (strings.filter (· ≠ [])).flatMap (chunkCallbacks p)

theorem reads_chunkPieces {p : Fields} (hChunked : p.flags.chunked = true) (length : Nat)
    {strings : List ByteString} (hLength : ∀ s ∈ strings, s.length < 2 ^ 63) :
    ∃ length', (atSize p length).reads (strings.map chunkPiece).flatten =
      some (atSize p length', bodyCallbacks p strings) := by
  induction strings generalizing length with
  | nil => exact ⟨length, rfl⟩
  | cons s rest ih =>
      have hRest : ∀ t ∈ rest, t.length < 2 ^ 63 := fun t ht => hLength t (List.mem_cons_of_mem s ht)
      by_cases hs : s = []
      · obtain ⟨length', hReads⟩ := ih length hRest
        refine ⟨length', ?_⟩
        simpa [chunkPiece, hs, bodyCallbacks] using hReads
      · obtain ⟨length', hReads⟩ := ih 0 hRest
        have hChunk := reads_chunk hChunked length hs (hLength s List.mem_cons_self)
        refine ⟨length', ?_⟩
        simpa [chunkPiece, hs, bodyCallbacks] using Locals.reads_trans hChunk hReads

namespace Impl

theorem replay_body (cb : Callbacks υ) {d : Impl υ} (h : d.InBody) (p : Fields) (strings : List ByteString) :
    ∃ d', d.replay cb (bodyCallbacks p strings) = .ok d' ∧ d'.InBody ∧
      d'.trace = d.trace ++ bodyEvents strings := by
  induction strings generalizing d with
  | nil => exact ⟨d, rfl, h, (List.append_nil _).symm⟩
  | cons s rest ih =>
      by_cases hs : s = []
      · obtain ⟨d', hReplay, hBody, hTrace⟩ := ih h
        refine ⟨d', ?_, hBody, ?_⟩
        · simpa [bodyCallbacks, hs] using hReplay
        · simpa [bodyEvents, hs] using hTrace
      · have hNext : ({ d.record (.body s) with user := cb.body s d.user } : Impl υ).InBody := { h with }
        obtain ⟨d', hReplay, hBody, hTrace⟩ := ih hNext
        refine ⟨d', ?_, hBody, ?_⟩
        · have hAll := replay_append_eq_ok.mpr ⟨_, replay_chunk h.heeds p s, hReplay⟩
          simpa [bodyCallbacks, hs] using hAll
        · rw [hTrace, bodyEvents_cons, if_neg hs, ← List.append_assoc]
          rfl

/-- A trailer is held back until the message is complete. -/
theorem replay_trailer {d : Impl υ} (h : d.InBody) (key value : ByteString) :
    d.replay cb [.data 0 .headerField key, .data 0 .headerValue value] =
      .ok { d with key := key, value := value, gotHeader := true } := by
  have hDone := h.headersCompleted
  have hGot := h.gotHeader
  have hKey := h.key
  have hValue := h.value
  simp [replay, List.foldlM, apply, settings, Settings.data, accept, hDone, onTrailerField, flushTrailer,
    hGot, onTrailerValue, hKey, hValue, bind, Except.bind, pure, Except.pure]

end Impl

/-- What the parser calls for a section with these trailers, but for its end. -/
def sectionCallbacks (p : Fields) (trailers : List (ByteString × ByteString)) : List Callback :=
  .notify (trailerFields p) .chunkHeader ::
    trailers.flatMap fun t => [.data 0 .headerField t.1, .data 0 .headerValue t.2]

/-- The parser reads the bytes after a body up to the last. -/
def ReadsSection (p : Fields) (trailers : List (ByteString × ByteString)) : Prop :=
  ∃ short, trailerSection trailers = short ++ [LF] ∧ ∃ (q : Fields) (n : Nat),
    q.flags.trailing = true ∧ n < httpMaxHeaderSize ∧ ∀ length, (atSize p length).reads short =
      some (⟨q.updateState .headersAlmostDone, n, none, .outer⟩, sectionCallbacks p trailers)

/-- A trailer fits if its line and the empty one after it are within the limit of a
header section. -/
def Fits (t : ByteString × ByteString) : Prop := t.1.length + t.2.length + 6 ≤ httpMaxHeaderSize

theorem length_lineBytes (key value : ByteString) :
    (lineBytes key value).length = key.length + value.length + 4 := by
  simp [lineBytes]
  omega

theorem readsSection_nil {p : Fields} (hChunked : p.flags.chunked = true) : ReadsSection p [] := by
  refine ⟨lastChunk ++ [CR], rfl, trailerFields p, 1, rfl, by decide, fun length => ?_⟩
  have hReadCR := read_endCR (q := trailerFields p) (n := 0) rfl (by decide)
  exact Locals.reads_trans (reads_lastChunk hChunked length)
    (Locals.reads_cons hReadCR (Locals.reads_nil _))

/-- The parser in front of a trailer. -/
theorem lineAt_trailer (p : Fields) (key value : ByteString) :
    LineAt (trailerFields p) key value (lineBytes key value) [] ⟨trailerFields p, 0, none, .outer⟩ :=
  .start rfl (.refl _) rfl

theorem regular_trailer (p : Fields) : (Locals.mk (trailerFields p) 0 none .outer).Regular :=
  ⟨rfl, trivial, fun _ => rfl⟩

theorem blank_CR : CR ≠ SP ∧ CR ≠ HT := by decide

theorem readsSection_one {p : Fields} (hChunked : p.flags.chunked = true)
    (hUndeclared : p.flags.contentlength = false) {t : ByteString × ByteString} (hLine : Line t.1 t.2)
    (hLegible : Legible t.1 t.2) (hFits : Fits t) : ReadsSection p [t] := by
  have hLength := length_lineBytes t.1 t.2
  have hRoom : (Locals.mk (trailerFields p) 0 none .outer).counted + (lineBytes t.1 t.2).length ≤
      httpMaxHeaderSize + 1 := by
    rw [counted_outer _ rfl, hLength]
    have hBound : t.1.length + t.2.length + 6 ≤ httpMaxHeaderSize := hFits
    omega
  have hAdmissible : Admissible (trailerFields p).flags.contentlength t.1 t.2 := ⟨fun _ => hUndeclared, hLegible⟩
  obtain ⟨l, out, hReads, hOver, hl, hCounted⟩ :=
    (lineAt_trailer p t.1 t.2).reads hLine hAdmissible (regular_trailer p) hRoom
  obtain ⟨q, n, pre, hCount, hState, hAlike, hSaid, hNext⟩ := hOver.next blank_CR
  rw [counted_outer _ rfl, hLength] at hCounted
  have hBound : n + 1 < httpMaxHeaderSize := by
    have hFit : t.1.length + t.2.length + 6 ≤ httpMaxHeaderSize := hFits
    omega
  rw [read_endCR hState (by omega)] at hNext
  refine ⟨trailerBytes t ++ [CR], by simp [trailerSection], q, n + 1, ?_, hBound, fun length => ?_⟩
  · rw [hAlike.trailing]
    rfl
  · have hCallbacks : [.notify (trailerFields p) .chunkHeader] ++ out ++ (pre ++ [] ++ []) =
        sectionCallbacks p [t] := by
      simp only [sectionCallbacks, List.flatMap_cons, List.flatMap_nil, List.append_nil, ← hSaid]
      simp
    rw [← hCallbacks]
    exact Locals.reads_trans (Locals.reads_trans (reads_lastChunk hChunked length) hReads)
      (Locals.reads_cons hNext (Locals.reads_nil _))

/-! ### A whole message -/

theorem trailersOf_map (trailers : List (ByteString × ByteString)) :
    trailersOf (trailers.map fun t => .trailer t.1 t.2) = trailers := by
  induction trailers with
  | nil => rfl
  | cons t rest ih =>
      rw [List.map_cons, trailersOf, List.filterMap_cons]
      exact congrArg (List.cons t) ih

/-- The codec at the end of a section with one trailer at most. -/
theorem replay_section (cb : Callbacks υ) {d : Impl υ} (h : d.InBody) (p : Fields)
    {trailers : List (ByteString × ByteString)} (hFew : trailers.length ≤ 1) :
    ∃ d', d.replay cb (sectionCallbacks p trailers) = .ok d' ∧ d'.trace = d.trace ∧
      (({ d' with ignore := true } : Impl υ).completeMessage cb).trace =
        d.trace ++ (trailers.map fun t => .trailer t.1 t.2) ++ [.completion] := by
  have hLast := Impl.replay_lastChunk cb d p
  match trailers with
  | [] =>
      have hNone : d.replay cb (sectionCallbacks p []) = .ok d := hLast
      refine ⟨d, hNone, rfl, ?_⟩
      rw [List.map_nil, List.append_nil]
      exact completeMessage_trace cb (d := { d with ignore := true }) h.gotHeader
  | [t] =>
      have hOne : d.replay cb (sectionCallbacks p [t]) =
          .ok { d with key := t.1, value := t.2, gotHeader := true } := by
        show d.replay cb ([.notify (trailerFields p) .chunkHeader] ++
          [.data 0 .headerField t.1, .data 0 .headerValue t.2]) = _
        exact Impl.replay_append_eq_ok.mpr ⟨d, hLast, Impl.replay_trailer h t.1 t.2⟩
      refine ⟨_, hOne, rfl, ?_⟩
      simp [Impl.completeMessage, Impl.flushTrailer, Impl.record, Impl.reset]
  | _ :: _ :: _ => simp at hFew

/-- The output for a chunked message, given to `decode` in one buffer: the trailers come
through, in order, and the message is completed once, by the last byte. -/
def TrailersRoundTrip (cb : Callbacks υ) (c : HttpCodec υ) (e : Encoder) (m : Message)
    (strings : List ByteString) (trailers : List (ByteString × ByteString)) : Prop :=
  ∃ w e' c' t' es es', e.encodeMessage m strings trailers = .ok (w, e') ∧
    c.decode cb w.bytes = .ok (c', true) ∧ c'.impl.trace = c.impl.trace ++ es ∧
    trailersOf es = trailers ∧ es.count .completion = 1 ∧
    c.decode cb w.bytes.dropLast = .ok (t', true) ∧ t'.impl.trace = c.impl.trace ++ es' ∧
    es'.count .completion = 0

/-- What the parser reads of a whole message, up to its last byte. -/
theorem decode_whole (hFatal : cb.Fatal) (hc : c.Ready) (hRegular : (enter c.parser).Regular)
    (hRead : HeaderRead cb c header c₁) {strings : List ByteString}
    (hLength : ∀ s ∈ strings, s.length < 2 ^ 63) {trailers : List (ByteString × ByteString)}
    (hFew : trailers.length ≤ 1) (hSection : ReadsSection c₁.parser.toFields trailers) :
    ∃ short t' c', trailerSection trailers = short ++ [LF] ∧
      c.decode cb (header ++ (strings.map chunkPiece).flatten ++ short) = .ok (t', true) ∧
      t'.impl.trace = c₁.impl.trace ++ bodyEvents strings ∧
      c.decode cb (header ++ (strings.map chunkPiece).flatten ++ trailerSection trailers) = .ok (c', true) ∧
      c'.impl.trace = c₁.impl.trace ++ bodyEvents strings ++
        (trailers.map fun t => .trailer t.1 t.2) ++ [.completion] := by
  obtain ⟨out, hHeader, hReplay⟩ := hRead.reads hFatal hc hRegular
  obtain ⟨length, hBody⟩ := reads_chunkPieces hRead.awaits.chunked c₁.parser.contentLength hLength
  obtain ⟨short, hShort, q, n, hTrailing, hRoom, hReads⟩ := hSection
  obtain ⟨d, hBodyReplay, hInBody, hBodyTrace⟩ :=
    Impl.replay_body cb hRead.awaits.toInBody c₁.parser.toFields strings
  obtain ⟨d', hSectionReplay, hTrace, hComplete⟩ :=
    replay_section cb hInBody c₁.parser.toFields hFew
  rw [hRead.awaits.enter] at hHeader
  have hFront := Locals.reads_trans (Locals.reads_trans hHeader hBody) (hReads length)
  have hFrontReplay : c.impl.replay cb (out ++ bodyCallbacks c₁.parser.toFields strings ++
      sectionCallbacks c₁.parser.toFields trailers) = .ok d' :=
    Impl.replay_append_eq_ok.mpr
      ⟨d, Impl.replay_append_eq_ok.mpr ⟨c₁.impl, hReplay, hBodyReplay⟩, hSectionReplay⟩
  have hWhole := Locals.reads_trans hFront
    (Locals.reads_cons (read_endLF hTrailing hRoom) (Locals.reads_nil _))
  rw [List.append_assoc, ← hShort] at hWhole
  have hWholeReplay := Impl.replay_append_eq_ok.mpr ⟨d', hFrontReplay, Impl.replay_end cb d' q⟩
  have hNe : short ≠ [] := by
    rintro rfl
    have hTwo : (trailerSection trailers).length = 1 := by rw [hShort]; rfl
    simp [trailerSection] at hTwo
  have hFrontEmit := emitPiece_of_reads (List.append_ne_nil_of_right_ne_nil _ hNe) hFront
  have hWholeEmit : emitPiece c.parser
      (header ++ (strings.map chunkPiece).flatten ++ trailerSection trailers) = some (fresh, _) :=
    emitPiece_of_reads (by simp [hShort]) hWhole
  refine ⟨short, c.update _ d', c.update fresh _, hShort,
    decode_of_emit hc hRegular hFrontEmit hFrontReplay, ?_,
    decode_of_emit hc hRegular hWholeEmit hWholeReplay, ?_⟩
  · show d'.trace = _
    rw [hTrace, hBodyTrace]
  · show (({ d' with ignore := true } : Impl υ).completeMessage cb).trace = _
    rw [hComplete, hBodyTrace]

/-! ### What cannot be read -/

/-- A section with a trailer that is read to the end has one, which fits and is legible. -/
theorem section_forced {p : Fields} (hChunked : p.flags.chunked = true) {t : ByteString × ByteString}
    {rest : List (ByteString × ByteString)} (hLine : Line t.1 t.2) {length : Nat} {l : Locals}
    {cs : List Callback} (hReads : (atSize p length).reads (trailerSection (t :: rest)) = some (l, cs))
    (hNot : ¬ l.Overdrawn) : rest = [] ∧ Fits t ∧ Legible t.1 t.2 := by
  have hSplit : trailerSection (t :: rest) =
      lastChunk ++ (lineBytes t.1 t.2 ++ ((rest.map trailerBytes).flatten ++ [CR, LF])) := by
    simp [trailerSection, trailerBytes]
  rw [hSplit] at hReads
  obtain ⟨l₀, out₀, out, hLast, hRest, -⟩ := Transducer.reads_append_eq_some.mp hReads
  obtain ⟨rfl, -⟩ := Prod.mk.inj (Option.some.inj ((reads_lastChunk hChunked length).symm.trans hLast))
  obtain ⟨l₁, pre, post, hAfter, -, hOver, hl₁, hCounted⟩ :=
    (lineAt_trailer p t.1 t.2).forced hLine (regular_trailer p) hRest hNot
  rw [counted_outer _ rfl, length_lineBytes] at hCounted
  cases rest with
  | nil =>
      refine ⟨rfl, ?_, (hOver.admissible rfl).legible⟩
      obtain ⟨l₂, out₁, out₂, hCR, hLF, -⟩ := Transducer.reads_cons_eq_some.mp hAfter
      obtain ⟨q, n, pre', hCount, hState, -, -, hNext⟩ := hOver.next blank_CR
      have hParsing : q.state.parsingHeader = true := by
        rw [hState]
        rfl
      rw [hNext] at hCR
      obtain ⟨r, hRead, hEq⟩ := Option.map_eq_some_iff.mp hCR
      rw [read_endCR hState (le_of_read hParsing hRead)] at hRead
      cases hRead
      cases hEq
      obtain ⟨l₃, out₃, out₄, hRead', -, -⟩ := Transducer.reads_cons_eq_some.mp hLF
      have hRoom := le_of_read rfl hRead'
      show t.1.length + t.2.length + 6 ≤ httpMaxHeaderSize
      omega
  | cons next rest =>
      have hBytes : ((next :: rest).map trailerBytes).flatten ++ [CR, LF] = '0'.toUInt8 :: CR ::
          (LF :: (lineBytes next.1 next.2 ++ (rest.map trailerBytes).flatten) ++ [CR, LF]) := by
        simp [trailerBytes, lastChunk]
      rw [hBytes] at hAfter
      obtain ⟨l₂, out₁, out₂, hZero, hLine', -⟩ := Transducer.reads_cons_eq_some.mp hAfter
      have hBlank : '0'.toUInt8 ≠ SP ∧ '0'.toUInt8 ≠ HT := by decide
      obtain ⟨q, n, pre', hCount, hState, -, -, hNext⟩ := hOver.next hBlank
      rw [hNext] at hZero
      obtain ⟨r, hRead, hEq⟩ := Option.map_eq_some_iff.mp hZero
      cases hEq
      have hSome := (Locals.reads_cons hRead hLine').symm.trans (reads_zeroLine hState _)
      cases hSome

/-- A chunked message comes through with its trailers, if the decoder takes its header
section for that of a chunked message, exactly if it has none, or one that the parser
reads and a body that has been given a string. -/
theorem HeaderRead.trailersRoundTrip_iff (hRead : HeaderRead cb c header c₁) (hFatal : cb.Fatal) (hc : c.Ready)
    (hRegular : (enter c.parser).Regular) {e e₁ : Encoder} {m : Message}
    (hHeader : e.encodeHeader m = .ok (header, e₁)) (hChunked : m.data.chunked = true) {strings : List ByteString}
    (hLength : ∀ s ∈ strings, s.length < 2 ^ 63) {trailers : List (ByteString × ByteString)}
    (hLines : ∀ t ∈ trailers, Line t.1 t.2) :
    TrailersRoundTrip cb c e m strings trailers ↔
      trailers = [] ∨ ∃ t, trailers = [t] ∧ strings ≠ [] ∧ Fits t ∧ Legible t.1 t.2 := by
  constructor
  · rintro ⟨w, e', c', t', es, es', hEncode, hDecode, -⟩
    cases trailers with
    | nil => exact .inl rfl
    | cons t rest =>
        have hStrings : strings ≠ [] := by
          rintro rfl
          rw [encodeMessage_bodiless hHeader t rest] at hEncode
          cases hEncode
        have hSome : t :: rest = [] ∨ strings ≠ [] := .inr hStrings
        obtain ⟨w', hEncode', hBytes⟩ := encodeMessage_trailers hHeader hChunked hSome
        rw [hEncode'] at hEncode
        cases hEncode
        obtain ⟨p, cs, d, hEmit, -, -⟩ := emit_of_decode hFatal hc hRegular hDecode
        obtain ⟨out, hFront, -⟩ := hRead.reads hFatal hc hRegular
        obtain ⟨length, hBody⟩ := reads_chunkPieces hRead.awaits.chunked c₁.parser.contentLength hLength
        rw [hRead.awaits.enter] at hFront
        have hNe : w.bytes ≠ [] := by simp [hBytes, trailerSection]
        rw [emitPiece, if_neg hNe] at hEmit
        obtain ⟨l, out', out'', hReads, hClose, -⟩ := emit_eq_some.mp hEmit
        rw [hBytes] at hReads
        obtain ⟨l₁, outs, last, hFirst, hSection, -⟩ := Transducer.reads_append_eq_some.mp hReads
        obtain ⟨rfl, -⟩ :=
          Prod.mk.inj (Option.some.inj ((Locals.reads_trans hFront hBody).symm.trans hFirst))
        obtain ⟨rfl, hFits, hLegible⟩ := section_forced hRead.awaits.chunked
          (hLines t List.mem_cons_self) hSection (not_overdrawn_of_close hClose)
        exact .inr ⟨t, rfl, hStrings, hFits, hLegible⟩
  · intro hCarried
    have hFew : trailers.length ≤ 1 := by
      rcases hCarried with rfl | ⟨t, rfl, -⟩
      · exact Nat.zero_le 1
      · exact Nat.le_refl 1
    have hStrings : trailers = [] ∨ strings ≠ [] := by
      rcases hCarried with rfl | ⟨t, rfl, hStrings, -⟩
      · exact .inl rfl
      · exact .inr hStrings
    have hSection : ReadsSection c₁.parser.toFields trailers := by
      rcases hCarried with rfl | ⟨t, rfl, -, hFits, hLegible⟩
      · exact readsSection_nil hRead.awaits.chunked
      · exact readsSection_one hRead.awaits.chunked hRead.awaits.undeclared
          (hLines t List.mem_cons_self) hLegible hFits
    obtain ⟨w, hEncode, hBytes⟩ := encodeMessage_trailers hHeader hChunked hStrings
    obtain ⟨short, t', c', hShort, hDecode', hTrace', hDecode, hTrace⟩ :=
      decode_whole hFatal hc hRegular hRead hLength hFew hSection
    obtain ⟨front, hFront, -, hNone, hCount⟩ := hRead.announces
    have hDropLast : w.bytes.dropLast = header ++ (strings.map chunkPiece).flatten ++ short := by
      rw [hBytes, hShort, ← List.append_assoc, List.dropLast_concat]
    refine ⟨w, _, c', t', front ++ bodyEvents strings ++ (trailers.map fun t => .trailer t.1 t.2) ++
      [.completion], front ++ bodyEvents strings, hEncode, hBytes ▸ hDecode, ?_, ?_, ?_,
      hDropLast ▸ hDecode', ?_, ?_⟩
    · rw [hTrace, hFront]
      simp only [List.append_assoc]
    · rw [trailersOf_append, trailersOf_append, trailersOf_append, hNone, trailersOf_bodyEvents,
        trailersOf_map]
      exact List.append_nil _
    · have hTrailers : (trailers.map fun t => Event.trailer t.1 t.2).count .completion = 0 := by
        apply List.count_eq_zero.mpr
        intro hMem
        obtain ⟨t, -, ht⟩ := List.mem_map.mp hMem
        cases ht
      rw [List.count_append, List.count_append, List.count_append, hCount, count_bodyEvents, hTrailers]
      rfl
    · rw [hTrace', hFront, List.append_assoc]
    · rw [List.count_append, hCount, count_bodyEvents]

/-- What is written for a message with a body and trailers is not decoded. -/
def trailersRefused (m : Message) (strings : List ByteString) (trailers : List (ByteString × ByteString)) :
    Bool :=
  match ({} : Encoder).encodeMessage m strings trailers with
  | .error _ => true
  | .ok (w, _) =>
      match requestCodec.decode requestCallbacks w.bytes with
      | .ok (_, ok) => !ok
      | .error _ => true

/-- The same `POST` with two trailers: the second `0` is read as the name of a header. -/
theorem two_trailers_refused :
    ¬ TrailersRoundTrip requestCallbacks requestCodec {} (chunkedRequest .POST) [ofString "x"]
      [(ofString "date", ofString "now"), (ofString "etag", ofString "1")] := by
  intro hTrip
  obtain ⟨w, e', c', t', es, es', hEncode, hDecode, hRest⟩ := hTrip
  have hRefused : trailersRefused (chunkedRequest .POST) [ofString "x"]
      [(ofString "date", ofString "now"), (ofString "etag", ofString "1")] = true := by decide +kernel
  simp only [trailersRefused, hEncode, hDecode] at hRefused
  cases hRefused

end Doormat.Http
