import Mathlib.Data.List.Infix
import Doormat.Http.ChunkedMessage
import Doormat.Http.ParsedFraming
import Doormat.Http.Received
import Doormat.Http.StatusLine
import Doormat.Http.Transcript

/-! The framing that a message declares when its headers are told, beside the one under which the
parser goes on to read its body. -/
namespace Doormat.Http

open Bytes Doormat.Parser

variable {υ : Type} {cb : Callbacks υ} {a : Assembly} {d e : Impl υ} {p : Fields} {m : Message}
  {lines : List (ByteString × ByteString)} {key value : ByteString}
  {trace evs : List Event} {blank : Message} {ready : Message → Prop} {lost : υ → Prop} {spoils : Event → Prop}

/-! ### What the codec stores -/

namespace StructuredData

variable {s s' : StructuredData}

/-- The lines have been stored in a message that was new. -/
structure Stored (lines : List (ByteString × ByteString)) (s : StructuredData) : Prop where
  chunked : s.chunked = codedIn lines
  length : lengthsIn lines = [] ∨
    ∃ front value, lengthsIn lines = front ++ [value] ∧ stoull value = .ok s.contentLen
  unstated : codedIn lines = false → lengthsIn lines = [] → s.getHeaders hfContentLen = [ofString "0"]
  framed : codedIn lines = false ∨ lengthsIn lines = [] → s.Framed

theorem stored_fresh : Stored [] fresh where
  chunked := rfl
  length := .inl rfl
  unstated _ _ := by decide +kernel
  framed _ := framed_fresh

theorem Stored.of_same (h : Stored lines s) (hSame : SameFraming s s') : Stored lines s' where
  chunked := hSame.chunked.trans h.chunked
  length := hSame.contentLen.symm ▸ h.length
  unstated hNone hEmpty := hSame.lengths.trans (h.unstated hNone hEmpty)
  framed hOne := (h.framed hOne).of_same hSame

theorem isChunkedCoding_iff : isChunkedCoding value = true ↔ lower value = codingWord := by
  rw [isChunkedCoding, icompare, beq_iff_eq]
  exact Iff.rfl

/-- A line that names no length. -/
theorem header_of_ne (hLength : lower key ≠ hfContentLen) (hHeader : s.header key value = .ok s') :
    s'.chunked = (s.chunked || decide (Coded (key, value))) ∧ s'.contentLen = s.contentLen ∧
      (¬ Coded (key, value) → s'.getHeaders hfContentLen = s.getHeaders hfContentLen) := by
  rw [header_ok hLength] at hHeader
  cases hHeader
  by_cases hCoding : lower key = hfTransferEncoding
  · rw [hCoding, storeHeader_transferEncoding]
    by_cases hChunked : isChunkedCoding value = true
    · have hCoded : Coded (key, value) := ⟨hCoding, isChunkedCoding_iff.mp hChunked⟩
      rw [if_pos hChunked, decide_eq_true hCoded, Bool.or_true]
      exact ⟨rfl, rfl, fun hNot => absurd hCoded hNot⟩
    · have hNot : ¬ Coded (key, value) := fun hCoded => hChunked (isChunkedCoding_iff.mpr hCoded.2)
      rw [if_neg hChunked, decide_eq_false hNot, Bool.or_false]
      exact ⟨rfl, rfl, fun _ => getHeaders_insertHeader_of_ne s value hfTransferEncoding_ne⟩
  · have hNot : ¬ Coded (key, value) := fun hCoded => hCoding hCoded.1
    have hSame : SameFraming s (s.storeHeader (lower key) value) := storeHeader_same hLength hCoding
    rw [hSame.chunked, decide_eq_false hNot, Bool.or_false]
    exact ⟨rfl, hSame.contentLen, fun _ => hSame.lengths⟩

/-- A further line. -/
theorem Stored.header (h : Stored lines s) (hHeader : s.header key value = .ok s') :
    Stored (lines ++ [(key, value)]) s' := by
  have hSome : (s.header key value).toOption = some s' := by rw [hHeader]; rfl
  have hFramed : codedIn (lines ++ [(key, value)]) = false ∨ lengthsIn (lines ++ [(key, value)]) = [] →
      s'.Framed := by
    intro hOne
    rw [codedIn_snoc, lengthsIn_snoc] at hOne
    have hBefore : codedIn lines = false ∨ lengthsIn lines = [] :=
      hOne.imp (fun hNone => (Bool.or_eq_false_iff.mp hNone).1) fun hNone => (List.append_eq_nil_iff.mp hNone).1
    refine (framed_header_iff (h.framed hBefore) hSome).mpr fun hCoded hLength => ?_
    rw [h.chunked] at hCoded
    rcases hOne with hNone | hNone
    · rw [hCoded] at hNone
      cases hNone
    · rw [if_pos hLength] at hNone
      cases (List.append_eq_nil_iff.mp hNone).2
  by_cases hLength : lower key = hfContentLen
  · have hNot : ¬ Coded (key, value) := fun hCoded => absurd (hLength.symm.trans hCoded.1) (by decide)
    have hLengths : lengthsIn (lines ++ [(key, value)]) = lengthsIn lines ++ [value] := by
      rw [lengthsIn_snoc, if_pos hLength]
    obtain ⟨n, hReads, rfl⟩ := (header_contentLen hLength).mp hSome
    refine ⟨?_, .inr ⟨lengthsIn lines, value, hLengths, hReads⟩, fun _ hEmpty => ?_, hFramed⟩
    · rw [codedIn_snoc, decide_eq_false hNot, Bool.or_false]
      exact h.chunked
    · rw [hLengths] at hEmpty
      cases (List.append_eq_nil_iff.mp hEmpty).2
  · obtain ⟨hChunked, hContentLen, hKept⟩ := header_of_ne hLength hHeader
    have hLengths : lengthsIn (lines ++ [(key, value)]) = lengthsIn lines := by
      rw [lengthsIn_snoc, if_neg hLength, List.append_nil]
    refine ⟨?_, ?_, fun hNone hEmpty => ?_, hFramed⟩
    · rw [hChunked, codedIn_snoc, h.chunked]
    · rw [hLengths, hContentLen]
      exact h.length
    · rw [codedIn_snoc, Bool.or_eq_false_iff, decide_eq_false_iff_not] at hNone
      exact (hKept hNone.2).trans (h.unstated hNone.1 (hLengths ▸ hEmpty))

end StructuredData

/-! ### What is told -/

/-- The lines that the events tell of the message at hand. -/
def linesTold (evs : List Event) : List (ByteString × ByteString) :=
  evs.foldl (fun lines ev =>
    match ev with
    | .begin => []
    | .header key value => lines ++ [(key, value)]
    | _ => lines) []

theorem linesTold_snoc (evs : List Event) (ev : Event) :
    linesTold (evs ++ [ev]) =
      match ev with
      | .begin => []
      | .header key value => linesTold evs ++ [(key, value)]
      | _ => linesTold evs := by
  rw [linesTold, List.foldl_append]
  cases ev with
  | begin | header | headersDone | body | trailer | completion | error => rfl

/-- What the message `m` declares is what the parser `p` reads: a coding exactly if it reads chunks, and the
length that it counts. The headers of the message say so too. Where the body lasts as long as the connection,
a message that was told no length declares none of its own: it keeps the length of a new one, which is 0. -/
structure FramingAgrees (lines : List (ByteString × ByteString)) (p : Fields) (m : Message) : Prop where
  coding : m.data.chunked = p.flags.chunked
  length : lengthsIn lines ≠ [] → m.data.contentLen = p.contentLength
  framed : m.data.Framed
  lasting : p.Lasts → m.data.chunked = false ∧ m.data.getHeaders hfContentLen = [ofString "0"]

theorem completeHeaders_same (p : Fields) (m : Message) :
    StructuredData.SameFraming m.data (Impl.completeHeaders p m).data := by
  unfold Impl.completeHeaders
  rw [Message.data_setData]
  cases m with
  | response r => exact StructuredData.setKeepalive_same _
  | request r =>
      have hSame : (Message.request (Impl.hostFromHeader { r with method := p.method })).data =
          r.toStructuredData := by
        show (Impl.hostFromHeader { r with method := p.method }).toStructuredData = _
        unfold Impl.hostFromHeader
        split
        · rfl
        · dsimp only
          split
          · rfl
          · rfl
      show StructuredData.SameFraming r.toStructuredData (StructuredData.setKeepalive (Message.data _) _)
      rw [hSame]
      exact StructuredData.setKeepalive_same _

/-- Lines that parser and codec read alike. -/
theorem framingAgrees_of_stored (hStored : StructuredData.Stored lines m.data) (hFraming : FramingOf p lines)
    (hOne : (p.flags.chunked && p.flags.contentlength) = false) (hAlike : AllAlike lines) :
    FramingAgrees lines p m := by
  have hCoding : m.data.chunked = p.flags.chunked := hStored.chunked.trans (hFraming.coding hAlike).symm
  have hKnown : lengthsIn lines ≠ [] → m.data.contentLen = p.contentLength ∧ p.contentLength ≠ ullongMax := by
    intro hSome
    obtain ⟨value, hLast, hReads⟩ := (hFraming.length.length hAlike).resolve_left fun hNone => hSome hNone.1
    obtain ⟨front, value', hLast', hReads'⟩ := hStored.length.resolve_left hSome
    have hSame : value' = value := by
      have hEnd := congrArg List.getLast? (hLast.symm.trans hLast')
      rw [List.getLast?_concat] at hEnd
      exact (Option.some.inj hEnd).symm
    rw [hSame] at hReads'
    exact hReads _ hReads'
  refine ⟨hCoding, fun hSome => (hKnown hSome).1, hStored.framed ?_, fun hLasts => ⟨?_, ?_⟩⟩
  · rw [← hFraming.coding hAlike]
    cases hChunked : p.flags.chunked with
    | false => exact .inl rfl
    | true =>
        right
        by_contra hSome
        rw [hChunked, hFraming.length.flagged hSome] at hOne
        cases hOne
  · rw [hCoding, hLasts.unchunked]
  · refine hStored.unstated ?_ ?_
    · rw [← hFraming.coding hAlike]
      exact hLasts.unchunked
    · by_contra hSome
      exact (hKnown hSome).2 hLasts.unknown

/-- Every message so far has been told with the framing under which its body is read, unless one of its
lines is read in two ways. -/
def Agreed (trace : List Event) : Prop :=
  ∀ front p m, front ++ [.headersDone p m] <+: trace → AllAlike (linesTold front) →
    FramingAgrees (linesTold front) p m

theorem prefix_of_untold {front : List Event} (hUntold : ∀ ev ∈ evs, ∀ p m, ev ≠ .headersDone p m)
    (h : front ++ [.headersDone p m] <+: trace ++ evs) : front ++ [.headersDone p m] <+: trace := by
  induction evs using List.reverseRecOn with
  | nil => rwa [List.append_nil] at h
  | append_singleton evs last ih =>
      rw [← List.append_assoc] at h
      rcases List.prefix_concat_iff.mp h with hWhole | hBefore
      · have hSame := (List.append_inj' hWhole rfl).2
        rw [List.cons.injEq] at hSame
        exact absurd hSame.1.symm (hUntold last (List.mem_append_right _ (List.mem_singleton.mpr rfl)) p m)
      · exact ih (fun ev hMem => hUntold ev (List.mem_append_left _ hMem)) hBefore

theorem Agreed.append (h : Agreed trace) (hUntold : ∀ ev ∈ evs, ∀ p m, ev ≠ .headersDone p m) :
    Agreed (trace ++ evs) :=
  fun front p m hPrefix => h front p m (prefix_of_untold hUntold hPrefix)

theorem Agreed.snoc {ev : Event} (h : Agreed trace) (hUntold : ∀ p m, ev ≠ .headersDone p m) :
    Agreed (trace ++ [ev]) :=
  h.append fun _ hMem => List.mem_singleton.mp hMem ▸ hUntold

theorem Agreed.minor (h : Agreed d.trace) (hMinor : Minor d e) : Agreed e.trace := by
  obtain ⟨evs, hTrace, hAll⟩ := hMinor.trace
  rw [hTrace]
  refine h.append fun ev hMem p m hDone => ?_
  have hThis := hAll ev hMem
  rw [hDone] at hThis
  cases hThis

theorem Agreed.announce (h : Agreed trace)
    (hAgrees : AllAlike (linesTold trace) → FramingAgrees (linesTold trace) p m) :
    Agreed (trace ++ [.headersDone p m]) := by
  intro front q n hPrefix
  rcases List.prefix_concat_iff.mp hPrefix with hWhole | hBefore
  · obtain ⟨hFront, hLast⟩ := List.append_inj' hWhole rfl
    cases hLast
    rw [hFront]
    exact hAgrees
  · exact h front q n hBefore

/-! ### The codec -/

/-- What the codec holds of the message at hand. -/
structure Declaring (ready : Message → Prop) (a : Assembly) (d : Impl υ) : Prop where
  unbegun : a.begun = false → a.headers = [] ∧ a.framing = none
  ready : a.begun = false ∨ a.framing.isSome = true → ready d.object
  lines : a.begun = true → a.framing = none →
    linesTold d.trace = a.headers ∧ StructuredData.Stored a.headers d.object.data
  agreed : Agreed d.trace

/-- Nothing happens that the framing depends on. -/
theorem Declaring.minor {b : Assembly} (h : Declaring ready a d) (hMinor : Minor d e) (hBegun : b.begun = a.begun)
    (hFraming : b.framing = a.framing) (hHeaders : b.headers = a.headers)
    (hObject : a.begun = false ∨ a.framing.isSome = true → e.object = d.object)
    (hLines : a.begun = true → a.framing = none →
      linesTold e.trace = linesTold d.trace ∧ e.object.data = d.object.data) : Declaring ready b e where
  unbegun hNot := by
    rw [hHeaders, hFraming]
    exact h.unbegun (hBegun ▸ hNot)
  ready hOutside := by
    rw [hBegun, hFraming] at hOutside
    rw [hObject hOutside]
    exact h.ready hOutside
  lines hSet hNone := by
    rw [hBegun] at hSet
    rw [hFraming] at hNone
    obtain ⟨hTold, hData⟩ := hLines hSet hNone
    rw [hTold, hData, hHeaders]
    exact h.lines hSet hNone
  agreed := h.agreed.minor hMinor

theorem linesTold_idle {ev : Event} (hBegin : ev ≠ .begin) (hHeader : ∀ key value, ev ≠ .header key value) :
    linesTold (evs ++ [ev]) = linesTold evs := by
  rw [linesTold_snoc]
  cases ev with
  | begin => exact absurd rfl hBegin
  | header key value => exact absurd rfl (hHeader key value)
  | headersDone | body | trailer | completion | error => rfl

/-- The headers of a message are complete: what it declares is told. -/
theorem Declaring.announce (hFurnishes : Furnishes cb blank ready lost spoils) {b : Assembly} (hBegun : b.begun = true)
    (hHeaders : b.framing = some p) (hTold : Attested b) (hLines : linesTold d.trace = b.headers)
    (hStored : StructuredData.Stored b.headers d.object.data) (hAgreed : Agreed d.trace) :
    Spoilt lost spoils (d.announceHeaders cb p) ∨ Declaring ready b (d.announceHeaders cb p) := by
  refine (hFurnishes.clears (Impl.completeHeaders p d.object) d.user).imp .inl fun hReady => ?_
  obtain ⟨hFraming, hOne⟩ := hTold p hHeaders
  refine ⟨fun hNot => ?_, fun _ => hReady, fun _ hNone => ?_, ?_⟩
  · rw [hBegun] at hNot
    cases hNot
  · rw [hHeaders] at hNone
    cases hNone
  · apply hAgreed.announce
    rw [hLines]
    exact framingAgrees_of_stored (hStored.of_same (completeHeaders_same p d.object)) hFraming hOne

theorem setVersion_same (p : Fields) (d : Impl υ) :
    StructuredData.SameFraming d.object.data (d.setVersion p).object.data := by
  show StructuredData.SameFraming _ (d.object.setData (d.object.data.setProtocol (d.chooseVersion p).version)).data
  rw [Message.data_setData]
  exact StructuredData.setProtocol_same _

theorem setVersion_line (p : Fields) (d : Impl υ) :
    (d.setVersion p).key = d.key ∧ (d.setVersion p).value = d.value := by
  unfold Impl.setVersion Impl.chooseVersion
  split
  · exact ⟨rfl, rfl⟩
  · exact ⟨rfl, rfl⟩

theorem unframed_of_completed (hPlaced : (assembler.next a (.headersComplete p)).misplaced = false) :
    a.framing = none := by
  have hOpen : (a.misplaced || !a.begun || a.framing.isSome) = false := hPlaced
  rw [Bool.or_eq_false_iff, Option.isSome_eq_false_iff, Option.isNone_iff_eq_none] at hOpen
  exact hOpen.2

/-- The codec goes on declaring by the callbacks that come in their places. -/
theorem Declaring.accepts (hFurnishes : Furnishes cb blank ready lost spoils) (hFresh : blank.data = .fresh)
    {c : Callback} (hTracks : Tracks a d) (h : Declaring ready a d) (hAccepts : Impl.Accepts cb d c e) (hPlaced : (assembler.next a c).misplaced = false)
    (hTold : Attested (assembler.next a c)) : Spoilt lost spoils e ∨ Declaring ready (assembler.next a c) e := by
  obtain ⟨-, hBegun, hFraming, -⟩ := flush_frame a
  cases hAccepts with
  | messageBegin hBegin =>
      right
      have hIdle : (a.misplaced || a.begun) = false := hPlaced
      have hNot : a.begun = false := (Bool.or_eq_false_iff.mp hIdle).2
      rw [hFurnishes.installs _ d.user (h.ready (.inl hNot))] at hBegin
      cases hBegin
      obtain ⟨hHeaders, hNone⟩ := h.unbegun hNot
      refine ⟨fun hBegun => (by cases hBegun), ?_, fun _ _ => ⟨?_, ?_⟩, h.agreed.minor (.one rfl rfl rfl)⟩
      · rintro (hFalse | hSome)
        · cases hFalse
        · have hFramed : a.framing.isSome = true := hSome
          rw [hNone] at hFramed
          cases hFramed
      · show linesTold (d.trace ++ [.begin]) = a.headers
        rw [linesTold_snoc, hHeaders]
      · show StructuredData.Stored a.headers blank.data
        rw [hHeaders, hFresh]
        exact StructuredData.stored_fresh
  | messageBeginAgain hBegin hInstalled =>
      rw [hTracks.installed] at hInstalled
      have hIdle : (a.misplaced || a.begun) = false := hPlaced
      rw [hInstalled, Bool.or_true] at hIdle
      cases hIdle
  | chunk hChunk =>
      right
      rename_i c
      cases c with
      | messageBegin => exact absurd rfl hChunk
      | chunkHeader | chunkComplete => exact h.minor (.same rfl rfl) rfl rfl rfl (fun _ => rfl) fun _ _ => ⟨rfl, rfl⟩
  | url hInstalled hObject hData =>
      right
      rw [hTracks.installed] at hInstalled
      rw [Gatherer.next, Assembly.data_url] at hPlaced ⊢
      refine h.minor (.same rfl rfl) rfl rfl rfl ?_ fun _ _ => ⟨rfl, ?_⟩
      · rintro (hNot | hFramed)
        · rw [hInstalled] at hNot
          cases hNot
        · simp [show a.framing.isSome = true from hFramed] at hPlaced
      · rw [hObject]
        exact hData
  | status hInstalled hObject =>
      right
      rw [hTracks.installed] at hInstalled
      rw [Gatherer.next, Assembly.data_status] at hPlaced ⊢
      refine h.minor (.same rfl rfl) rfl rfl rfl ?_ fun _ _ => ⟨rfl, ?_⟩
      · rintro (hNot | hFramed)
        · rw [hInstalled] at hNot
          cases hNot
        · simp [show a.framing.isSome = true from hFramed] at hPlaced
      · rw [hObject]
        rfl
  | field hHeaders hGot =>
      right
      rw [Gatherer.next, Assembly.data_headerField, Impl.flush_idle (hTracks.gotHeader ▸ hGot)]
      exact h.minor (.same rfl rfl) rfl rfl rfl (fun _ => rfl) fun _ _ => ⟨rfl, rfl⟩
  | nextField hHeaders hGot hInstalled hHeader =>
      right
      rw [hTracks.headersCompleted, Option.isSome_eq_false_iff, Option.isNone_iff_eq_none] at hHeaders
      rw [hTracks.installed] at hInstalled
      rw [hTracks.gotHeader] at hGot
      obtain ⟨hLines, hStored⟩ := h.lines hInstalled hHeaders
      have hFlush := flush_headers hHeaders hGot
      rw [Gatherer.next, Assembly.data_headerField]
      refine ⟨fun hNot => ?_, ?_, fun _ _ => ⟨?_, ?_⟩, h.agreed.minor (.one rfl rfl rfl)⟩
      · rw [hBegun, hInstalled] at hNot
        cases hNot
      · rintro (hNot | hFramed)
        · rw [hBegun, hInstalled] at hNot
          cases hNot
        · rw [hFraming, hHeaders] at hFramed
          cases hFramed
      · show linesTold (d.trace ++ [.header d.key d.value]) = a.flush.headers
        rw [linesTold_snoc, hFlush, hLines, hTracks.key, hTracks.value]
      · show StructuredData.Stored a.flush.headers (d.object.setData _).data
        rw [hFlush, Message.data_setData, ← hTracks.key, ← hTracks.value]
        exact hStored.header hHeader
  | trailerField hHeaders =>
      right
      rw [hTracks.headersCompleted] at hHeaders
      obtain ⟨hObject, -⟩ := flushTrailer_object cb d
      rw [Gatherer.next, Assembly.data_headerField]
      have hNotOpen : a.framing ≠ none := fun hNone => by
        rw [hNone] at hHeaders
        cases hHeaders
      refine h.minor ((Minor.flushTrailer cb d).trans (.same rfl rfl)) hBegun hFraming ?_ (fun _ => hObject)
        fun _ hNone => absurd hNone hNotOpen
      show a.flush.headers = a.headers
      unfold Assembly.flush
      rw [if_pos hHeaders]
      split
      · rfl
      · rfl
  | value =>
      right
      rw [Gatherer.next, Assembly.data_headerValue]
      exact h.minor (.same rfl rfl) rfl rfl rfl (fun _ => rfl) fun _ _ => ⟨rfl, rfl⟩
  | ignored =>
      right
      rw [Gatherer.next, Assembly.data_body]
      exact h.minor (.same rfl rfl) rfl rfl rfl (fun _ => rfl) fun _ _ => ⟨rfl, rfl⟩
  | body =>
      right
      rw [Gatherer.next, Assembly.data_body]
      refine h.minor (.one rfl rfl rfl) rfl rfl rfl (fun _ => rfl) fun _ _ => ⟨?_, rfl⟩
      exact linesTold_idle (fun h => by cases h) fun _ _ h => by cases h
  | headersComplete hMajor hInstalled hGot =>
      rename_i p
      rw [hTracks.installed] at hInstalled
      rw [hTracks.gotHeader] at hGot
      obtain ⟨hLines, hStored⟩ := h.lines hInstalled (unframed_of_completed hPlaced)
      have hSame : a.flush = a := Impl.flush_idle hGot
      have hHeaders : (assembler.next a (.headersComplete p)).headers = a.headers := by
        show a.flush.headers = a.headers
        rw [hSame]
      refine Declaring.announce hFurnishes (hBegun.trans hInstalled) rfl hTold ?_ ?_ ?_
      · rw [setVersion_trace, hHeaders, hLines]
      · rw [hHeaders]
        exact hStored.of_same (setVersion_same p d)
      · rw [setVersion_trace]
        exact h.agreed
  | lastHeader hMajor hInstalled hGot hHeader =>
      rename_i p data
      rw [hTracks.installed] at hInstalled
      rw [hTracks.gotHeader] at hGot
      have hOpen := unframed_of_completed hPlaced
      obtain ⟨hLines, hStored⟩ := h.lines hInstalled hOpen
      have hHeaders : (assembler.next a (.headersComplete p)).headers = a.headers ++ [(d.key, d.value)] := by
        rw [hTracks.key, hTracks.value]
        exact flush_headers hOpen hGot
      obtain ⟨hKey, hValue⟩ := setVersion_line p d
      have hTrace : ((d.setVersion p).takeHeader data).trace = d.trace ++ [.header d.key d.value] := by
        show (d.setVersion p).trace ++ [.header (d.setVersion p).key (d.setVersion p).value] = _
        rw [setVersion_trace, hKey, hValue]
      refine Declaring.announce hFurnishes (hBegun.trans hInstalled) rfl hTold ?_ ?_ ?_
      · rw [hTrace, linesTold_snoc, hHeaders, hLines]
      · rw [hHeaders]
        show StructuredData.Stored _ ((d.setVersion p).object.setData data).data
        rw [Message.data_setData]
        exact (hStored.of_same (setVersion_same p d)).header hHeader
      · rw [hTrace]
        exact h.agreed.snoc fun _ _ hDone => by cases hDone
  | messageComplete =>
      right
      have hFramed : a.framing.isSome = true := by
        have hEnds : (a.misplaced || a.framing.isNone) = false := hPlaced
        rw [Bool.or_eq_false_iff, Option.isNone_eq_false_iff] at hEnds
        exact hEnds.2
      refine ⟨fun _ => ⟨rfl, rfl⟩, fun _ => ?_, fun hBegun => (by cases hBegun), ?_⟩
      · show ready (d.flushTrailer cb).object
        rw [(flushTrailer_object cb d).1]
        exact h.ready (.inr hFramed)
      · exact h.agreed.minor ((Minor.flushTrailer cb d).trans (.one rfl rfl rfl))

end Doormat.Http
