import Doormat.Http.Framing
import Doormat.Http.Pieces

/-! What a codec has told after any run: message after message, each of them in the order of its
parts and with as many bytes in its body as its headers have announced, or broken off by an error. -/
namespace Doormat.Parser

open Bytes

/-! ### Where a body begins -/

/-- The headers announce a body that ends after `contentLength` bytes. -/
structure Fields.Counts (p : Fields) : Prop where
  continues : p.endsWithHeaders = false
  unchunked : p.flags.chunked = false
  known : p.contentLength ≠ ullongMax

/-- The headers announce a body that ends with the connection. -/
structure Fields.Lasts (p : Fields) : Prop where
  continues : p.endsWithHeaders = false
  unchunked : p.flags.chunked = false
  unknown : p.contentLength = ullongMax

/-- The headers announce a body in chunks. -/
structure Fields.Chunks (p : Fields) : Prop where
  continues : p.endsWithHeaders = false
  chunked : p.flags.chunked = true

variable {p : Fields}

theorem Fields.Chunks.not_counts (h : p.Chunks) : ¬ p.Counts := by
  intro hCounts
  have hChunked := h.chunked
  rw [hCounts.unchunked] at hChunked
  cases hChunked

theorem Fields.Chunks.not_lasts (h : p.Chunks) : ¬ p.Lasts := by
  intro hLasts
  have hChunked := h.chunked
  rw [hLasts.unchunked] at hChunked
  cases hChunked

theorem Fields.Chunks.not_ends (h : p.Chunks) : ¬ p.endsWithHeaders = true := by
  rw [h.continues]
  exact Bool.false_ne_true

/-- The state `q` reads the body that the headers announce. -/
def Reads (p q : Fields) : Prop :=
  match q.state with
  | .bodyIdentity => p.Counts ∧ q.contentLength = p.contentLength
  | .bodyIdentityEof => p.Lasts
  | _ => p.Chunks

/-- What `s_headers_done` opens: the next message, or the body that the headers announce. -/
def Opens (p : Fields) (prog : Prog) : Prop :=
  if p.endsWithHeaders then prog.Ends else ∃ q, prog = .clearNread (.next q .outer) ∧ Reads p q

theorem headersDone_opens (p : Fields) : Opens p (headersDone p LF) := by
  have hFrames := headersDone_frames p
  unfold Frames at hFrames
  unfold Opens
  split
  case isTrue hEnds =>
    rw [if_pos hEnds] at hFrames
    exact hFrames
  case isFalse hEnds =>
    rw [if_neg hEnds] at hFrames
    obtain ⟨q, hNext⟩ := hFrames
    refine ⟨q, hNext, ?_⟩
    have hContinues : p.endsWithHeaders = false := by simpa using hEnds
    simp only [headersDone, Fields.strictCheck] at hNext
    rw [if_neg (fun hNe => hNe rfl)] at hNext
    have hRest := Prog.clearNread.inj hNext
    split at hRest
    · cases hRest
    split at hRest
    · cases hRest
    split at hRest
    case isTrue hChunked =>
      cases hRest
      exact ⟨hContinues, hChunked⟩
    case isFalse hChunked =>
      have hUnchunked : p.flags.chunked = false := by simpa using hChunked
      split at hRest
      · cases hRest
      split at hRest
      case isTrue hKnown =>
        cases hRest
        exact ⟨⟨hContinues, hUnchunked, hKnown⟩, rfl⟩
      case isFalse hKnown =>
        split at hRest
        · cases hRest
        · cases hRest
          exact ⟨hContinues, hUnchunked, not_not.mp hKnown⟩

/-- The states of a body that is not in chunks. -/
def State.unchunked (s : State) : Bool := s = .bodyIdentity || s = .bodyIdentityEof

theorem State.unchunked_cases {s : State} (h : ¬ s.unchunked = false) : s = .bodyIdentity ∨ s = .bodyIdentityEof := by
  cases s
  all_goals first
    | exact .inl rfl
    | exact .inr rfl
    | exact absurd rfl h

/-- A program that begins no such body but where the headers are complete, and completes a message only
after its headers. `framed` tells whether the headers are complete. -/
def Prog.Carries (framed : Bool) : Prog → Prop
  | .next p _ => p.state.unchunked = false
  | .leave _ => False
  | .fail _ _ => True
  | .abort => True
  | .mark m k => (m = .body → framed = true) ∧ k.Carries framed
  | .data _ _ _ _ k => k.Carries framed
  | .count _ _ k => k.Carries framed
  | .clearNread k => k.Carries framed
  | .assertNread _ k => k.Carries framed
  | .notify _ _ _ k => k.Carries framed
  | .headersComplete p k => framed = false ∧ Opens p (k 0)
  | .messageComplete _ k =>
      framed = true ∧
        (k fresh.toFields = .next fresh.toFields .outer ∨ k fresh.toFields = .leave fresh.toFields)

variable {ch : UInt8} {framed : Bool}

theorem messageDone_carries (p : Fields) : (messageDone p).Carries true := ⟨rfl, .inl rfl⟩

theorem headersAlmostDone_carries (p : Fields) (ch : UInt8) :
    (headersAlmostDone p ch).Carries p.flags.trailing := by
  unfold headersAlmostDone Fields.strictCheck
  split
  · trivial
  case isFalse hLF =>
    obtain rfl : ch = LF := by simpa using hLF
    split
    case isTrue hTrailing =>
      rw [hTrailing]
      exact messageDone_carries (p.updateState .messageDone)
    case isFalse hTrailing =>
      split
      · trivial
      · exact ⟨by simpa using hTrailing, headersDone_opens _⟩

theorem headerFieldStart_carries (p : Fields) (ch : UInt8) :
    (headerFieldStart p ch).Carries p.flags.trailing := by
  unfold headerFieldStart
  split
  · rfl
  split
  · exact headersAlmostDone_carries (p.updateState .headersAlmostDone) ch
  dsimp only
  split
  · trivial
  · exact ⟨fun h => (by cases h), rfl⟩

theorem headerField_carries (hState : p.state = .headerField) (read : Nat) :
    (headerField p ch read).Carries framed := by
  unfold headerField
  dsimp only
  split
  · show Prog.Carries framed (if ch = ':'.toUInt8 then _ else _)
    split
    · rfl
    · trivial
  split
  case h_1 hGo =>
    show State.unchunked _ = false
    rw [fieldSwitch_state hGo, hState]
    rfl
  · trivial
  · trivial

theorem headerValueStart_carries (p : Fields) (ch : UInt8) : (headerValueStart p ch).Carries framed := by
  unfold headerValueStart
  refine ⟨fun h => (by cases h), ?_⟩
  split
  case h_1 hGo =>
    show State.unchunked _ = false
    rw [valueStartSwitch_state hGo]
    rfl
  · trivial
  · trivial

theorem headerAlmostDone_carries (p : Fields) (ch : UInt8) : (headerAlmostDone p ch).Carries framed := by
  unfold headerAlmostDone
  split
  · trivial
  · rfl

theorem headerValue_carries (hState : p.state = .headerValue) (read : Nat) (h : HeaderState) :
    (headerValue p ch read h).Carries framed := by
  unfold headerValue
  split
  · rfl
  split
  · exact headerAlmostDone_carries _ ch
  split
  · trivial
  split
  case h_1 hGo =>
    show State.unchunked _ = false
    rw [valueSwitch_state hState hGo]
    rfl
  · trivial
  · trivial

theorem urlByte_carries (p : Fields) (ch : UInt8) : (urlByte p ch).Carries framed := by
  unfold urlByte
  dsimp only
  split
  · trivial
  case isFalse hAlive =>
    have hUrl := (parseUrlChar_admits p.state ch).resolve_left hAlive
    show State.unchunked (parseUrlChar p.state ch) = false
    cases hs : parseUrlChar p.state ch
    all_goals first
      | rfl
      | rw [hs] at hUrl
        cases hUrl

end Doormat.Parser

namespace Doormat.Http

open Bytes Doormat.Parser

variable {υ : Type} {cb : Callbacks υ} {p q : Fields} {v a : Assembly} {ch : UInt8} {framed : Bool}

/-- The states that carry what has been said, before the headers are complete and after. -/
theorem dispatch_carries (hHeader : part p.state = some .header → framed = p.flags.trailing)
    (hBody : part p.state = some .body → framed = true) (hNone : part p.state ≠ none)
    (hState : p.state.unchunked = false) (ch : UInt8) : (dispatch p ch).Carries framed := by
  have hFinish : (finishHeader p).flags.trailing = p.flags.trailing := by
    unfold finishHeader
    split
    all_goals rfl
  cases hs : p.state
  all_goals rw [hs] at hHeader hBody hNone hState
  case dead | startReq | startRes | resH | headersDone | messageDone => exact absurd rfl hNone
  all_goals
    simp only [part, reduceCtorEq, forall_const, Option.some.injEq, false_implies] at hHeader hBody
    simp only [dispatch, hs]
  case bodyIdentity | bodyIdentityEof => cases hState
  case headersAlmostDone =>
    rw [hHeader]
    exact headersAlmostDone_carries p ch
  case headerFieldStart =>
    rw [hHeader]
    exact headerFieldStart_carries p ch
  case headerField => exact headerField_carries hs 0
  case headerValue => exact headerValue_carries hs 0 _
  case headerValueStart => exact headerValueStart_carries p ch
  case headerAlmostDone => exact headerAlmostDone_carries p ch
  case headerValueDiscardWs =>
    unfold headerValueDiscardWs
    split
    · show State.unchunked _ = false
      rw [hs]
      rfl
    split
    · rfl
    split
    · rfl
    · exact headerValueStart_carries p ch
  case headerValueDiscardLws =>
    unfold headerValueDiscardLws
    split
    · rfl
    · rw [hHeader, ← hFinish]
      exact ⟨fun h => (by cases h), headerFieldStart_carries ((finishHeader p).updateState .headerFieldStart) ch⟩
  case headerValueLws =>
    unfold headerValueLws
    split
    · exact headerValueStart_carries _ ch
    · rw [hHeader, ← hFinish]
      exact headerFieldStart_carries ((finishHeader p).updateState .headerFieldStart) ch
  case reqSpacesBeforeUrl =>
    unfold reqSpacesBeforeUrl
    split
    · show State.unchunked _ = false
      rw [hs]
      rfl
    · exact ⟨fun h => (by cases h), urlByte_carries _ ch⟩
  case reqSchema | reqSchemaSlash | reqSchemaSlashSlash | reqServerStart =>
    unfold urlStart
    split
    · trivial
    · exact urlByte_carries p ch
  case reqServer | reqServerWithAt | reqPath | reqQueryStringStart | reqQueryString | reqFragmentStart | reqFragment =>
    unfold urlRest
    split
    · rfl
    split
    · show State.unchunked (if ch = CR then _ else _) = false
      split
      · rfl
      · rfl
    · exact urlByte_carries p ch
  all_goals
    simp only [startReqOrRes, startReq, resOrRespH, literal, firstHttpMajor, httpMajor, firstHttpMinor, httpMinorDigit,
      resHttpMinor, resFirstStatusCode, resStatusCode, resStatusStart, resStatus, reqMethod, reqHttpStart, reqHttpMinor,
      reqLineAlmostDone, chunkSizeStart, chunkSize, chunkParameters, chunkSizeAlmostDone, chunkData, chunkDataAlmostDone,
      chunkDataDone, assert, Fields.strictCheck, Fields.advance, Fields.fail, Fields.updateState]
    repeat' split
    all_goals simp [Prog.Carries, State.unchunked, hs, hBody]

/-! ### The length of a body -/

/-- The message at hand has no more than what its headers announce. -/
structure Spelled.Fits (s : Spelled) : Prop where
  bare : ∀ p, s.framing = some p → p.endsWithHeaders = true → s.body = [] ∧ s.trailers = []
  counts : ∀ p, s.framing = some p → p.Counts → s.body.length ≤ p.contentLength ∧ s.trailers = []
  lasts : ∀ p, s.framing = some p → p.Lasts → s.trailers = []

/-- A message that is over has all that its headers announce. -/
structure Spelled.Exact (s : Spelled) : Prop where
  bare : ∀ p, s.framing = some p → p.endsWithHeaders = true → s.body = [] ∧ s.trailers = []
  counts : ∀ p, s.framing = some p → p.Counts → s.body.length = p.contentLength ∧ s.trailers = []
  lasts : ∀ p, s.framing = some p → ¬ p.Lasts

/-- The messages that are over are exact. -/
def Closed (v : Assembly) : Prop := ∀ s ∈ v.done, s.Exact

/-- What has been said of the body, and what the parser still awaits of it. -/
def Sized (p : Fields) (v : Assembly) : Prop :=
  ∀ q, v.framing = some q →
    match p.state with
    | .bodyIdentity => q.Counts ∧ v.body.length + p.contentLength = q.contentLength
    | .bodyIdentityEof => q.Lasts
    | _ => q.Chunks

/-- A step after which every message has the body that it has announced. -/
abbrev Sizing (prog : Prog) (ch : UInt8) (cur : Option Mark) (v : Assembly) : Prop :=
  prog.wp assembler (fun v => v.toSpelled.Fits ∧ Closed v) ch (fun p _ _ v => Sized p v ∧ Closed v) cur v

/-- What has been said in a part of the message that `Prog.Carries` is about. -/
def Carried (framed : Bool) (v : Assembly) : Prop :=
  if framed then ∃ q, v.framing = some q ∧ q.Chunks else v.framing = none ∧ v.body = [] ∧ v.trailers = []

theorem exact_of_chunks {s : Spelled} (hFraming : s.framing = some q) (h : q.Chunks) : s.Exact where
  bare p hp hEnds := by
    rw [hFraming] at hp
    cases hp
    exact absurd hEnds h.not_ends
  counts p hp hCounts := by
    rw [hFraming] at hp
    cases hp
    exact absurd hCounts h.not_counts
  lasts p hp hLasts := by
    rw [hFraming] at hp
    cases hp
    exact h.not_lasts hLasts

theorem Spelled.Exact.fits {s : Spelled} (h : s.Exact) : s.Fits where
  bare := h.bare
  counts p hp hCounts := ⟨(h.counts p hp hCounts).1.le, (h.counts p hp hCounts).2⟩
  lasts p hp hLasts := absurd hLasts (h.lasts p hp)

theorem fits_unframed {s : Spelled} (h : s.framing = none) : s.Fits where
  bare p hp := by
    rw [h] at hp
    cases hp
  counts p hp := by
    rw [h] at hp
    cases hp
  lasts p hp := by
    rw [h] at hp
    cases hp

theorem sized_unframed (h : v.framing = none) : Sized p v := by
  intro q hq
  rw [h] at hq
  cases hq

namespace Carried

theorem fits (h : Carried framed v) : v.toSpelled.Fits := by
  cases framed with
  | true =>
      obtain ⟨q, hFraming, hChunks⟩ := h
      exact (exact_of_chunks hFraming hChunks).fits
  | false => exact fits_unframed h.1

theorem sized (h : Carried framed v) (hState : p.state.unchunked = false) : Sized p v := by
  cases framed with
  | false => exact sized_unframed h.1
  | true =>
      obtain ⟨q, hFraming, hChunks⟩ := h
      intro q' hq
      rw [hFraming] at hq
      cases hq
      split
      case h_1 hs =>
        rw [hs] at hState
        cases hState
      case h_2 hs =>
        rw [hs] at hState
        cases hState
      case h_3 => exact hChunks

theorem of_frame (h : Carried framed v) (hFraming : a.framing = v.framing)
    (hRest : framed = false → a.body = v.body ∧ (v.framing = none → a.trailers = v.trailers)) : Carried framed a := by
  cases framed with
  | true =>
      obtain ⟨q, hq, hChunks⟩ := h
      exact ⟨q, hFraming.trans hq, hChunks⟩
  | false =>
      obtain ⟨hNone, hBody, hTrailers⟩ := h
      obtain ⟨hSame, hLines⟩ := hRest rfl
      exact ⟨hFraming.trans hNone, hSame.trans hBody, (hLines hNone).trans hTrailers⟩

end Carried

theorem flush_carries (v : Assembly) : v.flush.framing = v.framing ∧ v.flush.body = v.body ∧
    (v.framing = none → v.flush.trailers = v.trailers) := by
  unfold Assembly.flush
  split
  · exact ⟨rfl, rfl, fun _ => rfl⟩
  split
  case isTrue hSome =>
    refine ⟨rfl, rfl, fun hNone => ?_⟩
    rw [hNone] at hSome
    cases hSome
  · exact ⟨rfl, rfl, fun _ => rfl⟩

theorem start_carried {m : Mark} (h : Carried framed v) : Carried framed (v.start m) := by
  obtain ⟨hFraming, hBody, hTrailers⟩ := flush_carries v
  cases m with
  | url | status | headerValue | body => exact h.of_frame rfl fun _ => ⟨rfl, fun _ => rfl⟩
  | headerField => exact h.of_frame hFraming fun _ => ⟨hBody, hTrailers⟩

theorem extend_carried {m : Mark} (h : Carried framed v) (hMark : m = .body → framed = true) (ch : UInt8) :
    Carried framed (v.extend m ch) := by
  cases m with
  | url | status | headerValue | headerField => exact h.of_frame rfl fun _ => ⟨rfl, fun _ => rfl⟩
  | body =>
      refine h.of_frame rfl fun hNot => ?_
      rw [hMark rfl] at hNot
      cases hNot

theorem notify_carried {c : Notification} (h : Carried framed v) : Carried framed (v.notify p c) := by
  cases c with
  | messageBegin | chunkHeader | chunkComplete => exact h.of_frame rfl fun _ => ⟨rfl, fun _ => rfl⟩

theorem start_done (v : Assembly) (m : Mark) : (v.start m).done = v.done := by
  cases m with
  | url | status | headerValue | body => rfl
  | headerField => exact (flush_frame v).2.2.2.2.2.2

theorem extend_done (v : Assembly) (m : Mark) (ch : UInt8) : (v.extend m ch).done = v.done := by
  cases m with
  | url | status | headerValue | body | headerField => rfl

theorem notify_done (v : Assembly) (p : Fields) (c : Notification) : (v.notify p c).done = v.done := by
  cases c with
  | messageBegin | chunkHeader | chunkComplete => rfl

theorem Closed.of_done (h : Closed v) (hDone : a.done = v.done) : Closed a := by
  intro s hMem
  rw [hDone] at hMem
  exact h s hMem

theorem Closed.complete (h : Closed v) (hExact : v.flush.toSpelled.Exact) : Closed v.messageComplete := by
  intro s hMem
  rcases List.mem_append.mp hMem with hOld | hNew
  · exact h s hOld
  · rw [List.mem_singleton.mp hNew]
    exact hExact

/-- What follows a completed message. -/
theorem restarts_sizing {k : Fields → Prog} (hClosed : Closed v) (hFraming : v.framing = none)
    (h : k fresh.toFields = .next fresh.toFields .outer ∨ k fresh.toFields = .leave fresh.toFields) :
    Sizing (k fresh.toFields) ch none v := by
  cases h with
  | inl hNext =>
      rw [hNext]
      exact ⟨sized_unframed hFraming, hClosed⟩
  | inr hLeave =>
      rw [hLeave]
      exact ⟨rfl, sized_unframed hFraming, hClosed⟩

theorem ends_sizing {prog : Prog} (h : prog.Ends) (hClosed : Closed v) (hExact : v.flush.toSpelled.Exact) :
    Sizing prog ch none v := by
  induction prog with
  | clearNread k ih => exact ih h
  | messageComplete p k ih =>
      have hAll := hClosed.complete hExact
      exact ⟨rfl, ⟨fits_unframed rfl, hAll⟩, restarts_sizing hAll rfl h⟩
  | _ => exact h.elim

theorem carries_sizing {prog : Prog} {bound n : Nat} {cleared : Bool} {cur : Option Mark}
    (h : prog.Carries framed) (hSound : prog.Sound bound cur cleared n) (hCarried : Carried framed v)
    (hClosed : Closed v) (hCur : cur = some .body → framed = true) : Sizing prog ch cur v := by
  induction prog generalizing cur n cleared v with
  | next p loop =>
      cases cur with
      | none => exact ⟨hCarried.sized h, hClosed⟩
      | some m =>
          refine ⟨(extend_carried hCarried (fun hm => hCur (congrArg some hm)) ch).sized h, ?_⟩
          exact hClosed.of_done (extend_done v m ch)
  | leave p => exact h.elim
  | fail p e => trivial
  | abort => trivial
  | mark m k ih =>
      obtain ⟨hBody, hRest⟩ := h
      rcases hSound.1 with rfl | rfl
      · exact ih hRest hSound.2 (start_carried hCarried) (hClosed.of_done (start_done v m))
          fun hm => hBody (Option.some.inj hm)
      · exact ih hRest hSound.2 hCarried hClosed hCur
  | data p m inclusive advance k ih =>
      simp only [Prog.wp, Prog.Sound] at hSound ⊢
      split
      case isTrue hm =>
        rw [if_pos hm] at hSound
        have hHeld : Carried framed (if inclusive = true then assembler.extend m ch v else v) ∧
            Closed (if inclusive = true then assembler.extend m ch v else v) := by
          split
          · exact ⟨extend_carried hCarried (fun hBody => hCur (hBody ▸ hm)) ch, hClosed.of_done (extend_done v m ch)⟩
          · exact ⟨hCarried, hClosed⟩
        exact ⟨⟨hHeld.1.fits, hHeld.2⟩, ih h hSound hHeld.1 hHeld.2 (fun h => by cases h)⟩
      case isFalse hm =>
        rw [if_neg hm] at hSound
        exact ih h hSound hCarried hClosed hCur
  | count p v k ih => exact ih h hSound.2.2 hCarried hClosed hCur
  | clearNread k ih => exact ih h hSound hCarried hClosed hCur
  | assertNread v k ih => exact ih h hSound.2 hCarried hClosed hCur
  | notify p c advance k ih =>
      obtain ⟨rfl, hSound⟩ := hSound
      have hHeld : Carried framed (v.notify p c) := notify_carried hCarried
      have hAll : Closed (v.notify p c) := hClosed.of_done (notify_done v p c)
      exact ⟨rfl, ⟨hHeld.fits, hAll⟩, ih h hSound hHeld hAll (fun h => by cases h)⟩
  | headersComplete p k ih =>
      obtain ⟨rfl, hSound⟩ := hSound
      obtain ⟨rfl, hOpens⟩ := h
      obtain ⟨hNone, hBody, hTrailers⟩ := hCarried
      obtain ⟨-, hSameBody, hSameTrailers⟩ := flush_carries v
      obtain ⟨hPending, -, -, -, -, -, hDone⟩ := flush_frame v
      have hNoBody : (v.headersComplete p).body = [] := hSameBody.trans hBody
      have hNoTrailers : (v.headersComplete p).trailers = [] := (hSameTrailers hNone).trans hTrailers
      have hFits : (v.headersComplete p).toSpelled.Fits :=
        { bare := fun _ _ _ => ⟨hNoBody, hNoTrailers⟩
          counts := fun _ _ _ => ⟨by rw [hNoBody]; exact Nat.zero_le _, hNoTrailers⟩
          lasts := fun _ _ _ => hNoTrailers }
      have hAll : Closed (v.headersComplete p) := hClosed.of_done hDone
      refine ⟨rfl, ⟨hFits, hAll⟩, ?_⟩
      unfold Opens at hOpens
      split at hOpens
      case isTrue hEnds =>
        have hSame : (v.headersComplete p).flush = v.headersComplete p := Impl.flush_idle hPending
        refine ends_sizing hOpens hAll ?_
        show (v.headersComplete p).flush.toSpelled.Exact
        rw [hSame]
        exact
          { bare := fun _ _ _ => ⟨hNoBody, hNoTrailers⟩
            counts := by
              intro q hq hCounts
              cases hq
              rw [hCounts.continues] at hEnds
              cases hEnds
            lasts := by
              intro q hq hLasts
              cases hq
              rw [hLasts.continues] at hEnds
              cases hEnds }
      case isFalse hEnds =>
        obtain ⟨q, hNext, hReads⟩ := hOpens
        rw [hNext]
        refine ⟨?_, hAll⟩
        intro p' hp
        cases hp
        unfold Reads at hReads
        split
        case h_1 hs =>
          rw [hs] at hReads
          refine ⟨hReads.1, ?_⟩
          show (v.headersComplete p).body.length + _ = _
          rw [hNoBody, hReads.2]
          exact Nat.zero_add _
        case h_2 hs =>
          rw [hs] at hReads
          exact hReads
        case h_3 hCounts hLasts =>
          split at hReads
          case h_1 hs => exact absurd hs hCounts
          case h_2 hs => exact absurd hs hLasts
          case h_3 => exact hReads
  | messageComplete p k ih =>
      obtain ⟨rfl, -⟩ := hSound
      obtain ⟨rfl, hRestarts⟩ := h
      obtain ⟨q, hFraming, hChunks⟩ := hCarried
      have hAll := hClosed.complete (exact_of_chunks ((flush_carries v).1.trans hFraming) hChunks)
      exact ⟨rfl, ⟨fits_unframed rfl, hAll⟩, restarts_sizing hAll rfl hRestarts⟩

/-- The body that ends after its last byte. -/
theorem bodyIdentity_sizing {cur : Option Mark} (hPlaced : Placed p v) (hSized : Sized p v) (hClosed : Closed v)
    (hState : p.state = .bodyIdentity) (hCur : cur = none ∨ cur = some .body) : Sizing (bodyIdentity p) ch cur v := by
  obtain ⟨-, hFramed, hPending, hTrailers, -⟩ := hPlaced.inBody (by rw [hState]; rfl)
  obtain ⟨q, hFraming⟩ := Option.isSome_iff_exists.mp hFramed
  have hCounted := hSized q hFraming
  rw [hState] at hCounted
  obtain ⟨hCounts, hLength⟩ := hCounted
  have hKeep : ∀ w : Assembly, w.framing = v.framing → w.body = v.body → w.trailers = v.trailers →
      w.pending = v.pending → w.done = v.done → Sizing (bodyIdentity p) ch (some .body) w := by
    intro w hSameFraming hSameBody hSameTrailers hSamePending hSameDone
    have hRead : (w.extend .body ch).body.length = v.body.length + 1 := by
      show (w.body ++ [ch]).length = _
      rw [hSameBody, List.length_append]
      rfl
    have hAll : Closed (w.extend .body ch) := hClosed.of_done hSameDone
    have hOnly : ∀ p', (w.extend .body ch).framing = some p' → p' = q := by
      intro p' hp
      have hFramed : some q = some p' := hFraming.symm.trans (hSameFraming.symm.trans hp)
      exact (Option.some.inj hFramed).symm
    have hNoTrailers : (w.extend .body ch).trailers = [] := hSameTrailers.trans hTrailers
    unfold bodyIdentity assert
    split
    case isFalse => trivial
    case isTrue hLeft =>
      have hSome : p.contentLength ≠ 0 := by simp_all
      show Sizing (if _ then _ else _) ch (some .body) w
      split
      case isTrue hLast =>
        have hEnd : p.contentLength - 1 = 0 := hLast
        have hExact : (w.extend .body ch).toSpelled.Exact :=
          { bare := by
              intro p' hp hEnds
              rw [hOnly p' hp, hCounts.continues] at hEnds
              cases hEnds
            counts := by
              intro p' hp _
              rw [hOnly p' hp]
              exact ⟨by omega, hNoTrailers⟩
            lasts := by
              intro p' hp hLasts
              rw [hOnly p' hp] at hLasts
              exact hCounts.known hLasts.unknown }
        have hSame : (w.extend .body ch).flush = w.extend .body ch := Impl.flush_idle (hSamePending.trans hPending)
        have hDone : Closed (w.extend .body ch).messageComplete := by
          apply hAll.complete
          rw [hSame]
          exact hExact
        simp only [Prog.wp, if_true]
        exact ⟨⟨hExact.fits, hAll⟩, rfl, ⟨fits_unframed rfl, hDone⟩, sized_unframed rfl, hDone⟩
      case isFalse hMore =>
        refine ⟨?_, hAll⟩
        intro p' hp
        rw [hOnly p' hp]
        show match p.state with
          | .bodyIdentity => q.Counts ∧ (w.extend .body ch).body.length + (p.contentLength - 1) = q.contentLength
          | .bodyIdentityEof => q.Lasts
          | _ => q.Chunks
        rw [hState]
        exact ⟨hCounts, by omega⟩
  rcases hCur with rfl | rfl
  · have hMarked := hKeep (v.start .body) rfl rfl rfl rfl rfl
    unfold bodyIdentity assert at hMarked ⊢
    split
    case isFalse => trivial
    case isTrue hLeft =>
      rw [if_pos hLeft] at hMarked
      exact hMarked
  · exact hKeep v rfl rfl rfl rfl rfl

/-- The body that ends with the connection. -/
theorem bodyIdentityEof_sizing {cur : Option Mark} (hSized : Sized p v) (hClosed : Closed v)
    (hState : p.state = .bodyIdentityEof) (hCur : cur = none ∨ cur = some .body) :
    Sizing (.mark .body p.advance) ch cur v := by
  have hKeep : ∀ w : Assembly, w.framing = v.framing → w.done = v.done → Sized p (w.extend .body ch) ∧
      Closed (w.extend .body ch) := by
    intro w hSameFraming hSameDone
    refine ⟨?_, hClosed.of_done hSameDone⟩
    intro q hq
    have hLasts := hSized q (hSameFraming.symm.trans hq)
    rw [hState] at hLasts ⊢
    exact hLasts
  rcases hCur with rfl | rfl
  · exact hKeep (v.start .body) rfl rfl
  · exact hKeep v rfl rfl

/-- The two kinds of state that `Prog.Carries` tells apart. -/
theorem carried_of_sized (hPlaced : Placed p v) (hSized : Sized p v) (hState : p.state.unchunked = false) :
    ∃ framed, Carried framed v ∧ (part p.state = some .header → framed = p.flags.trailing) ∧
      (part p.state = some .body → framed = true) := by
  have hChunks : ∀ q, v.framing = some q → q.Chunks := by
    intro q hq
    have h := hSized q hq
    split at h
    case h_1 hs =>
      rw [hs] at hState
      cases hState
    case h_2 hs =>
      rw [hs] at hState
      cases hState
    case h_3 => exact h
  have hFramed : v.framing.isSome = true → Carried true v := by
    intro hSome
    obtain ⟨q, hq⟩ := Option.isSome_iff_exists.mp hSome
    exact ⟨q, hq, hChunks q hq⟩
  cases hPart : part p.state with
  | none =>
      have hMatch := hPlaced.2
      rw [hPart] at hMatch
      exact hMatch.elim
  | some s =>
      cases s with
      | idle =>
          have hMatch := hPlaced.2
          rw [hPart] at hMatch
          refine ⟨false, ?_, fun h => (by cases h), fun h => (by cases h)⟩
          rw [show v = { done := v.done } from hMatch]
          exact ⟨rfl, rfl, rfl⟩
      | line =>
          have hUnframed := (hPlaced.inLine hPart).unframed
          exact ⟨false, ⟨hUnframed.framing, hUnframed.body, hUnframed.trailers⟩, fun h => (by cases h),
            fun h => (by cases h)⟩
      | header =>
          have hIn := hPlaced.inHeader hPart
          refine ⟨p.flags.trailing, ?_, fun _ => rfl, fun h => (by cases h)⟩
          cases hTrailing : p.flags.trailing with
          | true => exact hFramed (hIn.framing hTrailing)
          | false =>
              have hUnframed := hIn.unframed hTrailing
              exact ⟨hUnframed.framing, hUnframed.body, hUnframed.trailers⟩
      | body => exact ⟨true, hFramed (hPlaced.inBody hPart).framing, fun h => (by cases h), fun _ => rfl⟩

theorem dispatch_sizing {bound n : Nat} {cur : Option Mark} (hPlaced : Placed p v) (hSized : Sized p v)
    (hClosed : Closed v) (hAdmits : p.state.admits cur) (hSound : (dispatch p ch).Sound bound cur false n) :
    Sizing (dispatch p ch) ch cur v := by
  by_cases hState : p.state.unchunked = false
  · obtain ⟨framed, hCarried, hHeader, hBody⟩ := carried_of_sized hPlaced hSized hState
    have hNone : part p.state ≠ none := by
      intro hNone
      have hMatch := hPlaced.2
      rw [hNone] at hMatch
      exact hMatch
    refine carries_sizing (dispatch_carries hHeader hBody hNone hState ch) hSound hCarried hClosed fun hCur => ?_
    apply hBody
    rw [hCur] at hAdmits
    cases hs : p.state
    all_goals first
      | rfl
      | rw [hs] at hAdmits
        cases hAdmits
  · have hBoth : p.state = .bodyIdentity ∨ p.state = .bodyIdentityEof := State.unchunked_cases hState
    have hCur : cur = none ∨ cur = some .body := by
      rcases hBoth with hs | hs
      · rw [hs] at hAdmits
        exact of_decide_eq_true hAdmits
      · rw [hs] at hAdmits
        exact of_decide_eq_true hAdmits
    rcases hBoth with hs | hs
    · simp only [dispatch, hs]
      exact bodyIdentity_sizing hPlaced hSized hClosed hs hCur
    · simp only [dispatch, hs]
      exact bodyIdentityEof_sizing hSized hClosed hs hCur

theorem step_sizing {l : Locals} (hl : l.Regular) (hPlaced : Placed l.fields v) (hSized : Sized l.fields v)
    (hClosed : Closed v) : Sizing (step l.fields l.loop ch) ch (l.mark.map Prod.fst) v := by
  have hSound := step_sound hl ch
  have hLoop := hl.loop
  have hInner : ∀ {s : State}, l.fields.state = s → part s = some .header → s.unchunked = false →
      (step l.fields l.loop ch).Carries l.fields.flags.trailing →
        Sizing (step l.fields l.loop ch) ch (l.mark.map Prod.fst) v := by
    intro s hs hPart hState hCarries
    obtain ⟨framed, hCarried, hHeader, -⟩ := carried_of_sized hPlaced hSized (hs ▸ hState)
    obtain rfl := hHeader (hs ▸ hPart)
    refine carries_sizing hCarries hSound hCarried hClosed fun hCur => ?_
    have hMark := hl.mark
    rw [hCur, hs] at hMark
    cases s
    all_goals first
      | cases hPart
        done
      | cases hMark
  cases hCase : l.loop with
  | outer =>
      rw [hCase] at hSound
      unfold step at hSound ⊢
      dsimp only at hSound ⊢
      split
      case isTrue hParsing =>
        rw [if_pos hParsing] at hSound
        exact dispatch_sizing hPlaced hSized hClosed hl.mark hSound.2.2
      case isFalse hParsing =>
        rw [if_neg hParsing] at hSound
        exact dispatch_sizing hPlaced hSized hClosed hl.mark hSound
  | field read =>
      rw [hCase] at hLoop hInner
      exact hInner hLoop.1 rfl rfl (headerField_carries hLoop.1 read)
  | value read h skip =>
      rw [hCase] at hLoop hInner
      refine hInner hLoop.1 rfl rfl ?_
      show (headerValueLoop l.fields ch read h skip).Carries _
      unfold headerValueLoop
      split
      · exact headerValue_carries hLoop.1 read h
      split
      · exact headerValue_carries hLoop.1 read h
      · show State.unchunked l.fields.state = false
        rw [hLoop.1]
        rfl

/-- A mark that is set again for the next buffer says nothing of the body. -/
theorem Sized.restart (h : Sized p v) (loop : Loop) :
    Sized (loop.settle p) ((startMark (loop.settle p).state).elim v fun m => v.start m) := by
  have hSettled : Sized (loop.settle p) v := by
    cases loop with
    | outer | field | value => exact h
  cases hMark : startMark (loop.settle p).state with
  | none => exact hSettled
  | some m =>
      intro q hq
      have hState : ∀ s : State, s.unchunked = true → (loop.settle p).state ≠ s := by
        intro s hs hEq
        rw [hEq] at hMark
        cases s
        all_goals first
          | cases hs
            done
          | cases hMark
      have hFraming : (v.start m).framing = v.framing := by
        cases m with
        | url | status | headerValue | body => rfl
        | headerField => exact (flush_carries v).1
      have hOld := hSettled q (hFraming.symm.trans hq)
      split at hOld
      case h_1 hs => exact absurd hs (hState _ rfl)
      case h_2 hs => exact absurd hs (hState _ rfl)
      case h_3 => exact hOld

theorem restart_done (p : Fields) (v : Assembly) : ((startMark p.state).elim v fun m => v.start m).done = v.done := by
  cases startMark p.state with
  | none => rfl
  | some m => exact start_done v m

/-- Between two bytes no message at hand has more than it has announced. -/
theorem Sized.fits (hPlaced : Placed p v) (h : Sized p v) : v.toSpelled.Fits := by
  by_cases hState : p.state.unchunked = false
  · obtain ⟨framed, hCarried, -⟩ := carried_of_sized hPlaced h hState
    exact hCarried.fits
  · have hBoth : p.state = .bodyIdentity ∨ p.state = .bodyIdentityEof := State.unchunked_cases hState
    have hIn : InBody v := by
      rcases hBoth with hs | hs
      · exact hPlaced.inBody (by rw [hs]; rfl)
      · exact hPlaced.inBody (by rw [hs]; rfl)
    obtain ⟨q, hq⟩ := Option.isSome_iff_exists.mp hIn.framing
    have hKind := h q hq
    rcases hBoth with hs | hs
    · rw [hs] at hKind
      obtain ⟨hCounts, hLength⟩ := hKind
      refine ⟨?_, ?_, fun _ _ _ => hIn.trailers⟩
      · intro p' hp hEnds
        rw [hq] at hp
        cases hp
        rw [hCounts.continues] at hEnds
        cases hEnds
      · intro p' hp _
        rw [hq] at hp
        cases hp
        exact ⟨by omega, hIn.trailers⟩
    · rw [hs] at hKind
      refine ⟨?_, ?_, fun _ _ _ => hIn.trailers⟩
      · intro p' hp hEnds
        rw [hq] at hp
        cases hp
        rw [hKind.continues] at hEnds
        cases hEnds
      · intro p' hp hCounts
        rw [hq] at hp
        cases hp
        exact absurd hKind.unknown hCounts.known

/-! ### What is told -/

/-- The events of a message that is not over. -/
inductive Unfinished : List Event → Prop
  | nothing : Unfinished []
  | head (headers : List (ByteString × ByteString)) : Unfinished (.begin :: headers.map headerEvent)
  | tail (s : Spelled) (p : Fields) (m : Message) (bodies : List ByteString) (hFraming : s.framing = some p)
      (hBody : bodies.flatten = s.body) (hFits : s.Fits) : Unfinished (messageEvents s p m bodies)

/-- The events of messages that are over: each of them is told in the order of its parts, with a body
as long as its headers announce, or is broken off by an error. -/
inductive Transcript : List Event → Prop
  | nil : Transcript []
  | message {es message : List Event} (hBefore : Transcript es) (s : Spelled) (hWhole : TellsWhole s message)
      (hExact : s.Exact) : Transcript (es ++ message)
  | broken {es part : List Event} (hBefore : Transcript es) (hPart : Unfinished part) (e : Errno) :
      Transcript (es ++ part ++ [.error e])

/-- A codec with its transcript, up to the message at hand. -/
structure Recorded (a : Assembly) (d : Impl υ) : Prop where
  tracks : Tracks a d
  fits : a.toSpelled.Fits
  trace : ∃ past now, d.trace = past ++ now ∧ Transcript past ∧ Tells a now

/-- The same, after a callback that may have failed. -/
def Recounted (d : Impl υ) : Prop :=
  ∃ past now, d.trace = past ++ now ∧ Transcript past ∧ Unfinished now

theorem unfinished_of_tells {es : List Event} (hFits : a.toSpelled.Fits) (h : Tells a es) : Unfinished es := by
  cases h with
  | idle => exact .nothing
  | head => exact .head _
  | tail hBegun hFraming hBody => exact .tail _ _ _ _ hFraming hBody hFits

theorem Recorded.recounted {d : Impl υ} (h : Recorded a d) : Recounted d := by
  obtain ⟨past, now, hTrace, hPast, hNow⟩ := h.trace
  exact ⟨past, now, hTrace, hPast, unfinished_of_tells h.fits hNow⟩

theorem Recorded.next {d e : Impl υ} {c : Callback} (h : Recorded a d)
    (hPlace : (assembler.next a c).misplaced = false)
    (hGood : (assembler.next a c).toSpelled.Fits ∧ Closed (assembler.next a c)) (hAccepts : Impl.Accepts cb d c e) :
    Recorded (assembler.next a c) e := by
  obtain ⟨past, now, hTrace, hPast, hNow⟩ := h.trace
  refine ⟨hAccepts.tracks h.tracks, hGood.1, ?_⟩
  by_cases hLast : c = .messageComplete
  · subst hLast
    have hFramed : a.framing.isSome = true := by
      have hNone := (Bool.or_eq_false_iff.mp hPlace).2
      simpa using hNone
    cases hAccepts with
    | messageComplete =>
        obtain ⟨last, hTold, hWhole⟩ := completes_tells cb h.tracks hNow hTrace hFramed
        have hExact : a.flush.toSpelled.Exact :=
          hGood.2 _ (List.mem_append_right _ (List.mem_singleton.mpr rfl))
        refine ⟨past ++ last, [], ?_, hPast.message _ hWhole hExact, .idle rfl rfl rfl rfl rfl⟩
        rw [hTold, List.append_nil]
  · obtain ⟨later, hTold, hTells⟩ := accepts_tells h.tracks hNow hTrace hPlace hAccepts hLast
    exact ⟨past, later, hTold, hPast, hTells⟩

theorem transcript_invariant (cb : Callbacks υ) :
    Invariant cb assembler (fun v => v.misplaced = false ∧ v.toSpelled.Fits ∧ Closed v) Recorded Recounted
      (fun _ => True) (fun p _ _ v => Placed p v ∧ Sized p v ∧ Closed v) (fun _ _ => True) where
  listens :=
    { ok := by
        intro a d c e hRecorded hGood hApply
        have hEnds : Impl.Ends cb a d c (d.apply cb c) := Impl.apply_ends hRecorded.tracks c
        rw [hApply] at hEnds
        exact hRecorded.next hGood.1 hGood.2 hEnds
      failed := by
        intro a d c err e hRecorded hGood hApply
        have hEnds : Impl.Ends cb a d c (d.apply cb c) := Impl.apply_ends hRecorded.tracks c
        rw [hApply] at hEnds
        obtain ⟨-, bytes, rfl⟩ := hEnds
        exact hRecorded.recounted
      fault := fun _ _ _ => trivial
      always := fun h => h.recounted }
  step hl h _ := Prog.wp_and (step_placing hl h.1) (step_sizing hl h.1 h.2.1 h.2.2)
  good h := ⟨h.1.unmisplaced, h.2.1.fits h.1, h.2.2⟩
  cut := by
    intro l v hl h
    exact ⟨placed_cut h.1, h.2.1.restart l.loop, h.2.2.of_done (restart_done _ v)⟩
  error := by
    intro d e hRecounted
    obtain ⟨past, now, hTrace, hPast, hNow⟩ := hRecounted
    refine ⟨{}, ⟨Impl.reset_tracks [] false, fits_unframed rfl, past ++ now ++ [.error e], [], ?_,
      hPast.broken hNow e, .idle rfl rfl rfl rfl rfl⟩, placed_fresh [], sized_unframed rfl, fun s hMem => (by cases hMem)⟩
    show d.trace ++ [.error e] = _
    rw [hTrace, List.append_nil]

/-- Whatever comes in, in whatever pieces, the codec tells message after message, and the last one as
far as it has come. -/
theorem decodeAll_transcript (hFatal : cb.Fatal) (object : Message) (user : υ) (pieces : List ByteString)
    (c : HttpCodec υ) (results : List Bool)
    (hRun : (HttpCodec.init object user).decodeAll cb pieces = .ok (c, results)) :
    ∃ past now, c.impl.trace = past ++ now ∧ Transcript past ∧ Unfinished now := by
  have hStart : Conducted assembler Recorded (fun p _ _ v => Placed p v ∧ Sized p v ∧ Closed v)
      (HttpCodec.init object user) :=
    ⟨⟨rfl, rfl⟩, enter_regular_fresh, {}, ⟨Impl.reset_tracks (d := Impl.init object user) [] false, fits_unframed rfl,
      [], [], rfl, .nil, .idle rfl rfl rfl rfl rfl⟩, placed_fresh [], sized_unframed rfl, fun s hMem => (by cases hMem)⟩
  have hKeeps : Keeps assembler Recorded (fun _ => True) (fun p _ _ v => Placed p v ∧ Sized p v ∧ Closed v)
      ((HttpCodec.init object user).decodeAll cb pieces) :=
    decodeAll_keeps (transcript_invariant cb) hFatal hStart (fun _ _ => trivial)
  rw [hRun] at hKeeps
  obtain ⟨a, hRecorded, -⟩ := hKeeps.gathered
  exact hRecorded.recounted

/-- The results of the calls of `decode`, if none of them ends the process. -/
def resultsOf (r : Except Fault (HttpCodec υ × List Bool)) : Option (List Bool) := r.toOption.map Prod.snd

theorem ok_of_resultsOf {r : Except Fault (HttpCodec υ × List Bool)} {results : List Bool}
    (h : resultsOf r = some results) : ∃ c, r = .ok (c, results) := by
  rcases r with f | ⟨c, oks⟩
  · cases h
  · exact ⟨c, congrArg (fun t => Except.ok (c, t)) (Option.some.inj h)⟩

/-- A request with a body that is cut, a request that breaks off, and one that is not over. -/
theorem decodeAll_transcript_broken : ∃ c,
    (HttpCodec.init (.request .fresh) ()).decodeAll handing
        [ofString "POST /a HTTP/1.1\r\ncontent-length: 4\r\n\r\nab", ofString "cdGET /b HTTP/1.1\r\nx",
          ofString " y: 1\r\n", ofString "GET /c HTTP/1.1\r\n\r\nPUT /"] = .ok (c, [true, true, false, true]) ∧
      ∃ past now, c.impl.trace = past ++ now ∧ Transcript past ∧ Unfinished now := by
  have hFatal : handing.Fatal := fun _ _ => rfl
  have hResults : resultsOf ((HttpCodec.init (.request .fresh) ()).decodeAll handing
    [ofString "POST /a HTTP/1.1\r\ncontent-length: 4\r\n\r\nab", ofString "cdGET /b HTTP/1.1\r\nx",
      ofString " y: 1\r\n", ofString "GET /c HTTP/1.1\r\n\r\nPUT /"]) = some [true, true, false, true] := by decide +kernel
  obtain ⟨c, hRun⟩ := ok_of_resultsOf hResults
  exact ⟨c, hRun, decodeAll_transcript hFatal _ _ _ _ _ hRun⟩

end Doormat.Http
