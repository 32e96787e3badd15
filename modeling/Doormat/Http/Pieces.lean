import Doormat.Parser.Budget
import Doormat.Http.Decodable
import Doormat.Http.HeaderLine
import Doormat.Http.Independence

/-! The headers, trailers and body of a message do not depend on how its bytes are cut. -/
namespace Doormat.Http

open Bytes Doormat.Parser

variable {υ : Type} {cb : Callbacks υ} {isRequest : Bool} {a : Assembly} {d e : Impl υ} {c : Callback}

/-! ### What is told -/

def headerEvent (line : ByteString × ByteString) : Event := .header line.1 line.2

def trailerEvent (line : ByteString × ByteString) : Event := .trailer line.1 line.2

/-- The events of a message, up to its last trailer. -/
def messageEvents (s : Spelled) (p : Fields) (m : Message) (bodies : List ByteString) : List Event :=
  .begin :: (s.headers.map headerEvent ++
    .headersDone p m :: (bodies.map .body ++ s.trailers.map trailerEvent))

/-- The events tell of the message at hand what is spelled, each thing once and in its place. -/
inductive Tells (a : Assembly) : List Event → Prop
  | idle (hBegun : a.begun = false) (hHeaders : a.headers = []) (hFraming : a.framing = none)
      (hBody : a.body = []) (hTrailers : a.trailers = []) : Tells a []
  | head (hBegun : a.begun = true) (hFraming : a.framing = none) (hBody : a.body = [])
      (hTrailers : a.trailers = []) : Tells a (.begin :: a.headers.map headerEvent)
  | tail {p : Fields} {m : Message} {bodies : List ByteString} (hBegun : a.begun = true)
      (hFraming : a.framing = some p) (hBody : bodies.flatten = a.body) :
      Tells a (messageEvents a.toSpelled p m bodies)

/-- The events tell of a whole message. -/
def TellsWhole (s : Spelled) (es : List Event) : Prop :=
  ∃ p m bodies, s.framing = some p ∧ bodies.flatten = s.body ∧
    es = messageEvents s p m bodies ++ [.completion]

/-- The events tell of all messages. -/
def TellsAll (a : Assembly) (es : List Event) : Prop :=
  ∃ gone now, es = gone.flatten ++ now ∧ List.Forall₂ TellsWhole a.done gone ∧ Tells a now

/-- The parts of a message that events tell of. -/
def Assembly.told (a : Assembly) : Bool × List (ByteString × ByteString) × Option Fields × ByteString ×
    List (ByteString × ByteString) :=
  (a.begun, a.headers, a.framing, a.body, a.trailers)

namespace Tells

variable {b : Assembly} {es : List Event}

theorem same (h : Tells a es) (hSame : b.told = a.told) : Tells b es := by
  simp only [Assembly.told, Prod.mk.injEq] at hSame
  obtain ⟨hBegun, hHeaders, hFraming, hBody, hTrailers⟩ := hSame
  cases h with
  | idle hNot hNoHeaders hNone hNoBody hNoTrailers =>
      exact .idle (hBegun.trans hNot) (hHeaders.trans hNoHeaders) (hFraming.trans hNone)
        (hBody.trans hNoBody) (hTrailers.trans hNoTrailers)
  | head hSet hNone hNoBody hNoTrailers =>
      rw [← hHeaders]
      exact .head (hBegun.trans hSet) (hFraming.trans hNone) (hBody.trans hNoBody)
        (hTrailers.trans hNoTrailers)
  | @tail p m bodies hSet hSome hPieces =>
      have hEvents : messageEvents a.toSpelled p m bodies = messageEvents b.toSpelled p m bodies := by
        rw [messageEvents, messageEvents, hHeaders, hTrailers]
      rw [hEvents]
      exact .tail (hBegun.trans hSet) (hFraming.trans hSome) (hPieces.trans hBody.symm)

/-- A message begins. -/
theorem begins (h : Tells a es) (hBegun : a.begun = false) :
    Tells { a with begun := true } (es ++ [.begin]) := by
  cases h with
  | idle hNot hHeaders hFraming hBody hTrailers =>
      have hEvents : ([] : List Event) ++ [.begin] = .begin :: a.headers.map headerEvent := by
        rw [hHeaders]
        rfl
      rw [hEvents]
      exact .head rfl hFraming hBody hTrailers
  | head hSet | tail hSet =>
      rw [hBegun] at hSet
      cases hSet

/-- A line of the headers is over. -/
theorem headerLine (h : Tells a es) (hBegun : a.begun = true) (hFraming : a.framing = none)
    (hPending : a.pending = true) : Tells a.flush (es ++ [.header a.key a.value]) := by
  have hFlush : a.flush = { a with
      headers := a.headers ++ [(a.key, a.value)], key := [], value := [], pending := false } := by
    simp [Assembly.flush, hPending, hFraming]
  rw [hFlush]
  cases h with
  | idle hNot =>
      rw [hBegun] at hNot
      cases hNot
  | head hSet hNone hNoBody hNoTrailers =>
      have hEvents : (Event.begin :: a.headers.map headerEvent) ++ [.header a.key a.value] =
          .begin :: (a.headers ++ [(a.key, a.value)]).map headerEvent := by
        simp [headerEvent]
      rw [hEvents]
      exact .head hSet hNone hNoBody hNoTrailers
  | tail hSet hSome =>
      rw [hFraming] at hSome
      cases hSome

/-- A trailer is over. -/
theorem trailerLine (h : Tells a es) (hFraming : a.framing.isSome = true) (hPending : a.pending = true) :
    Tells a.flush (es ++ [.trailer a.key a.value]) := by
  have hFlush : a.flush = { a with
      trailers := a.trailers ++ [(a.key, a.value)], key := [], value := [], pending := false } := by
    simp [Assembly.flush, hPending, hFraming]
  rw [hFlush]
  cases h with
  | idle hNot hNoHeaders hNone =>
      rw [hNone] at hFraming
      cases hFraming
  | head hSet hNone =>
      rw [hNone] at hFraming
      cases hFraming
  | @tail p m bodies hSet hSome hPieces =>
      have hEvents : messageEvents a.toSpelled p m bodies ++ [.trailer a.key a.value] =
          messageEvents { a.toSpelled with trailers := a.trailers ++ [(a.key, a.value)] } p m bodies := by
        simp [messageEvents, trailerEvent]
      rw [hEvents]
      exact .tail hSet hSome hPieces

/-- The headers are announced. -/
theorem announce (h : Tells a es) (hBegun : a.begun = true) (hFraming : a.framing = none) (p : Fields)
    (m : Message) : Tells { a with framing := some p } (es ++ [.headersDone p m]) := by
  cases h with
  | idle hNot =>
      rw [hBegun] at hNot
      cases hNot
  | head hSet hNone hNoBody hNoTrailers =>
      have hEvents : (Event.begin :: a.headers.map headerEvent) ++ [.headersDone p m] =
          messageEvents a.toSpelled p m [] := by
        simp [messageEvents, hNoTrailers]
      rw [hEvents]
      exact .tail hSet rfl hNoBody.symm
  | tail hSet hSome =>
      rw [hFraming] at hSome
      cases hSome

/-- A piece of the body. -/
theorem piece (h : Tells a es) (hFraming : a.framing.isSome = true) (hTrailers : a.trailers = [])
    (bytes : ByteString) : Tells { a with body := a.body ++ bytes } (es ++ [.body bytes]) := by
  cases h with
  | idle hNot hNoHeaders hNone =>
      rw [hNone] at hFraming
      cases hFraming
  | head hSet hNone =>
      rw [hNone] at hFraming
      cases hFraming
  | @tail p m bodies hSet hSome hPieces =>
      have hEvents : messageEvents a.toSpelled p m bodies ++ [.body bytes] =
          messageEvents a.toSpelled p m (bodies ++ [bytes]) := by
        simp [messageEvents, hTrailers]
      rw [hEvents]
      refine .tail hSet hSome ?_
      rw [List.flatten_concat, hPieces]

/-- The message is over. -/
theorem whole (h : Tells a es) (hFraming : a.framing.isSome = true) :
    TellsWhole a.toSpelled (es ++ [.completion]) := by
  cases h with
  | idle hNot hNoHeaders hNone =>
      rw [hNone] at hFraming
      cases hFraming
  | head hSet hNone =>
      rw [hNone] at hFraming
      cases hFraming
  | tail hSet hSome hPieces => exact ⟨_, _, _, hSome, hPieces, rfl⟩

end Tells

/-- The trailer at hand is told. -/
theorem flushTrailer_tells (cb : Callbacks υ) {past es : List Event} (hTracks : Tracks a d) (h : Tells a es)
    (hTrace : d.trace = past ++ es) (hFraming : a.framing.isSome = true) :
    ∃ es', (d.flushTrailer cb).trace = past ++ es' ∧ Tells a.flush es' := by
  unfold Impl.flushTrailer
  split
  case isTrue hGot =>
    refine ⟨es ++ [.trailer a.key a.value], ?_, h.trailerLine hFraming (hTracks.gotHeader ▸ hGot)⟩
    show d.trace ++ [.trailer d.key d.value] = _
    rw [hTrace, hTracks.key, hTracks.value, List.append_assoc]
  case isFalse hGot =>
    refine ⟨es, hTrace, ?_⟩
    rw [Impl.flush_idle (hTracks.gotHeader ▸ by simpa using hGot)]
    exact h

/-- What a callback in its place makes the codec tell. -/
theorem accepts_tells {past es : List Event} (hTracks : Tracks a d) (h : Tells a es)
    (hTrace : d.trace = past ++ es) (hPlace : (assembler.next a c).misplaced = false)
    (hAccepts : Impl.Accepts cb d c e) (hOpen : c ≠ .messageComplete) :
    ∃ es', e.trace = past ++ es' ∧ Tells (assembler.next a c) es' := by
  have hOn : ∀ ev : Event, d.trace ++ [ev] = past ++ (es ++ [ev]) := by
    intro ev
    rw [hTrace, List.append_assoc]
  have hIdle : d.gotHeader = false → a.flush = a := fun hGot =>
    Impl.flush_idle (hTracks.gotHeader.symm.trans hGot)
  have hUnframed : d.headersCompleted = false → a.framing = none := by
    intro hHeaders
    have hNone := hTracks.headersCompleted.symm.trans hHeaders
    simpa using hNone
  cases hAccepts with
  | messageBegin | messageBeginAgain =>
      have hBegun : a.begun = false := (Bool.or_eq_false_iff.mp hPlace).2
      exact ⟨_, hOn .begin, (h.begins hBegun).same rfl⟩
  | @chunk p c hChunk =>
      cases c with
      | messageBegin => exact absurd rfl hChunk
      | chunkHeader | chunkComplete => exact ⟨es, hTrace, h.same rfl⟩
  | url =>
      rw [Gatherer.next, Assembly.data_url]
      exact ⟨es, hTrace, h.same rfl⟩
  | status =>
      rw [Gatherer.next, Assembly.data_status]
      exact ⟨es, hTrace, h.same rfl⟩
  | field hHeaders hGot =>
      rw [Gatherer.next, Assembly.data_headerField, hIdle hGot]
      exact ⟨es, hTrace, h.same rfl⟩
  | nextField hHeaders hGot hInstalled hTaken =>
      rw [Gatherer.next, Assembly.data_headerField] at hPlace ⊢
      simp only [Bool.or_eq_false_iff, Bool.not_eq_false'] at hPlace
      have hLine := h.headerLine hPlace.2 (hUnframed hHeaders) (hTracks.gotHeader ▸ hGot)
      refine ⟨_, ?_, hLine.same rfl⟩
      rw [← hTracks.key, ← hTracks.value]
      exact hOn (.header d.key d.value)
  | trailerField hHeaders =>
      rw [Gatherer.next, Assembly.data_headerField]
      obtain ⟨es', hTrace', hTells⟩ := flushTrailer_tells cb hTracks h hTrace
        (hTracks.headersCompleted ▸ hHeaders)
      exact ⟨es', hTrace', hTells.same rfl⟩
  | value =>
      rw [Gatherer.next, Assembly.data_headerValue]
      exact ⟨es, hTrace, h.same rfl⟩
  | ignored hIgnore =>
      rw [Gatherer.next, Assembly.data_body] at hPlace
      have hFinal := (Bool.or_eq_false_iff.mp hPlace).2
      rw [← hTracks.ignore, hIgnore] at hFinal
      cases hFinal
  | @body code bytes hIgnore =>
      rw [Gatherer.next, Assembly.data_body] at hPlace ⊢
      simp only [Bool.or_eq_false_iff, decide_eq_false_iff_not, not_not, Option.isNone_eq_false_iff] at hPlace
      have hPiece := h.piece hPlace.1.1.1.2 hPlace.1.2 bytes
      exact ⟨_, hOn (.body bytes), hPiece.same rfl⟩
  | @headersComplete p hMajor hInstalled hGot =>
      simp only [Gatherer.next, assembler, Assembly.headersComplete, Bool.or_eq_false_iff, Bool.not_eq_false']
        at hPlace
      have hNone : a.framing = none := by simpa using hPlace.2
      have hTold := h.announce hPlace.1.2 hNone p (Impl.completeHeaders p (d.setVersion p).object)
      refine ⟨_, ?_, hTold.same ?_⟩
      · rw [← hOn, ← setVersion_trace p d]
        rfl
      · simp only [Gatherer.next, assembler, Assembly.headersComplete, hIdle hGot]
        rfl
  | @lastHeader p data hMajor hInstalled hGot hTaken =>
      simp only [Gatherer.next, assembler, Assembly.headersComplete, Bool.or_eq_false_iff, Bool.not_eq_false']
        at hPlace
      have hNone : a.framing = none := by simpa using hPlace.2
      obtain ⟨-, hBegun, hFraming, -⟩ := flush_frame a
      have hLine := h.headerLine hPlace.1.2 hNone (hTracks.gotHeader ▸ hGot)
      have hTold := hLine.announce (hBegun.trans hPlace.1.2) (hFraming.trans hNone) p
        (Impl.completeHeaders p ((d.setVersion p).takeHeader data).object)
      refine ⟨_, ?_, hTold.same rfl⟩
      rw [← hTracks.key, ← hTracks.value, ← List.append_assoc, ← hOn, ← setVersion_trace p d]
      have hSame : (d.setVersion p).key = d.key ∧ (d.setVersion p).value = d.value := by
        unfold Impl.setVersion Impl.chooseVersion
        split
        · exact ⟨rfl, rfl⟩
        · exact ⟨rfl, rfl⟩
      rw [← hSame.1, ← hSame.2]
      rfl
  | messageComplete => exact absurd rfl hOpen

/-- The end of a message makes the codec tell of the rest of it. -/
theorem completes_tells (cb : Callbacks υ) {past es : List Event} (hTracks : Tracks a d) (h : Tells a es)
    (hTrace : d.trace = past ++ es) (hFramed : a.framing.isSome = true) :
    ∃ es', (d.completeMessage cb).trace = past ++ es' ∧ TellsWhole a.flush.toSpelled es' := by
  obtain ⟨es', hTrace', hTells⟩ := flushTrailer_tells cb hTracks h hTrace hFramed
  refine ⟨es' ++ [.completion], ?_, hTells.whole ((flush_frame a).2.2.1 ▸ hFramed)⟩
  rw [← List.append_assoc, ← hTrace']
  rfl

/-- Callbacks in their places make the codec tell all that is spelled. -/
theorem replay_tells {past es : List Event} {cs : List Callback} (hTracks : Tracks a d) (h : TellsAll a es)
    (hTrace : d.trace = past ++ es) (hPlace : (assembler.gather a cs).misplaced = false)
    (hReplay : d.replay cb cs = .ok e) :
    ∃ es', e.trace = past ++ es' ∧ TellsAll (assembler.gather a cs) es' := by
  induction cs generalizing a d es with
  | nil =>
      cases hReplay
      exact ⟨es, hTrace, h⟩
  | cons c cs ih =>
      obtain ⟨f, hApply, hRest⟩ := Impl.replay_cons_eq_ok.mp hReplay
      have hEnds : Impl.Ends cb a d c (d.apply cb c) := Impl.apply_ends hTracks c
      rw [hApply] at hEnds
      have hNext := unmisplaced_of_gather (a := assembler.next a c) hPlace
      obtain ⟨gone, now, rfl, hGone, hNow⟩ := h
      rw [← List.append_assoc] at hTrace
      cases next_grows hNext with
      | inl hOpen =>
          have hMore : c ≠ .messageComplete := by
            intro hLast
            rw [hLast] at hOpen
            have hLengths : (a.done ++ [a.flush.toSpelled]).length = a.done.length :=
              congrArg List.length hOpen.1
            simp at hLengths
          obtain ⟨now', hTrace', hNow'⟩ := accepts_tells hTracks hNow hTrace hNext hEnds hMore
          rw [List.append_assoc] at hTrace'
          exact ih (hEnds.tracks hTracks) ⟨gone, now', rfl, hOpen.1 ▸ hGone, hNow'⟩ hTrace' hPlace hRest
      | inr hLast =>
          subst hLast
          have hFramed : a.framing.isSome = true := by
            have hNone := (Bool.or_eq_false_iff.mp hNext).2
            simpa using hNone
          cases hEnds with
          | messageComplete =>
              obtain ⟨now', hTrace', hWhole⟩ := completes_tells cb hTracks hNow hTrace hFramed
              rw [List.append_assoc] at hTrace'
              have hDone : TellsAll (assembler.next a .messageComplete) (gone.flatten ++ now') := by
                refine ⟨gone ++ [now'], [], by simp, ?_, .idle rfl rfl rfl rfl rfl⟩
                exact List.rel_append hGone (.cons hWhole .nil)
              have hEnd : Impl.Accepts cb d .messageComplete (d.completeMessage cb) := .messageComplete
              exact ih (hEnd.tracks hTracks) hDone hTrace' hPlace hRest

/-! ### A message and its cuttings -/

/-- The events are those of the message `s`: its headers, which are then announced, the pieces of
its body, its trailers, and its completion unless it lasts until the connection is closed. -/
def Delivers (s : Spelled) (complete : Bool) (es : List Event) : Prop :=
  ∃ p m bodies, bodies.flatten = s.body ∧
    es = messageEvents s p m bodies ++ if complete then [.completion] else []

/-- The message that the callbacks of the parser spell if its bytes come in one piece. -/
def spelling (bytes : ByteString) : Option Spelled :=
  (emitPiece fresh bytes).map fun r =>
    let a := assembler.gather {} r.2
    a.done.headD a.toSpelled

/-- The bytes are a message that is decoded in one piece, with the events `es`: it has one header
section, its values are made of the bytes of header values, and it has come to its end or has a
body that lasts until the connection is closed. -/
structure WholeMessage (cb : Callbacks υ) (c : HttpCodec υ) (bytes : ByteString) (es : List Event) : Prop where
  decodes : ∃ d, c.decode cb bytes = .ok (d, true) ∧ d.impl.trace = c.impl.trace ++ es ∧
    (d.parser = fresh ∨ d.parser.state = .bodyIdentityEof)
  announced : (announcements es).length = 1
  chars : headerCharsOnly (enter fresh) bytes

theorem announcements_append (es es' : List Event) :
    announcements (es ++ es') = announcements es ++ announcements es' :=
  List.filterMap_append

theorem announcements_messageEvents (s : Spelled) (p : Fields) (m : Message) (bodies : List ByteString) :
    announcements (messageEvents s p m bodies) = [(p, m)] := by
  simp [messageEvents, announcements, List.filterMap_append, List.filterMap_map, Function.comp_def,
    headerEvent, trailerEvent]

theorem announcements_whole {s : Spelled} {es : List Event} (h : TellsWhole s es) :
    (announcements es).length = 1 := by
  obtain ⟨p, m, bodies, -, -, rfl⟩ := h
  rw [announcements_append, announcements_messageEvents]
  rfl

theorem announcements_gone {done : List Spelled} {gone : List (List Event)}
    (h : List.Forall₂ TellsWhole done gone) : (announcements gone.flatten).length = done.length := by
  induction h with
  | nil => rfl
  | cons hWhole hRest ih =>
      rw [List.flatten_cons, announcements_append, List.length_append, announcements_whole hWhole, ih,
        List.length_cons, Nat.add_comm]

/-- One message has been spelled, and it has come to its end or is within its body. -/
inductive Single : Assembly → Spelled → Bool → Prop
  | ended {a : Assembly} {s : Spelled} (hDone : a.done = [s]) (hBegun : a.begun = false) : Single a s true
  | within {a : Assembly} {p : Fields} (hDone : a.done = []) (hBegun : a.begun = true)
      (hFraming : a.framing = some p) : Single a a.toSpelled false

theorem Single.delivers {s : Spelled} {complete : Bool} {es : List Event} (h : Single a s complete)
    (hTells : TellsAll a es) : Delivers s complete es := by
  obtain ⟨gone, now, rfl, hGone, hNow⟩ := hTells
  cases h with
  | ended hDone hBegun =>
      rw [hDone] at hGone
      cases hGone with
      | cons hWhole hRest =>
          cases hRest
          obtain ⟨p, m, bodies, -, hBody, rfl⟩ := hWhole
          cases hNow with
          | idle => exact ⟨p, m, bodies, hBody, by simp⟩
          | head hSet | tail hSet =>
              rw [hBegun] at hSet
              cases hSet
  | within hDone hBegun hFraming =>
      rw [hDone] at hGone
      cases hGone
      cases hNow with
      | idle hNot =>
          rw [hBegun] at hNot
          cases hNot
      | head hSet hNone =>
          rw [hFraming] at hNone
          cases hNone
      | @tail p m bodies hSet hSome hBody => exact ⟨p, m, bodies, hBody, by simp⟩

/-- What the events of one message say about what is spelled. -/
theorem single_of_tells {es : List Event} (hTells : TellsAll a es) (hOne : (announcements es).length = 1)
    (hEnd : a.begun = false ∨ a.begun = true ∧ a.framing.isSome = true) :
    ∃ complete, Single a (a.done.headD a.toSpelled) complete := by
  obtain ⟨gone, now, rfl, hGone, hNow⟩ := hTells
  rw [announcements_append, List.length_append, announcements_gone hGone] at hOne
  rcases hEnd with hBegun | ⟨hBegun, hFraming⟩
  · cases hNow with
    | idle =>
        obtain ⟨s, hDone⟩ := List.length_eq_one_iff.mp (show a.done.length = 1 from hOne)
        rw [hDone]
        exact ⟨true, .ended hDone hBegun⟩
    | head hSet | tail hSet =>
        rw [hBegun] at hSet
        cases hSet
  · cases hNow with
    | idle hNot =>
        rw [hBegun] at hNot
        cases hNot
    | head hSet hNone =>
        rw [hNone] at hFraming
        cases hFraming
    | tail hSet hSome =>
        rw [announcements_messageEvents] at hOne
        have hDone : a.done = [] := List.length_eq_zero_iff.mp (by simpa using hOne)
        rw [hDone]
        exact ⟨false, .within hDone hBegun hSome⟩

/-- Between two messages nothing is spelled. -/
theorem Running.takes {c : HttpCodec υ} (hc : Running c) (hFresh : c.parser = fresh) (isRequest : Bool) :
    Takes isRequest {} c.impl := by
  obtain ⟨a, ⟨hTracks, -⟩, hEnters⟩ := hc.targeted.gathered
  rw [hFresh] at hEnters
  have hIdle : a = { done := a.done } := hEnters.2
  rw [hIdle] at hTracks
  exact
    { tracks := { hTracks with }
      kind := fun hBegun => by cases hBegun
      decodable :=
        { done := fun s hMem => by cases hMem
          current :=
            { target := fun hSome => by cases hSome
              reason := fun hSome => by cases hSome
              length := Nat.zero_le _
              major := fun p hp => by cases hp
              lengths := fun line hMem => by cases hMem } } }

/-- At the end of a message nothing is at hand, or its body. -/
theorem Placed.ends {p : Fields} {v : Assembly} (h : Placed p v)
    (hEnd : p.state = .startReqOrRes ∨ p.state = .bodyIdentityEof) :
    v.begun = false ∨ v.begun = true ∧ v.framing.isSome = true := by
  rcases hEnd with hState | hState
  · have hIdle : v = { done := v.done } := by
      have hMatch := h.2
      rw [hState] at hMatch
      exact hMatch
    rw [hIdle]
    exact .inl rfl
  · have hBody := h.inBody (by rw [hState]; rfl)
    exact .inr ⟨hBody.begun, hBody.framing⟩

variable {c : HttpCodec υ} {bytes : ByteString} {whole : List Event}

/-- What the parser and the codec have made of a message that comes in one piece: `a` is spelled,
and told. -/
structure Uncut (isRequest : Bool) (bytes : ByteString) (whole : List Event) (x : Locals)
    (out : List Callback) (a : Assembly) : Prop where
  reads : (enter fresh).reads bytes = some (x, out)
  unmarked : startMark x.fields.state = none
  gathers : assembler.ahead (assembler.gather {} out) x.mark = a
  spelling : spelling bytes = some (a.done.headD a.toSpelled)
  placed : Placed x.fields a
  decodable : AllDecodable isRequest a
  tells : TellsAll a whole
  ends : a.begun = false ∨ a.begun = true ∧ a.framing.isSome = true

theorem tellsAll_nil : TellsAll {} [] := ⟨[], [], rfl, .nil, .idle rfl rfl rfl rfl rfl⟩

theorem WholeMessage.uncut (hFatal : cb.Fatal) (hInstalls : Installs cb isRequest) (hc : Running c)
    (hFresh : c.parser = fresh) (h : WholeMessage cb c bytes whole) :
    ∃ x out a, Uncut isRequest bytes whole x out a := by
  obtain ⟨c₁, hDecode, hTrace, hEnd⟩ := h.decodes
  obtain ⟨p, cs, d, hEmit, hReplay, rfl⟩ := emit_of_decode hFatal hc.targeted.ready hc.targeted.regular hDecode
  replace hEnd : p = fresh ∨ p.state = .bodyIdentityEof := hEnd
  replace hTrace : d.trace = c.impl.trace ++ whole := hTrace
  rw [hFresh] at hEmit
  have hNil : bytes ≠ [] := by
    -- no bytes announce nothing
    intro hNil
    rw [emitPiece, if_pos hNil] at hEmit
    cases hEmit
    cases hReplay
    obtain rfl : whole = [] := by simpa using hTrace
    exact absurd h.announced (by decide)
  have hSpelling : spelling bytes =
      some ((assembler.gather {} cs).done.headD (assembler.gather {} cs).toSpelled) := by
    rw [Http.spelling, hEmit]
    rfl
  rw [emitPiece, if_neg hNil] at hEmit
  obtain ⟨x, out, out', hReads, hClose, rfl⟩ := emit_eq_some.mp hEmit
  rw [Locals.close_eq] at hClose
  split at hClose
  · cases hClose
  obtain ⟨rfl, rfl⟩ := Prod.mk.inj (Option.some.inj hClose)
  rw [Locals.settled_state] at hEnd
  have hGather : assembler.gather {} (out ++ leftOver x.fields.statusCode x.mark) =
      assembler.ahead (assembler.gather {} out) x.mark := by
    rw [Gatherer.gather_append, Gatherer.gather_leftOver]
  have hState : x.fields.state = .startReqOrRes ∨ x.fields.state = .bodyIdentityEof := by
    cases hEnd with
    | inl hOver =>
        left
        rw [← Locals.settled_state, hOver]
        rfl
    | inr hBody => exact .inr hBody
  have hPlaced := reads_placed (a := {}) enter_regular_fresh (placed_fresh []) hReads
  rw [← hGather] at hPlaced
  have hStart := hc.takes hFresh isRequest
  have hTakes := hStart.replay hInstalls hPlaced.unmisplaced hReplay
  obtain ⟨es, hTold, hTells⟩ := replay_tells hStart.tracks tellsAll_nil (List.append_nil _).symm
    hPlaced.unmisplaced hReplay
  obtain rfl : whole = es := List.append_cancel_left (hTrace.symm.trans hTold)
  exact ⟨x, out, _,
    { reads := hReads
      unmarked := by
        rcases hState with hState | hState
        · rw [hState]
          rfl
        · rw [hState]
          rfl
      gathers := hGather.symm
      spelling := hSpelling
      placed := hPlaced
      decodable := hTakes.decodable
      tells := hTells
      ends := hPlaced.ends hState }⟩

/-- The codec decodes the pieces into the events of the message. -/
def DecodesPieces (cb : Callbacks υ) (c : HttpCodec υ) (pieces : List ByteString) (s : Spelled)
    (complete : Bool) : Prop :=
  ∃ d es, c.accepts cb pieces d ∧ d.impl.trace = c.impl.trace ++ es ∧ Delivers s complete es

/-- However the bytes of a message are cut, the codec sets and hands over the same headers and
trailers, and the same body, if and only if the bytes that the cutting makes the parser count
twice leave every header section within its limit. -/
theorem pieces_deliver_iff (hFatal : cb.Fatal) (hInstalls : Installs cb isRequest) (hc : Running c)
    (hFresh : c.parser = fresh) {pieces : List ByteString} (hMessage : WholeMessage cb c pieces.flatten whole) :
    ∃ s complete, spelling pieces.flatten = some s ∧ Delivers s complete whole ∧
      (DecodesPieces cb c pieces s complete ↔ headerBudget (enter fresh) 0 pieces = true) := by
  obtain ⟨x, out, a, hUncut⟩ := hMessage.uncut hFatal hInstalls hc hFresh
  obtain ⟨complete, hSingle⟩ := single_of_tells hUncut.tells hMessage.announced hUncut.ends
  refine ⟨_, complete, hUncut.spelling, hSingle.delivers hUncut.tells, ?_⟩
  have hAccepts : ∀ c', c.accepts cb pieces c' ↔ ∃ q cs d, emitAll c.parser pieces = some (q, cs) ∧
      c.impl.replay cb cs = .ok d ∧ c' = c.update q d := fun c' =>
    accepts_iff hFatal hc.targeted.ready hc.targeted.regular
  have hChars : headerCharsOnly (enter fresh) pieces.flatten := hMessage.chars
  constructor
  · rintro ⟨e, es, hDecodes, -⟩
    obtain ⟨q, cs, -, hAll, -⟩ := (hAccepts e).mp hDecodes
    rw [hFresh] at hAll
    exact (emitAll_isSome_iff enter_regular_fresh hChars hUncut.reads).mp ⟨_, hAll⟩
  · intro hBudget
    obtain ⟨q, cs, extra, hAll, -, hCut⟩ := emitAll_cut enter_regular_fresh enter_regular_fresh (.refl fresh)
      hChars hUncut.reads hBudget
    have hMark : (enter q).mark = none := by
      have hState : q.state = x.fields.state := hCut.parse.state
      rw [enter, hState, hUncut.unmarked]
      rfl
    have hSame : assembler.gather {} cs = a :=
      (Gatherer.gather_cut assembler_splits hCut hMark).trans hUncut.gathers
    have hPlace : (assembler.gather {} cs).misplaced = false := hSame ▸ hUncut.placed.unmisplaced
    have hStart := hc.takes hFresh isRequest
    obtain ⟨e, hReplay⟩ := hStart.replays hInstalls (hSame ▸ hUncut.decodable) hPlace
    obtain ⟨es, hTold, hTells⟩ := replay_tells hStart.tracks tellsAll_nil (List.append_nil _).symm hPlace hReplay
    rw [hSame] at hTells
    refine ⟨c.update q e, es, ?_, hTold, hSingle.delivers hTells⟩
    exact (hAccepts _).mpr ⟨q, cs, e, hFresh ▸ hAll, hReplay, rfl⟩

/-! ### A message at the limit -/

/-- A codec whose owner takes requests. -/
def serverCodec : HttpCodec Unit := .init (.request .fresh) ()

theorem handing_installs : Installs handing true :=
  ⟨fun _ _ => ⟨_, rfl, rfl⟩, fun _ _ => rfl⟩

/-- The beginning of a request, up to the second byte of a value. -/
def longFront : ByteString := ofString "GET / HTTP/1.1\r\nx: aa"

/-- The rest of it, with which its header section has all the bytes that the parser allows. -/
def longBack : ByteString := List.replicate 81895 'a'.toUInt8 ++ CR :: [LF, CR, LF]

/-- The parser behind the beginning, and what it has called. -/
def behindFront : Locals × List Callback := ((enter fresh).reads longFront).getD (enter fresh, [])

/-- The parser behind the value. -/
def behindValue : Fields :=
  { behindFront.1.fields with state := .headerAlmostDone, headerState := .general }

/-- What the parser calls behind the value. -/
def lastCallbacks : List Callback :=
  (((Locals.mk behindValue 0 none .outer).reads [LF, CR, LF]).getD (enter fresh, [])).2

theorem headerCharsOnly_of_append {x x' : Locals} {front rest : ByteString} {cs : List Callback}
    (hFront : headerCharsOnly x front = true) (hReads : x.reads front = some (x', cs))
    (hRest : headerCharsOnly x' rest = true) : headerCharsOnly x (front ++ rest) = true := by
  induction front generalizing x cs with
  | nil =>
      obtain ⟨rfl, -⟩ := by simpa [Locals.reads, Transducer.reads] using hReads
      exact hRest
  | cons ch front ih =>
      obtain ⟨t, out, out', hRead, hMore, rfl⟩ := Transducer.reads_cons_eq_some.mp hReads
      simp only [List.cons_append, headerCharsOnly, hRead, Bool.and_eq_true] at hFront ⊢
      exact ⟨hFront.1, ih hFront.2 hMore⟩

variable {p : Fields} {n read k : Nat} {front : ByteString}

/-- Within a value that nobody matches. -/
theorem reads_replicate (m : Nat) :
    (Locals.mk p n (some (.headerValue, front)) (.value read .general (some k))).reads
        (List.replicate m 'a'.toUInt8) =
      some (⟨p, n, some (.headerValue, front ++ List.replicate m 'a'.toUInt8),
        .value (read + m) .general (some (k + m))⟩, []) ∧
    headerCharsOnly (Locals.mk p n (some (.headerValue, front)) (.value read .general (some k)))
      (List.replicate m 'a'.toUInt8) = true := by
  induction m generalizing read k front with
  | zero => simp [Locals.reads, Transducer.reads, headerCharsOnly]
  | succ m ih =>
      have hChar : isHeaderChar 'a'.toUInt8 = true ∧ 'a'.toUInt8 ≠ CR ∧ 'a'.toUInt8 ≠ LF := by decide
      have hRead : (Locals.mk p n (some (.headerValue, front)) (.value read .general (some k))).read 'a'.toUInt8 =
          some (⟨p, n, some (.headerValue, front ++ ['a'.toUInt8]), .value (read + 1) .general (some (k + 1))⟩, []) :=
        read_valueSkip hChar
      constructor
      · have hAll := Locals.reads_cons hRead ih.1
        rw [List.append_assoc, Nat.add_assoc, Nat.add_assoc, Nat.add_comm 1 m] at hAll
        exact hAll
      · simp only [List.replicate_succ, headerCharsOnly, hRead, ih.2, hChar.1, Bool.or_true, Bool.and_true]

theorem reads_longFront : (enter fresh).reads longFront =
    some (⟨behindFront.1.fields, 21, some (.headerValue, ofString "aa"), .value 1 .general (some 1)⟩,
      behindFront.2) := by decide +kernel

theorem longFront_chars : headerCharsOnly (enter fresh) longFront = true := by decide +kernel

/-- The end of the long value. -/
theorem read_longValueEnd {m : Nat} (hRegular : (Locals.mk behindFront.1.fields n (some (.headerValue, front))
      (.value m .general (some k))).Regular) (hRoom : n + m ≤ httpMaxHeaderSize) :
    (Locals.mk behindFront.1.fields n (some (.headerValue, front)) (.value m .general (some k))).read CR =
      some (⟨behindValue, n + m, none, .outer⟩, [.data 0 .headerValue front]) :=
  read_valueEnd ⟨rfl, .inr ⟨_, _, rfl⟩⟩ hRegular hRoom

/-- Behind the longest value that fits the header section ends within its limit. -/
theorem reads_lastBytes : (Locals.mk behindValue 81917 none .outer).reads [LF, CR, LF] =
    some (enter fresh, lastCallbacks) ∧
    headerCharsOnly (Locals.mk behindValue 81917 none .outer) [LF, CR, LF] = true := by
  constructor
  · decide +kernel
  · decide +kernel

/-- One byte more, and it does not. -/
theorem reads_lastBytes_over : (Locals.mk behindValue 81918 none .outer).reads [LF, CR, LF] = none := by
  decide +kernel

/-- What the parser calls for the request in one piece. -/
def longCallbacks (value : ByteString) : List Callback :=
  behindFront.2 ++ .data 0 .headerValue value :: lastCallbacks

/-- The parser takes the request in one piece. -/
theorem reads_longRequest : ∃ value, (enter fresh).reads (longFront ++ longBack) =
      some (enter fresh, longCallbacks value) ∧
    headerCharsOnly (enter fresh) (longFront ++ longBack) = true := by
  have hFront := reads_longFront
  have hStart : (Locals.mk behindFront.1.fields 21 (some (.headerValue, ofString "aa"))
      (.value 1 .general (some 1))).Regular := reads_regular enter_regular_fresh hFront
  obtain ⟨hValue, hValueChars⟩ := reads_replicate 81895
  have hRegular := reads_regular hStart hValue
  have hEnd := read_longValueEnd hRegular (by decide)
  obtain ⟨hLast, hLastChars⟩ := reads_lastBytes
  have hBack := Transducer.reads_append_eq_some.mpr ⟨_, _, _, hValue, Locals.reads_cons hEnd hLast, rfl⟩
  refine ⟨_, Transducer.reads_append_eq_some.mpr ⟨_, _, _, hFront, hBack, rfl⟩, ?_⟩
  refine headerCharsOnly_of_append longFront_chars hFront (headerCharsOnly_of_append hValueChars hValue ?_)
  have hCR : isHeaderChar CR = true := by decide
  simp only [headerCharsOnly, hEnd, hCR, Bool.or_true, Bool.true_and]
  exact hLastChars

/-- The codec takes what the parser calls, whatever the value is. -/
theorem replay_longCallbacks (value : ByteString) :
    ∃ d, serverCodec.impl.replay handing (longCallbacks value) = .ok d ∧ (announcements d.trace).length = 1 :=
  ⟨_, rfl, rfl⟩

/-- The parser at the boundary between the beginning and the rest. -/
def atBoundary : HttpParser where
  toFields := { behindFront.1.fields with headerState := .general }
  nread := 22
  errno := none

theorem emit_longFront : emitPiece fresh longFront =
    some (atBoundary, behindFront.2 ++ [.data 0 .headerValue (ofString "aa")]) := by
  decide +kernel

theorem atBoundary_regular : (enter atBoundary).Regular :=
  (emitPiece_regular enter_regular_fresh emit_longFront).1

/-- The first byte behind the boundary. -/
theorem read_atBoundary : (enter atBoundary).read 'a'.toUInt8 =
    some (⟨behindFront.1.fields, 23, some (.headerValue, ['a'.toUInt8]), .value 1 .general (some 1)⟩, []) := by
  decide +kernel

/-- In two pieces the parser does not take it. -/
theorem emit_longBack : emitPiece atBoundary longBack = none := by
  cases hEmit : emitPiece atBoundary longBack with
  | none => rfl
  | some r =>
      obtain ⟨q, cs⟩ := r
      have hNil : longBack ≠ [] := List.append_ne_nil_of_right_ne_nil _ (List.cons_ne_nil _ _)
      rw [emitPiece, if_neg hNil] at hEmit
      obtain ⟨l, out, out', hReads, -, -⟩ := emit_eq_some.mp hEmit
      obtain ⟨l₁, out₁, out₂, hBytes, hRest, -⟩ := Transducer.reads_append_eq_some.mp hReads
      rw [List.replicate_succ] at hBytes
      obtain ⟨l₂, out₃, out₄, hFirst, hMore, -⟩ := Transducer.reads_cons_eq_some.mp hBytes
      rw [read_atBoundary] at hFirst
      cases hFirst
      have hStart := read_regular atBoundary_regular read_atBoundary
      have hValue : some (l₁, out₄) = _ := hMore.symm.trans (reads_replicate 81894).1
      obtain ⟨rfl, -⟩ := Prod.mk.inj (Option.some.inj hValue)
      obtain ⟨l₃, out₅, out₆, hEnd, hOver, -⟩ := Transducer.reads_cons_eq_some.mp hRest
      rw [read_longValueEnd (reads_regular hStart hMore) (by decide)] at hEnd
      cases hEnd
      have hNone : some (l, out₆) = none := hOver.symm.trans reads_lastBytes_over
      cases hNone

/-- A request is decoded in one piece, but not when it is cut within its long value. -/
theorem cut_request_refused :
    ∃ whole, WholeMessage handing serverCodec [longFront, longBack].flatten whole ∧
      ¬ ∃ s complete, DecodesPieces handing serverCodec [longFront, longBack] s complete := by
  have hFatal : handing.Fatal := fun _ _ => rfl
  have hRunning : Running serverCodec := Running.init _ _
  have hReady := hRunning.targeted.ready
  have hRegular := hRunning.targeted.regular
  obtain ⟨value, hReads, hChars⟩ := reads_longRequest
  obtain ⟨d, hReplay, hAnnounced⟩ := replay_longCallbacks value
  have hBytes : [longFront, longBack].flatten = longFront ++ longBack := by simp
  have hNil : longFront ++ longBack ≠ [] := List.append_ne_nil_of_left_ne_nil (by decide +kernel) _
  refine ⟨d.trace, ?_, ?_⟩
  · rw [hBytes]
    refine ⟨⟨serverCodec.update fresh d, ?_, rfl, .inl rfl⟩, hAnnounced, hChars⟩
    apply decode_of_emit hReady hRegular _ hReplay
    rw [emitPiece, if_neg hNil]
    exact emit_eq_some.mpr ⟨_, _, [], hReads, close_fresh, (List.append_nil _).symm⟩
  · rintro ⟨s, complete, e, es, hAccepts, -⟩
    obtain ⟨q, cs, -, hAll, -⟩ := (accepts_iff hFatal hReady hRegular).mp hAccepts
    obtain ⟨r, out, out', hFirst, hRest, -⟩ := emitAll_cons.mp hAll
    have hFront : some (r, out) = _ := hFirst.symm.trans emit_longFront
    obtain ⟨rfl, -⟩ := Prod.mk.inj (Option.some.inj hFront)
    obtain ⟨r', out₁, out₂, hSecond, -⟩ := emitAll_cons.mp hRest
    rw [emit_longBack] at hSecond
    cases hSecond

/-- A request with a chunked body and a trailer. -/
def scatteredRequest : List ByteString :=
  [ofString "POST /a HTTP/1.1\r\nHo", ofString "st: b\r\nTransfer-Encoding: chu", ofString "nked\r\n\r",
    ofString "\n3\r\nab", ofString "c\r\n0\r\nx", ofString "y: ", ofString "z\r\n\r\n"]

theorem scatteredRequest_whole :
    WholeMessage handing serverCodec scatteredRequest.flatten (decoded [scatteredRequest.flatten]).impl.trace := by
  have hOne : isOneMessage .HTTP11 [scatteredRequest.flatten] = true := by decide +kernel
  obtain ⟨hMessage, -⟩ := isOneMessage_elim hOne
  have hChars : headerCharsOnly (enter fresh) scatteredRequest.flatten = true := by decide +kernel
  generalize decoded [scatteredRequest.flatten] = d at hMessage ⊢
  obtain ⟨t, hDecode, oks, hRest, -⟩ := accepts_cons.mp hMessage.accepts
  cases hRest
  exact ⟨⟨_, hDecode, (List.nil_append _).symm, .inl hMessage.ends⟩, hMessage.announced, hChars⟩

theorem pieces_deliver_iff_scattered :
    ∃ s complete, s.headers = [(ofString "Host", ofString "b"), (ofString "Transfer-Encoding", ofString "chunked")] ∧
      s.body = ofString "abc" ∧ s.trailers = [(ofString "xy", ofString "z")] ∧
      DecodesPieces handing serverCodec scatteredRequest s complete := by
  obtain ⟨s, complete, hSpelling, -, hIff⟩ := pieces_deliver_iff (fun _ _ => rfl) handing_installs
    (Running.init _ _) rfl scatteredRequest_whole
  have hParts : (spelling scatteredRequest.flatten).map (fun s => (s.headers, s.body, s.trailers)) =
      some ([(ofString "Host", ofString "b"), (ofString "Transfer-Encoding", ofString "chunked")],
        ofString "abc", [(ofString "xy", ofString "z")]) := by decide +kernel
  rw [hSpelling] at hParts
  obtain ⟨hHeaders, hRest⟩ := Prod.mk.inj (Option.some.inj hParts)
  obtain ⟨hBody, hTrailers⟩ := Prod.mk.inj hRest
  exact ⟨s, complete, hHeaders, hBody, hTrailers, hIff.mpr (by decide +kernel)⟩

end Doormat.Http
