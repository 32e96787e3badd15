import Doormat.Http.Decodable
import Doormat.Http.MessageOrder
import Doormat.Http.StatusLine

/-! The direction and the version of the messages that a codec decodes. The parser takes
requests and responses alike, whatever object the owner of the codec has installed. -/
namespace Doormat.Http

open Bytes Doormat.Parser

variable {υ : Type} {cb : Callbacks υ} {isRequest : Bool} {v a : Assembly} {p q : Fields} {ch : UInt8}

/-! ### What a step calls -/

/-- The program fails at once. -/
def Fails : Prog → Prop
  | .fail _ _ => True
  | _ => False

/-- The program sets no mark but those in `marks`, unless it fails at once, and completes headers
only with a parser in `complete`. -/
def Heeds (marks : Mark → Prop) (complete : Fields → Prop) : Prog → Prop
  | .next _ _ | .leave _ | .fail _ _ | .abort => True
  | .mark m k => Fails k ∨ marks m ∧ Heeds marks complete k
  | .data _ _ _ _ k | .count _ _ k | .clearNread k | .assertNread _ k | .notify _ _ _ k => Heeds marks complete k
  | .headersComplete p k => complete p ∧ ∀ n, Heeds marks complete (k n)
  | .messageComplete _ k => ∀ p, Heeds marks complete (k p)

/-- The parser is at a message of the kind and the major version that the codec decodes. -/
structure Directed (isRequest : Bool) (p : Fields) : Prop where
  major : p.httpMajor = 1
  type : p.type = if isRequest then .request else .response

/-- What is spelled is a message of the kind and the major version that the codec decodes. -/
structure Facing (isRequest : Bool) (v : Assembly) : Prop where
  target : v.target.isSome = true → isRequest = true
  reason : v.reason.isSome = true → isRequest = false
  framing : ∀ p, v.framing = some p → Directed isRequest p

/-- The marks that a message of the kind sets. -/
def Allows (isRequest : Bool) (m : Mark) : Prop :=
  (m = .url → isRequest = true) ∧ (m = .status → isRequest = false)

/-- A program that calls nothing of a message of the other kind, or of another version. -/
abbrev Facings (isRequest : Bool) : Prog → Prop :=
  Heeds (Allows isRequest) (Directed isRequest)

namespace Facing

theorem fresh (done : List Spelled) (misplaced : Bool) :
    Facing isRequest { done := done, misplaced := misplaced } where
  target h := by cases h
  reason h := by cases h
  framing p h := by cases h

theorem flush (h : Facing isRequest v) : Facing isRequest v.flush := by
  unfold Assembly.flush
  split
  · exact h
  split
  · exact { h with }
  · exact { h with }

theorem start (h : Facing isRequest v) {m : Mark} (hAllows : Allows isRequest m) :
    Facing isRequest (v.start m) := by
  cases m with
  | url => exact { h with target := fun _ => hAllows.1 rfl }
  | status => exact { h with reason := fun _ => hAllows.2 rfl }
  | headerField => exact { h.flush with }
  | headerValue | body => exact { h with }

theorem extend (h : Facing isRequest v) (m : Mark) (ch : UInt8) : Facing isRequest (v.extend m ch) := by
  cases m with
  | url => exact { h with target := fun hSome => h.target (by simpa [Assembly.extend] using hSome) }
  | status => exact { h with reason := fun hSome => h.reason (by simpa [Assembly.extend] using hSome) }
  | headerField | headerValue | body => exact { h with }

theorem notify (h : Facing isRequest v) (p : Fields) (c : Notification) : Facing isRequest (v.notify p c) := by
  cases c with
  | messageBegin | chunkHeader | chunkComplete => exact { h with }

theorem headersComplete (h : Facing isRequest v) (hDirected : Directed isRequest p) :
    Facing isRequest (v.headersComplete p) :=
  { h.flush with
    framing := by
      intro q hFraming
      cases hFraming
      exact hDirected }

end Facing

/-- A step that puts everything in its place, and calls nothing of another kind of message. -/
theorem facing_wp {prog : Prog} {cur : Option Mark} (h : Placing prog ch cur v)
    (hHeeds : Facings isRequest prog) (hFacing : Facing isRequest v) :
    prog.wp assembler (fun v => v.misplaced = false ∧ Facing isRequest v) ch
      (fun p _ _ v => Placed p v ∧ Facing isRequest v) cur v := by
  induction prog generalizing cur v with
  | next p loop =>
      refine ⟨h, ?_⟩
      cases cur with
      | none => exact hFacing
      | some m => exact hFacing.extend m ch
  | leave p => exact ⟨h.1, h.2, hFacing⟩
  | fail | abort => trivial
  | mark m k ih =>
      rcases hHeeds with hFails | ⟨hMark, hRest⟩
      · cases k with
        | fail => trivial
        | next | leave | abort | mark | data | count | clearNread | assertNread | notify | headersComplete
          | messageComplete => exact hFails.elim
      · refine ih h hRest ?_
        cases cur with
        | none => exact hFacing.start hMark
        | some set => exact hFacing
  | data p m inclusive advance k ih =>
      simp only [Prog.wp] at h ⊢
      split at h
      case isTrue hm =>
        rw [if_pos hm]
        have hHeld : Facing isRequest (if inclusive = true then assembler.extend m ch v else v) := by
          split
          · exact hFacing.extend m ch
          · exact hFacing
        exact ⟨⟨h.1, hHeld⟩, ih h.2 hHeeds hHeld⟩
      case isFalse hm =>
        rw [if_neg hm]
        exact ih h hHeeds hFacing
  | count p n k ih => exact ih h hHeeds hFacing
  | clearNread k ih => exact ih h hHeeds hFacing
  | assertNread n k ih => exact ih h hHeeds hFacing
  | notify p c advance k ih =>
      have hNotified := hFacing.notify p c
      exact ⟨h.1, ⟨h.2.1, hNotified⟩, ih h.2.2 hHeeds hNotified⟩
  | headersComplete p k ih =>
      have hCompleted := hFacing.headersComplete hHeeds.1
      exact ⟨h.1, ⟨h.2.1, hCompleted⟩, ih 0 h.2.2 (hHeeds.2 0) hCompleted⟩
  | messageComplete p k ih =>
      have hNew : Facing isRequest v.messageComplete := .fresh _ _
      exact ⟨h.1, ⟨h.2.1, hNew⟩, ih _ h.2.2 (hHeeds _) hNew⟩

/-! ### Which steps heed the direction -/

/-- The parser after the line before, where it comes to the end of a header section. -/
def lineFinished (p : Fields) : Fields :=
  match p.state with
  | .headerValueLws | .headerValueDiscardLws => finishHeader p
  | _ => p

/-- Is the byte the line feed that ends the headers, with framing that the parser accepts? -/
def endsHeaders (p : Fields) (ch : UInt8) : Bool :=
  ch = LF && !p.flags.trailing &&
    (p.state = .headersAlmostDone || p.state = .headerFieldStart || p.state = .headerValueLws ||
      p.state = .headerValueDiscardLws) &&
    !((lineFinished p).flags.chunked && (lineFinished p).flags.contentlength)

/-- The byte is not the first of a target unless the codec decodes requests, not the first of a
reason phrase unless it decodes responses, and it does not end the headers of a message of the other
kind or of another major version. -/
structure KeepsDirection (isRequest : Bool) (p : Fields) (ch : UInt8) : Prop where
  target : p.state = .reqSpacesBeforeUrl → ch ≠ SP →
    parseUrlChar (if p.method = .CONNECT then .reqServerStart else p.state) ch ≠ .dead → isRequest = true
  reason : p.state = .resStatusStart → ch ≠ CR → ch ≠ LF → isRequest = false
  headers : endsHeaders p ch = true → Directed isRequest p

instance : Decidable (Directed isRequest p) :=
  decidable_of_iff (p.httpMajor = 1 ∧ p.type = if isRequest then .request else .response)
    (Iff.intro (fun h => ⟨h.1, h.2⟩) fun h => And.intro h.major h.type)

instance : Decidable (KeepsDirection isRequest p ch) :=
  decidable_of_iff
    ((p.state = .reqSpacesBeforeUrl → ch ≠ SP →
        parseUrlChar (if p.method = .CONNECT then .reqServerStart else p.state) ch ≠ .dead → isRequest = true) ∧
      (p.state = .resStatusStart → ch ≠ CR → ch ≠ LF → isRequest = false) ∧
      (endsHeaders p ch = true → Directed isRequest p))
    (Iff.intro (fun h => ⟨h.1, h.2.1, h.2.2⟩) fun h => And.intro h.target (And.intro h.reason h.headers))

theorem allows_other {m : Mark} (hUrl : m ≠ .url) (hStatus : m ≠ .status) : Allows isRequest m :=
  ⟨fun h => absurd h hUrl, fun h => absurd h hStatus⟩

theorem messageDone_facings (p : Fields) : Facings isRequest (messageDone p) := by
  intro q
  dsimp only
  split
  · trivial
  · trivial

theorem headersDone_facings : Facings isRequest (headersDone p ch) := by
  unfold headersDone Fields.strictCheck
  split
  · trivial
  show Facings isRequest (if _ then _ else _)
  repeat' split
  all_goals first
    | trivial
    | exact fun q => trivial

theorem headersAlmostDone_facings (h : ch = LF → p.flags.trailing = false →
      (p.flags.chunked && p.flags.contentlength) = false → Directed isRequest p) :
    Facings isRequest (headersAlmostDone p ch) := by
  unfold headersAlmostDone Fields.strictCheck
  split
  · trivial
  case isFalse hLF =>
    split
    · exact messageDone_facings (p.updateState .messageDone)
    split
    · trivial
    case isFalse hTrailing hFraming =>
      have hDirected := h (by simpa using hLF) (by simpa using hTrailing) (by simpa using hFraming)
      refine ⟨⟨hDirected.major, hDirected.type⟩, fun n => ?_⟩
      dsimp only
      split
      · exact headersDone_facings
      · exact headersDone_facings
      · trivial

theorem headerFieldStart_facings (h : ch = LF → p.flags.trailing = false →
      (p.flags.chunked && p.flags.contentlength) = false → Directed isRequest p) :
    Facings isRequest (headerFieldStart p ch) := by
  unfold headerFieldStart
  split
  · trivial
  split
  · apply headersAlmostDone_facings
    intro hLF hTrailing hFraming
    have hDirected := h hLF hTrailing hFraming
    exact ⟨hDirected.major, hDirected.type⟩
  dsimp only
  split
  · trivial
  · exact .inr ⟨allows_other (by decide) (by decide), trivial⟩

theorem headerField_facings (read : Nat) : Facings isRequest (headerField p ch read) := by
  unfold headerField
  dsimp only
  split
  · show Facings isRequest (if _ then _ else _)
    split
    · trivial
    · trivial
  · split
    all_goals trivial

theorem headerValueStart_facings : Facings isRequest (headerValueStart p ch) := by
  refine .inr ⟨allows_other (by decide) (by decide), ?_⟩
  split
  all_goals trivial

theorem headerAlmostDone_facings : Facings isRequest (headerAlmostDone p ch) := by
  unfold headerAlmostDone
  split
  · trivial
  · trivial

theorem headerValue_facings (read : Nat) (h : HeaderState) : Facings isRequest (headerValue p ch read h) := by
  unfold headerValue
  split
  · trivial
  split
  · exact headerAlmostDone_facings
  split
  · trivial
  split
  all_goals trivial

theorem finishHeader_framing (p : Fields) :
    (finishHeader p).httpMajor = p.httpMajor ∧ (finishHeader p).type = p.type ∧
      (finishHeader p).flags.trailing = p.flags.trailing := by
  unfold finishHeader
  split
  all_goals exact ⟨rfl, rfl, rfl⟩

/-- Where a line is over, the parser looks for the end of the headers. -/
theorem endsHeaders_line (hState : p.state = .headerValueLws ∨ p.state = .headerValueDiscardLws) (hLF : ch = LF)
    (hBody : (finishHeader p).flags.trailing = false)
    (hFraming : ((finishHeader p).flags.chunked && (finishHeader p).flags.contentlength) = false) :
    endsHeaders p ch = true := by
  have hFinished : lineFinished p = finishHeader p := by
    unfold lineFinished
    cases hState with
    | inl hLws => rw [hLws]
    | inr hDiscard => rw [hDiscard]
  have hOpen : p.flags.trailing = false := (finishHeader_framing p).2.2.symm.trans hBody
  unfold endsHeaders
  rw [hFinished, hFraming, hOpen]
  cases hState with
  | inl hLws => simp [hLF, hLws]
  | inr hDiscard => simp [hLF, hDiscard]

theorem endsHeaders_start (hState : p.state = .headersAlmostDone ∨ p.state = .headerFieldStart) (hLF : ch = LF)
    (hBody : p.flags.trailing = false) (hFraming : (p.flags.chunked && p.flags.contentlength) = false) :
    endsHeaders p ch = true := by
  have hFinished : lineFinished p = p := by
    unfold lineFinished
    cases hState with
    | inl hDone => rw [hDone]
    | inr hStart => rw [hStart]
  unfold endsHeaders
  rw [hFinished, hFraming, hBody]
  cases hState with
  | inl hDone => simp [hLF, hDone]
  | inr hStart => simp [hLF, hStart]

theorem lineOver_facings (h : KeepsDirection isRequest p ch)
    (hState : p.state = .headerValueLws ∨ p.state = .headerValueDiscardLws) :
    Facings isRequest (headerFieldStart ((finishHeader p).updateState .headerFieldStart) ch) := by
  apply headerFieldStart_facings
  intro hLF hBody hFraming
  have hDirected := h.headers (endsHeaders_line hState hLF hBody hFraming)
  obtain ⟨hMajor, hType, -⟩ := finishHeader_framing p
  exact ⟨hMajor.trans hDirected.major, hType.trans hDirected.type⟩

theorem headersEnd_facings (h : KeepsDirection isRequest p ch)
    (hState : p.state = .headersAlmostDone ∨ p.state = .headerFieldStart) :
    ch = LF → p.flags.trailing = false → (p.flags.chunked && p.flags.contentlength) = false →
      Directed isRequest p :=
  fun hLF hBody hFraming => h.headers (endsHeaders_start hState hLF hBody hFraming)

theorem urlMark_facings (h : parseUrlChar q.state ch ≠ .dead → isRequest = true) :
    Facings isRequest (.mark .url (urlByte q ch)) := by
  by_cases hDead : parseUrlChar q.state ch = .dead
  · left
    simp only [urlByte, Fields.updateState, hDead, if_true]
    trivial
  · right
    refine ⟨⟨fun _ => h hDead, fun hStatus => by cases hStatus⟩, ?_⟩
    simp only [urlByte, Fields.updateState, hDead, if_false]
    trivial

theorem reqSpacesBeforeUrl_facings (h : KeepsDirection isRequest p ch) (hState : p.state = .reqSpacesBeforeUrl) :
    Facings isRequest (reqSpacesBeforeUrl p ch) := by
  unfold reqSpacesBeforeUrl
  split
  · trivial
  case isFalse hSpace =>
    apply urlMark_facings
    rw [apply_ite Fields.state]
    exact h.target hState hSpace

theorem resStatusStart_facings (h : KeepsDirection isRequest p ch) (hState : p.state = .resStatusStart) :
    Facings isRequest (resStatusStart p ch) := by
  unfold resStatusStart
  split
  · trivial
  split
  · trivial
  case isFalse hCR hLF =>
    exact .inr ⟨⟨fun hUrl => (by cases hUrl), fun _ => h.reason hState hCR hLF⟩, trivial⟩

theorem body_allowed : Allows isRequest .body := allows_other (by decide) (by decide)

theorem bodyIdentity_facings : Facings isRequest (bodyIdentity p) := by
  unfold bodyIdentity assert
  split
  · refine .inr ⟨body_allowed, ?_⟩
    dsimp only
    split
    · exact messageDone_facings (Fields.updateState { p with contentLength := p.contentLength - 1 } .messageDone)
    · trivial
  · trivial

theorem chunkData_facings : Facings isRequest (chunkData p) := by
  unfold chunkData assert
  split
  · split
    · refine .inr ⟨body_allowed, ?_⟩
      dsimp only
      split
      · trivial
      · trivial
    · trivial
  · trivial

theorem dispatch_facings (h : KeepsDirection isRequest p ch) : Facings isRequest (dispatch p ch) := by
  cases hs : p.state
  all_goals simp only [dispatch, hs]
  case reqSpacesBeforeUrl => exact reqSpacesBeforeUrl_facings h hs
  case resStatusStart => exact resStatusStart_facings h hs
  case headerFieldStart => exact headerFieldStart_facings (headersEnd_facings h (.inr hs))
  case headersAlmostDone => exact headersAlmostDone_facings (headersEnd_facings h (.inl hs))
  case headersDone => exact headersDone_facings
  case messageDone => exact messageDone_facings p
  case headerField => exact headerField_facings 0
  case headerValueStart => exact headerValueStart_facings
  case headerValue => exact headerValue_facings 0 p.headerState
  case headerAlmostDone => exact headerAlmostDone_facings
  case headerValueDiscardWs =>
    unfold headerValueDiscardWs
    repeat' split
    all_goals first
      | trivial
      | exact headerValueStart_facings
  case headerValueLws =>
    unfold headerValueLws
    split
    · exact headerValueStart_facings
    · exact lineOver_facings h (.inl hs)
  case headerValueDiscardLws =>
    unfold headerValueDiscardLws
    split
    · trivial
    · exact .inr ⟨allows_other (by decide) (by decide), lineOver_facings h (.inr hs)⟩
  case bodyIdentityEof => exact .inr ⟨body_allowed, trivial⟩
  case bodyIdentity => exact bodyIdentity_facings
  case chunkData => exact chunkData_facings
  case dead =>
    split
    · trivial
    · trivial
  all_goals
    simp only [startReqOrRes, startReq, startRes, resOrRespH, literal, firstHttpMajor, httpMajor,
      firstHttpMinor, httpMinorDigit, resHttpMinor, resFirstStatusCode, resStatusCode, resStatus, reqMethod,
      urlStart, urlRest, urlByte, reqHttpStart, reqHttpMinor, reqLineAlmostDone, chunkSizeStart, chunkSize,
      chunkParameters, chunkSizeAlmostDone, chunkDataAlmostDone, chunkDataDone, Fields.strictCheck, assert]
    repeat' split
    all_goals trivial

theorem step_facings {l : Locals} (h : KeepsDirection isRequest l.fields ch) :
    Facings isRequest (step l.fields l.loop ch) := by
  cases l.loop with
  | outer =>
      rw [step]
      split
      · exact dispatch_facings h
      · exact dispatch_facings h
  | field read => exact headerField_facings read
  | value read hv skip =>
      rw [step]
      cases skip with
      | none => exact headerValue_facings read hv
      | some k =>
          rw [headerValueLoop]
          split
          · exact headerValue_facings read hv
          · trivial

/-! ### Runs -/

/-- An assertion of the codec fails, or it casts an object to what it is not. -/
def Fault.OfDirection (f : Fault) : Prop :=
  f = .noData ∨ f = .notRequest ∨ f = .notResponse ∨ f = .httpMajor ∨ f = .headersCompleted

theorem Facing.unexplained (hInstalls : Installs cb isRequest) (h : Facing isRequest v) {f : Fault}
    (hExplains : Explains cb isRequest v f) : ¬ f.OfDirection := by
  rintro (rfl | rfl | rfl | rfl | rfl)
  · obtain ⟨m, user, hNone⟩ := hExplains
    obtain ⟨n, hNew, -⟩ := hInstalls.begin m user
    rw [hNone] at hNew
    cases hNew
  · have hKind := h.target hExplains.1
    rw [hExplains.2] at hKind
    cases hKind
  · have hKind := h.reason hExplains.1
    rw [hExplains.2] at hKind
    cases hKind
  · obtain ⟨p, hFraming, hMajor⟩ := hExplains
    exact hMajor (h.framing p hFraming).major
  · exact hExplains

/-- Every message whose headers have been announced is of the kind and the version. -/
def AllDirected (isRequest : Bool) (trace : List Event) : Prop :=
  ∀ p m, .headersDone p m ∈ trace → Directed isRequest p ∧ m.isRequest = isRequest

theorem AllDirected.append {trace evs : List Event} (h : AllDirected isRequest trace)
    (hOthers : ∀ p m, .headersDone p m ∉ evs) : AllDirected isRequest (trace ++ evs) := by
  intro p m hDone
  exact h p m ((List.mem_append.mp hDone).resolve_right (hOthers p m))

/-- The codec holds what is spelled, in an object of its kind. -/
structure HoldsKind (isRequest : Bool) (a : Assembly) (d : Impl υ) : Prop where
  tracks : Tracks a d
  kind : a.begun = true → d.object.isRequest = isRequest
  announced : AllDirected isRequest d.trace

/-- What is announced is an object of the kind, with what the parser has found. -/
theorem HoldsKind.announces {d e : Impl υ} {c : Callback} (h : HoldsKind isRequest a d)
    (hFacing : Facing isRequest (assembler.next a c)) (hAccepts : Impl.Accepts cb d c e) :
    AllDirected isRequest e.trace := by
  rcases hAccepts.records with hMinor | ⟨p, rfl, -⟩
  · obtain ⟨evs, hTrace, hEvents⟩ := hMinor.trace
    rw [hTrace]
    apply h.announced.append
    intro p m hDone
    cases hEvents _ hDone
  have hDirected : Directed isRequest p := hFacing.framing p rfl
  have hSet : (d.setVersion p).object.isRequest = d.object.isRequest := Message.isRequest_setData _ _
  have hAnnounce : ∀ {f : Impl υ}, d.installed = true → AllDirected isRequest f.trace →
      f.object.isRequest = d.object.isRequest → AllDirected isRequest (f.announceHeaders cb p).trace := by
    intro f hInstalled hTrace hObject
    have hKind := h.kind (h.tracks.installed ▸ hInstalled)
    intro q m hDone
    rcases List.mem_append.mp hDone with hOld | hNew
    · exact hTrace q m hOld
    · cases List.mem_singleton.mp hNew
      exact ⟨hDirected, (completeHeaders_isRequest p f.object).trans (hObject.trans hKind)⟩
  have hBefore : AllDirected isRequest (d.setVersion p).trace := by
    rw [setVersion_trace]
    exact h.announced
  cases hAccepts with
  | headersComplete hMajor hInstalled hGot => exact hAnnounce hInstalled hBefore hSet
  | lastHeader hMajor hInstalled hGot hHeader =>
      apply hAnnounce hInstalled
      · exact hBefore.append fun q m hDone => by cases List.mem_singleton.mp hDone
      · exact (Message.isRequest_setData _ _).trans hSet

theorem part_of_line {s : State} {m : Mark} (hMark : startMark s = some m) (hLine : m = .url ∨ m = .status) :
    part s = some .line := by
  rcases hLine with rfl | rfl
  · cases s
    all_goals first
      | rfl
      | cases hMark
  · cases s
    all_goals first
      | rfl
      | cases hMark

/-- A mark that is set again for the next buffer. -/
theorem Facing.restart (h : Facing isRequest v) (hPlaced : Placed p v) :
    Facing isRequest ((startMark p.state).elim v fun m => v.start m) := by
  cases hMark : startMark p.state with
  | none => exact h
  | some m =>
      refine h.start ⟨fun hUrl => h.target ?_, fun hStatus => h.reason ?_⟩
      · exact (hPlaced.inLine (part_of_line hMark (.inl hUrl))).target (hUrl ▸ hMark)
      · exact (hPlaced.inLine (part_of_line hMark (.inr hStatus))).reason (hStatus ▸ hMark)

theorem settle_state (p : Fields) (loop : Loop) : (loop.settle p).state = p.state := by
  cases loop with
  | outer | field | value => rfl

theorem direction_invariant (hInstalls : Installs cb isRequest) :
    Invariant cb assembler (fun v => v.misplaced = false ∧ Facing isRequest v) (HoldsKind isRequest)
      (fun d => AllDirected isRequest d.trace) (fun f => ¬ f.OfDirection) (fun p _ _ v => Placed p v ∧ Facing isRequest v)
      (fun l ch => KeepsDirection isRequest l.fields ch) where
  listens :=
    { ok := by
        intro a d c e hHolds hGood hApply
        have hEnds : Impl.Ends cb a d c (d.apply cb c) := Impl.apply_ends hHolds.tracks c
        rw [hApply] at hEnds
        exact ⟨Impl.Accepts.tracks hHolds.tracks hEnds, accepts_kind hInstalls hHolds.kind hGood.1 hEnds,
          hHolds.announces hGood.2 hEnds⟩
      failed := by
        intro a d c err e hHolds _ hApply
        have hEnds : Impl.Ends cb a d c (d.apply cb c) := Impl.apply_ends hHolds.tracks c
        rw [hApply] at hEnds
        obtain ⟨-, bytes, rfl⟩ := hEnds
        exact hHolds.announced
      fault := by
        intro a d c f hHolds hGood hApply
        have hEnds : Impl.Ends cb a d c (d.apply cb c) := Impl.apply_ends hHolds.tracks c
        rw [hApply] at hEnds
        cases begun_or_applies hInstalls d hGood.1 with
        | inl hBegun =>
            have hExplains := hEnds.resolve_left (by rw [hGood.1]; exact Bool.false_ne_true)
            rw [hHolds.kind hBegun] at hExplains
            exact hGood.2.unexplained hInstalls hExplains
        | inr hApplies =>
            obtain ⟨e, hOk⟩ := hApplies
            rw [hOk] at hApply
            cases hApply
      always := fun hHolds => hHolds.announced }
  step hl h hKeeps := facing_wp (step_placing hl h.1) (step_facings hKeeps) h.2
  good h := ⟨h.1.unmisplaced, h.2⟩
  cut := by
    intro l v hl h
    refine ⟨placed_cut h.1, ?_⟩
    rw [settle_state]
    exact h.2.restart h.1
  error e hAnnounced := by
    refine ⟨{}, ⟨Impl.reset_tracks [] false, (fun hBegun => by cases hBegun), ?_⟩, placed_fresh [], .fresh [] false⟩
    exact hAnnounced.append fun q m hDone => by cases List.mem_singleton.mp hDone

/-- Every message that has been announced is of the kind and the version that the codec decodes, and
every other message that is over has been rejected: it has been told of an error, and of nothing else.
Only the last message need not be over. -/
structure WellDirected (isRequest : Bool) (trace : List Event) : Prop where
  announced : AllDirected isRequest trace
  rejected : ∀ es ∈ messagesOf trace, isOver es = true → (∀ p m, .headersDone p m ∉ es) →
    ∃ e, toldOf es = [.error e]
  ended : ∀ es ∈ (messagesOf trace).dropLast, isOver es = true

/-- A message that is over without headers is told of an error only. -/
theorem Recited.rejected {es : List Event} (h : Recited (toldOf es)) (hOver : isOver es = true)
    (hHeaders : ∀ p m, .headersDone p m ∉ es) : ∃ e, toldOf es = [.error e] := by
  have hTold : ∀ p m, .headersDone p m ∉ toldOf es := fun p m hDone => hHeaders p m (mem_of_toldOf hDone)
  rw [← isOver_toldOf] at hOver
  generalize toldOf es = told at h hOver hTold
  cases h with
  | nothing => cases hOver
  | refused e => exact ⟨e, rfl⟩
  | part p m => exact absurd List.mem_cons_self (hTold p m)
  | broken p m => exact absurd List.mem_cons_self (hTold p m)
  | whole s p m => exact absurd List.mem_cons_self (hTold p m)

/-- All messages but the last one are over. -/
theorem Transcript.ended {past now : List Event} (h : Transcript past) (hNow : Unfinished now) :
    ∀ es ∈ (messagesOf (past ++ now)).dropLast, isOver es = true := by
  intro es hEs
  apply (h.complete es _).ended
  cases hNow with
  | nothing =>
      rw [List.append_nil] at hEs
      exact List.dropLast_subset _ hEs
  | head lines =>
      rw [messagesOf_message past (within_map (fun _ => rfl) lines), List.dropLast_concat] at hEs
      exact hEs
  | tail s p m bodies =>
      rw [messageEvents_eq, messagesOf_message past (within_section s.headers p m bodies s.trailers),
        List.dropLast_concat] at hEs
      exact hEs

/-- If no step begins the target or the reason phrase of a message of the other kind, and none ends
the headers of a message of the other kind or of another major version, no assertion of the codec
fails, it casts no object to what it is not, and it announces no such message: all of them are
rejected with an error. -/
theorem direction_safe (hFatal : cb.Fatal) (hInstalls : Installs cb isRequest) (object : Message) (user : υ)
    (pieces : List ByteString)
    (hKeeps : ∀ s ∈ (HttpCodec.init object user).decodeAllSteps cb pieces,
      KeepsDirection isRequest s.1.fields s.2) :
    (¬ ∃ f : Fault, f.OfDirection ∧ (HttpCodec.init object user).decodeAll cb pieces = .error f) ∧
      ∀ c results, (HttpCodec.init object user).decodeAll cb pieces = .ok (c, results) →
        WellDirected isRequest c.impl.trace := by
  have hStart : Conducted assembler (HoldsKind isRequest) (fun p _ _ v => Placed p v ∧ Facing isRequest v)
      (HttpCodec.init object user) :=
    ⟨⟨rfl, rfl⟩, enter_regular_fresh, {}, ⟨Impl.reset_tracks (d := Impl.init object user) [] false,
      (fun hBegun => by cases hBegun), fun _ _ hDone => by cases hDone⟩, placed_fresh [], .fresh [] false⟩
  have hRun := decodeAll_keeps (direction_invariant hInstalls) hFatal hStart hKeeps
  constructor
  · rintro ⟨f, hOf, hFault⟩
    rw [hFault] at hRun
    cases hRun with
    | inl hOther => exact hOther hOf
    | inr hAssertion =>
        rw [hAssertion] at hOf
        rcases hOf with h | h | h | h | h
        all_goals cases h
  · intro c results hOk
    obtain ⟨past, now, hTrace, hPast, hNow⟩ := decodeAll_transcript hFatal object user pieces c results hOk
    rw [hOk] at hRun
    obtain ⟨a, hHolds, -⟩ := hRun.gathered
    refine ⟨hHolds.announced, ?_, ?_⟩
    · intro es hEs hOver hHeaders
      rw [hTrace] at hEs
      exact (hPast.recited hNow es hEs).rejected hOver hHeaders
    · rw [hTrace]
      exact hPast.ended hNow

/-- The fault in which the decoding ends. -/
def faultOf {α : Type} : Except Fault α → Option Fault
  | .error f => some f
  | .ok _ => none

theorem eq_of_faultOf {α : Type} {r : Except Fault α} {f : Fault} (h : faultOf r = some f) : r = .error f := by
  cases r with
  | error g => rw [Option.some.inj h]
  | ok x => cases h

/-- The kinds that the parser has found in the messages that have been announced. -/
def announcedTypes (trace : List Event) : List ParserType :=
  trace.filterMap fun
    | .headersDone p _ => some p.type
    | _ => none

theorem mem_announcedTypes {trace : List Event} {t : ParserType} (h : t ∈ announcedTypes trace) :
    ∃ p m, .headersDone p m ∈ trace ∧ p.type = t := by
  obtain ⟨ev, hEv, hType⟩ := List.mem_filterMap.mp h
  cases ev with
  | headersDone p m => exact ⟨p, m, hEv, Option.some.inj hType⟩
  | _ => cases hType

/-- A request without a version, a response that a server reads, a request that a client reads; and a
response without a reason phrase that a server reads, and is told of as a request. -/
theorem direction_faults :
    (HttpCodec.init (.request .fresh) ()).decodeAll handing [ofString "GET /\r\n\r\n"] = .error .httpMajor ∧
      (HttpCodec.init (.request .fresh) ()).decodeAll handing [ofString "HTTP/1.1 200 OK\r\n"] = .error .notResponse ∧
      (HttpCodec.init (.response (.fresh 0)) ()).decodeAll (receiving 0) [ofString "GET / HTTP/1.1\r\n"] =
        .error .notRequest ∧
      ∃ c, (HttpCodec.init (.request .fresh) ()).decodeAll handing [ofString "HTTP/1.1 200\r\n\r\n"] = .ok (c, [true]) ∧
        ¬ WellDirected true c.impl.trace := by
  refine ⟨eq_of_faultOf ?_, eq_of_faultOf ?_, eq_of_faultOf ?_, ?_⟩
  · decide +kernel
  · decide +kernel
  · decide +kernel
  · have hTypes : ((HttpCodec.init (.request .fresh) ()).decodeAll handing
        [ofString "HTTP/1.1 200\r\n\r\n"]).toOption.map (fun r => (r.2, announcedTypes r.1.impl.trace)) =
          some ([true], [.response]) := by
      decide +kernel
    obtain ⟨⟨c, results⟩, hRun, hPair⟩ := Option.map_eq_some_iff.mp hTypes
    obtain ⟨rfl, hTypes⟩ := Prod.mk.inj hPair
    refine ⟨c, ?_, ?_⟩
    · rcases hDecode : (HttpCodec.init (.request .fresh) ()).decodeAll handing
        [ofString "HTTP/1.1 200\r\n\r\n"] with f | r
      · rw [hDecode] at hRun
        cases hRun
      · rw [hDecode] at hRun
        exact congrArg Except.ok (Option.some.inj hRun)
    · intro h
      have hMem : ParserType.response ∈ announcedTypes c.impl.trace := by
        rw [hTypes]
        exact List.mem_singleton_self _
      obtain ⟨p, m, hDone, hType⟩ := mem_announcedTypes hMem
      have hRequest := (h.announced p m hDone).1.type
      rw [hType] at hRequest
      cases hRequest

/-- A request whose headers are cut, and one that breaks off. -/
def postPieces : List ByteString :=
  [ofString "POST /a HTTP/1.1\r\nhost: b\r\nconte",
    ofString "nt-length: 2\r\n\r\nabGET / HTTP/1.0\r\nx y: 1\r\n\r\n"]

theorem direction_safe_post :
    (¬ ∃ f : Fault, f.OfDirection ∧ (HttpCodec.init (.request .fresh) ()).decodeAll handing postPieces = .error f) ∧
      ∀ c results, (HttpCodec.init (.request .fresh) ()).decodeAll handing postPieces = .ok (c, results) →
        WellDirected true c.impl.trace := by
  have hInstalls : Installs handing true := ⟨fun _ _ => ⟨_, rfl, rfl⟩, fun _ _ => rfl⟩
  exact direction_safe (fun _ _ => rfl) hInstalls (.request .fresh) () postPieces (by decide +kernel)

end Doormat.Http
