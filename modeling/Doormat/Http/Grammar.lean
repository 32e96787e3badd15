import Doormat.Parser.Cut
import Doormat.Http.Assembly

/-! The order of the callbacks of a message: the parser calls each of them only where a
message has a place for it. -/
namespace Doormat.Http

open Bytes Doormat.Parser

/-- The part of a message that a state reads. -/
inductive Part
  | idle | line | header | body
deriving DecidableEq

/-- The part that a state between two bytes reads, if it is one that a parser for both
directions comes to. -/
def part : State → Option Part
  | .startReqOrRes => some .idle
  | .resOrRespH | .resHT | .resHTT | .resHTTP | .resFirstHttpMajor | .resHttpMajor
  | .resFirstHttpMinor | .resHttpMinor | .resFirstStatusCode | .resStatusCode | .resStatusStart
  | .resStatus | .resLineAlmostDone | .reqMethod | .reqSpacesBeforeUrl | .reqSchema
  | .reqSchemaSlash | .reqSchemaSlashSlash | .reqServerStart | .reqServer | .reqServerWithAt
  | .reqPath | .reqQueryStringStart | .reqQueryString | .reqFragmentStart | .reqFragment
  | .reqHttpStart | .reqHttpH | .reqHttpHT | .reqHttpHTT | .reqHttpHTTP | .reqFirstHttpMajor
  | .reqHttpMajor | .reqFirstHttpMinor | .reqHttpMinor | .reqLineAlmostDone => some .line
  | .headerFieldStart | .headerField | .headerValueDiscardWs | .headerValueDiscardWsAlmostDone
  | .headerValueDiscardLws | .headerValueStart | .headerValue | .headerValueLws
  | .headerAlmostDone | .headersAlmostDone => some .header
  | .chunkSizeStart | .chunkSize | .chunkParameters | .chunkSizeAlmostDone | .chunkData
  | .chunkDataAlmostDone | .chunkDataDone | .bodyIdentity | .bodyIdentityEof => some .body
  | .dead | .startReq | .startRes | .resH | .headersDone | .messageDone => none

/-- Nothing has been said that belongs after the headers. -/
structure Assembly.Unframed (v : Assembly) : Prop where
  framing : v.framing = none
  body : v.body = []
  trailers : v.trailers = []
  final : v.final = false

/-- No header line has been said, not even in part. -/
structure Assembly.Unlined (v : Assembly) : Prop where
  pending : v.pending = false
  headers : v.headers = []
  key : v.key = []
  value : v.value = []

/-- What has been said within the first line. -/
structure InLine (p : Fields) (v : Assembly) : Prop where
  begun : v.begun = true
  unframed : v.Unframed
  unlined : v.Unlined
  trailing : p.flags.trailing = false
  target : startMark p.state = some .url → v.target.isSome = true
  reason : startMark p.state = some .status → v.reason.isSome = true

/-- What has been said within the headers or the trailers. -/
structure InHeader (p : Fields) (v : Assembly) : Prop where
  begun : v.begun = true
  unframed : p.flags.trailing = false → v.Unframed
  framing : p.flags.trailing = true → v.framing.isSome = true
  field : p.state = .headerField → v.pending = false
  value : p.state = .headerValue → v.pending = true

/-- What has been said within the body. -/
structure InBody (v : Assembly) : Prop where
  begun : v.begun = true
  framing : v.framing.isSome = true
  pending : v.pending = false
  trailers : v.trailers = []
  final : v.final = false

/-- What the parser has said at a state. -/
def Placed (p : Fields) (v : Assembly) : Prop :=
  v.misplaced = false ∧ match part p.state with
    | some .idle => v = { done := v.done }
    | some .line => InLine p v
    | some .header => InHeader p v
    | some .body => InBody v
    | none => False

/-- A step after which everything is in its place. -/
abbrev Placing (prog : Prog) (ch : UInt8) (cur : Option Mark) (v : Assembly) : Prop :=
  prog.wp assembler (fun v => v.misplaced = false) ch (fun p _ _ v => Placed p v) cur v

variable {p q : Fields} {v : Assembly} {ch : UInt8}

theorem Placed.unmisplaced (h : Placed p v) : v.misplaced = false := h.1

theorem Placed.inLine (h : Placed p v) (hPart : part p.state = some .line) : InLine p v := by
  have hMatch := h.2
  rw [hPart] at hMatch
  exact hMatch

theorem Placed.inHeader (h : Placed p v) (hPart : part p.state = some .header) : InHeader p v := by
  have hMatch := h.2
  rw [hPart] at hMatch
  exact hMatch

theorem Placed.inBody (h : Placed p v) (hPart : part p.state = some .body) : InBody v := by
  have hMatch := h.2
  rw [hPart] at hMatch
  exact hMatch

theorem placed_idle (hPart : part p.state = some .idle) (hMisplaced : v.misplaced = false)
    (h : v = { done := v.done }) : Placed p v := by
  refine ⟨hMisplaced, ?_⟩
  rw [hPart]
  exact h

theorem placed_line (hPart : part p.state = some .line) (hMisplaced : v.misplaced = false)
    (h : InLine p v) : Placed p v := by
  refine ⟨hMisplaced, ?_⟩
  rw [hPart]
  exact h

theorem placed_header (hPart : part p.state = some .header) (hMisplaced : v.misplaced = false)
    (h : InHeader p v) : Placed p v := by
  refine ⟨hMisplaced, ?_⟩
  rw [hPart]
  exact h

theorem placed_body (hPart : part p.state = some .body) (hMisplaced : v.misplaced = false)
    (h : InBody v) : Placed p v := by
  refine ⟨hMisplaced, ?_⟩
  rw [hPart]
  exact h

theorem placing_next {loop : Loop} (h : Placed q v) : Placing (.next q loop) ch none v := h

theorem placing_more {loop : Loop} {m : Mark} (h : Placed q (v.extend m ch)) :
    Placing (.next q loop) ch (some m) v := h

theorem placing_mark {m : Mark} {prog : Prog} (h : Placing prog ch (some m) (v.start m)) :
    Placing (.mark m prog) ch none v := h

theorem placing_clearNread {prog : Prog} {cur : Option Mark} (h : Placing prog ch cur v) :
    Placing (.clearNread prog) ch cur v := h

theorem placing_count {prog : Prog} {cur : Option Mark} {n : Nat} (h : Placing prog ch cur v) :
    Placing (.count q n prog) ch cur v := h

/-! ### The first line -/

theorem startReqOrRes_placing (h : Placed p v) (hState : p.state = .startReqOrRes) :
    Placing (startReqOrRes p ch) ch none v := by
  have hMisplaced := h.unmisplaced
  have hIdle : v = { done := v.done } := by
    have hMatch := h.2
    rw [hState] at hMatch
    exact hMatch
  have hBegin : ∀ q q' : Fields, part q'.state = some .line → q'.flags.trailing = false →
      startMark q'.state = none →
        Placing (.notify q .messageBegin true q'.advance) ch none v := by
    intro q q' hPart hTrailing hMark
    have hNew : assembler.notify q .messageBegin v = { done := v.done, begun := true } := by
      rw [hIdle]
      rfl
    refine ⟨rfl, ?_, ?_⟩
    · rw [hNew]
    · rw [hNew]
      apply placed_line hPart rfl
      exact
        { begun := rfl
          unframed := ⟨rfl, rfl, rfl, rfl⟩
          unlined := ⟨rfl, rfl, rfl, rfl⟩
          trailing := hTrailing
          target := by simp [hMark]
          reason := by simp [hMark] }
  unfold startReqOrRes
  split
  · exact h
  case isFalse hEnd =>
    dsimp only
    split
    · exact hBegin _ _ rfl rfl rfl
    · unfold startReq
      rw [if_neg hEnd]
      dsimp only
      split
      · trivial
      split
      · trivial
      · exact hBegin _ _ rfl rfl rfl

/-- On to the next byte of the line, with no mark set. -/
theorem InLine.advance (h : InLine p v) (hMisplaced : v.misplaced = false)
    (hPart : part q.state = some .line) (hMark : startMark q.state = none)
    (hFlags : q.flags = p.flags) : Placed q v :=
  placed_line hPart hMisplaced
    { h with
      trailing := hFlags ▸ h.trailing
      target := by simp [hMark]
      reason := by simp [hMark] }

/-- On to the headers. -/
theorem InLine.toHeader (h : InLine p v) (hMisplaced : v.misplaced = false)
    (hState : q.state = .headerFieldStart) (hFlags : q.flags = p.flags) : Placed q v := by
  apply placed_header (by rw [hState]; rfl) hMisplaced
  exact
    { begun := h.begun
      unframed := fun _ => h.unframed
      framing := by simp [hFlags, h.trailing]
      field := by simp [hState]
      value := by simp [hState] }

/-- The states of the first line in which no mark is set and none is called for. -/
theorem line_placing (h : Placed p v) (hPart : part p.state = some .line)
    (hMark : p.state.admits none) (hUrl : p.state ≠ .reqSpacesBeforeUrl)
    (hStatus : p.state ≠ .resStatusStart) : Placing (dispatch p ch) ch none v := by
  have hMisplaced := h.unmisplaced
  have hLine := h.inLine hPart
  have hAdvance : ∀ q : Fields, part q.state = some .line → startMark q.state = none →
      q.flags = p.flags → Placed q v := fun q => hLine.advance hMisplaced
  have hHeader : ∀ q : Fields, q.state = .headerFieldStart → q.flags = p.flags → Placed q v :=
    fun q => hLine.toHeader hMisplaced
  have hStay : ∀ q : Fields, q.state = p.state → q.flags = p.flags → Placed q v := by
    intro q hState
    exact hAdvance q (hState ▸ hPart) (hState ▸ startMark_of_admits_none hMark)
  cases hs : p.state
  all_goals
    simp only [hs, part, State.admits, reduceCtorEq, Option.some.injEq, ne_eq, not_true_eq_false,
      decide_false, Bool.false_eq_true] at hPart hMark hUrl hStatus
  all_goals
    simp only [dispatch, hs, resOrRespH, literal, firstHttpMajor, httpMajor, firstHttpMinor,
      httpMinorDigit, resHttpMinor, resFirstStatusCode, resStatusCode, reqMethod, reqHttpStart,
      reqHttpMinor, reqLineAlmostDone, Fields.strictCheck, Fields.advance, Fields.fail,
      Fields.updateState]
    repeat' split
    all_goals first
      | trivial
      | apply placing_next
    all_goals first
      | exact hStay _ rfl rfl
      | exact hAdvance _ rfl rfl rfl
      | exact hHeader _ rfl rfl

/-- On to the next byte of a target or a reason phrase, which is one of its own. -/
theorem InLine.extend (h : InLine p v) (hMisplaced : v.misplaced = false) {m : Mark}
    (hMark : startMark q.state = some m) (hLine : part q.state = some .line)
    (hFlags : q.flags = p.flags) (hUrl : m = .url → v.target.isSome = true)
    (hStatus : m = .status → v.reason.isSome = true) : Placed q (v.extend m ch) := by
  have hMarked : m = .url ∨ m = .status := by
    cases hs : q.state
    all_goals rw [hs] at hMark hLine
    all_goals first
      | exact .inl (Option.some.inj hMark).symm
      | exact .inr (Option.some.inj hMark).symm
      | exact absurd hLine (by decide)
      | cases hMark
  rcases hMarked with rfl | rfl
  · apply placed_line (v := v.extend .url ch) hLine hMisplaced
    exact
      { begun := h.begun
        unframed := { h.unframed with }
        unlined := { h.unlined with }
        trailing := hFlags ▸ h.trailing
        target := fun _ => by simpa [Assembly.extend] using hUrl rfl
        reason := by simp [hMark] }
  · apply placed_line (v := v.extend .status ch) hLine hMisplaced
    exact
      { begun := h.begun
        unframed := { h.unframed with }
        unlined := { h.unlined with }
        trailing := hFlags ▸ h.trailing
        target := by simp [hMark]
        reason := fun _ => by simpa [Assembly.extend] using hStatus rfl }

theorem part_of_url {s : State} (h : s.admits (some .url)) : part s = some .line := by
  cases s
  all_goals first | rfl | cases h

theorem urlByte_placing (h : InLine p v) (hMisplaced : v.misplaced = false)
    (hTarget : v.target.isSome = true) : Placing (urlByte p ch) ch (some .url) v := by
  unfold urlByte
  dsimp only
  split
  · trivial
  case isFalse hDead =>
    have hUrl : (parseUrlChar p.state ch).admits (some .url) :=
      (parseUrlChar_admits p.state ch).resolve_left hDead
    apply placing_more
    exact h.extend hMisplaced (startMark_of_admits hUrl nofun) (part_of_url hUrl) rfl
      (fun _ => hTarget) nofun

theorem InLine.startUrl (h : InLine p v) (hFlags : q.flags = p.flags)
    (hMark : startMark q.state ≠ some .status) : InLine q (v.start .url) :=
  { begun := h.begun
    unframed := { h.unframed with }
    unlined := { h.unlined with }
    trailing := hFlags ▸ h.trailing
    target := fun _ => rfl
    reason := fun hStatus => absurd hStatus hMark }

theorem reqSpacesBeforeUrl_placing (h : Placed p v) (hState : p.state = .reqSpacesBeforeUrl) :
    Placing (reqSpacesBeforeUrl p ch) ch none v := by
  have hLine := h.inLine (by rw [hState]; rfl)
  have hStart : (v.start .url).misplaced = false := by
    simp [Assembly.start, h.unmisplaced, hLine.begun, hLine.unframed.framing]
  unfold reqSpacesBeforeUrl
  split
  · exact h
  · apply urlByte_placing (p := if p.method = .CONNECT then p.updateState .reqServerStart else p) _
      hStart rfl
    apply hLine.startUrl
    · split <;> rfl
    · split
      · simp [Fields.updateState, startMark]
      · simp [hState, startMark]

theorem url_placing (h : Placed p v) (hUrl : startMark p.state = some .url) :
    Placing (urlStart p ch) ch (some .url) v ∧ Placing (urlRest p ch) ch (some .url) v := by
  have hPart : part p.state = some .line := by
    cases hs : p.state
    all_goals rw [hs] at hUrl
    all_goals first | rfl | cases hUrl
  have hLine := h.inLine hPart
  have hByte : Placing (urlByte p ch) ch (some .url) v :=
    urlByte_placing hLine h.unmisplaced (hLine.target hUrl)
  constructor
  · unfold urlStart
    split
    · trivial
    · exact hByte
  · unfold urlRest
    split
    · refine ⟨h.unmisplaced, placing_next ?_⟩
      exact hLine.advance h.unmisplaced rfl rfl rfl
    split
    · refine ⟨h.unmisplaced, placing_next ?_⟩
      split
      · exact hLine.advance h.unmisplaced rfl rfl rfl
      · exact hLine.toHeader h.unmisplaced rfl rfl
    · exact hByte

theorem status_placing (h : Placed p v) :
    (p.state = .resStatusStart → Placing (resStatusStart p ch) ch none v) ∧
      (p.state = .resStatus → Placing (resStatus p ch) ch (some .status) v) := by
  constructor
  · intro hState
    have hLine := h.inLine (by rw [hState]; rfl)
    have hStart : (v.start .status).misplaced = false := by
      simp [Assembly.start, h.unmisplaced, hLine.begun, hLine.unframed.framing]
    unfold resStatusStart
    split
    · exact placing_next (hLine.advance h.unmisplaced rfl rfl rfl)
    split
    · exact placing_next (hLine.toHeader h.unmisplaced rfl rfl)
    · have hLine' : InLine p (v.start .status) :=
        { begun := hLine.begun
          unframed := { hLine.unframed with }
          unlined := { hLine.unlined with }
          trailing := hLine.trailing
          target := by simp [hState, startMark]
          reason := by simp [hState, startMark] }
      apply placing_mark
      apply placing_more
      exact hLine'.extend hStart rfl rfl rfl (fun h => by cases h) (fun _ => rfl)
  · intro hState
    have hLine := h.inLine (by rw [hState]; rfl)
    unfold resStatus
    split
    · refine ⟨h.unmisplaced, placing_next ?_⟩
      exact hLine.advance h.unmisplaced rfl rfl rfl
    split
    · refine ⟨h.unmisplaced, placing_next ?_⟩
      exact hLine.toHeader h.unmisplaced rfl rfl
    · apply placing_more
      apply hLine.extend h.unmisplaced (by rw [hState]; rfl) (by rw [hState]; rfl) rfl
      · exact (fun h => by cases h)
      · exact fun _ => hLine.reason (by rw [hState]; rfl)

/-! ### The headers -/

/-- `q` has the first line of `p`, and reads the trailers if `p` does. -/
structure Alike (p q : Fields) : Prop where
  type : q.type = p.type
  httpMajor : q.httpMajor = p.httpMajor
  statusCode : q.statusCode = p.statusCode
  method : q.method = p.method
  trailing : q.flags.trailing = p.flags.trailing

theorem Alike.refl (p : Fields) : Alike p p := ⟨rfl, rfl, rfl, rfl, rfl⟩

theorem Alike.trans {p q r : Fields} (h : Alike p q) (h' : Alike q r) : Alike p r where
  type := h'.type.trans h.type
  httpMajor := h'.httpMajor.trans h.httpMajor
  statusCode := h'.statusCode.trans h.statusCode
  method := h'.method.trans h.method
  trailing := h'.trailing.trans h.trailing

theorem matchNext_alike (p : Fields) (c : UInt8) (constant : ByteString)
    (done other h : HeaderState) : Alike p (matchNext p c constant done other h).1 := by
  unfold matchNext
  dsimp only
  repeat' split
  all_goals exact ⟨rfl, rfl, rfl, rfl, rfl⟩

theorem fieldSwitch_alike {p p' : Fields} {ch c : UInt8} (h : fieldSwitch p ch c = .go p') :
    Alike p p' := by
  have hName : ∀ (constant : ByteString) (done : HeaderState),
      Switch.go { (matchNext p c constant done .general p.headerState).1 with
        headerState := (matchNext p c constant done .general p.headerState).2 } = .go p' →
          Alike p p' := by
    intro constant done hEq
    have hNext := matchNext_alike p c constant done .general p.headerState
    cases hEq
    exact { hNext with }
  unfold fieldSwitch at h
  split at h
  case h_5 | h_6 | h_8 | h_9 => exact hName _ _ h
  case h_7 =>
    have hNext := matchNext_alike p c (ofString "content-length") .contentLength .general p.headerState
    dsimp only at h
    split at h
    · split at h
      · cases h
      · cases h
        exact { hNext with }
    · cases h
      exact { hNext with }
  case h_10 | h_11 | h_12 | h_13 =>
    split at h
    all_goals
      cases h
      exact ⟨rfl, rfl, rfl, rfl, rfl⟩
  all_goals first
    | cases h
      done
    | cases h
      exact ⟨rfl, rfl, rfl, rfl, rfl⟩

theorem valueStartSwitch_alike {p p' : Fields} {ch c : UInt8}
    (h : valueStartSwitch p ch c = .go p') : Alike p p' := by
  unfold valueStartSwitch at h
  split at h
  case h_3 =>
    split at h
    · cases h
    · cases h
      exact ⟨rfl, rfl, rfl, rfl, rfl⟩
  all_goals
    cases h
    exact ⟨rfl, rfl, rfl, rfl, rfl⟩

theorem valueSwitch_alike {p : Fields} {h : HeaderState} {ch c : UInt8}
    {r : Fields × HeaderState} (hGo : valueSwitch p h ch c = .go r) : Alike p r.1 := by
  unfold valueSwitch at hGo
  split at hGo
  all_goals
    repeat' split at hGo
  all_goals first
    | cases hGo
      exact matchNext_alike p c _ _ _ _
    | cases hGo
      exact ⟨rfl, rfl, rfl, rfl, rfl⟩
    | cases hGo

theorem finishHeader_alike (p : Fields) : Alike p (finishHeader p) := by
  unfold finishHeader
  split
  all_goals exact ⟨rfl, rfl, rfl, rfl, rfl⟩

/-- On to a state of the headers in which no mark is set. -/
theorem InHeader.goto (h : InHeader p v) (hAlike : Alike p q) (hField : q.state ≠ .headerField)
    (hValue : q.state ≠ .headerValue) : InHeader q v :=
  { begun := h.begun
    unframed := fun hTrailing => h.unframed (hAlike.trailing ▸ hTrailing)
    framing := fun hTrailing => h.framing (hAlike.trailing ▸ hTrailing)
    field := fun hState => absurd hState hField
    value := fun hState => absurd hState hValue }

theorem InHeader.advance (h : InHeader p v) (hMisplaced : v.misplaced = false)
    (hPart : part q.state = some .header) (hAlike : Alike p q) (hField : q.state ≠ .headerField)
    (hValue : q.state ≠ .headerValue) : Placed q v :=
  placed_header hPart hMisplaced (h.goto hAlike hField hValue)

theorem flush_frame (v : Assembly) :
    v.flush.pending = false ∧ v.flush.begun = v.begun ∧ v.flush.framing = v.framing ∧
      v.flush.misplaced = v.misplaced ∧ v.flush.final = v.final ∧ v.flush.body = v.body ∧
        v.flush.done = v.done := by
  unfold Assembly.flush
  split
  case isTrue hPending => simp_all
  case isFalse => split <;> simp

theorem flush_unframed (h : v.Unframed) : v.flush.Unframed := by
  unfold Assembly.flush
  split
  · exact h
  split
  case isTrue hFraming =>
    rw [h.framing] at hFraming
    cases hFraming
  case isFalse => exact { h with }

/-- A new line begins. -/
theorem InHeader.startField (h : InHeader p v) (hMisplaced : v.misplaced = false)
    (hAlike : Alike p q) (hState : q.state = .headerField) :
    Placed q (v.start .headerField) := by
  obtain ⟨hPending, hBegun, hFraming, hSame, -⟩ := flush_frame v
  apply placed_header (by rw [hState]; rfl)
  · simp [Assembly.start, hMisplaced, h.begun]
  · exact
      { begun := hBegun.trans h.begun
        unframed := fun hTrailing =>
          { flush_unframed (h.unframed (hAlike.trailing ▸ hTrailing)) with }
        framing := fun hTrailing => by
          simpa [Assembly.start, hFraming] using h.framing (hAlike.trailing ▸ hTrailing)
        field := fun _ => hPending
        value := by simp [hState] }

/-- The value of a line begins. -/
theorem InHeader.startValue (h : InHeader p v) (hMisplaced : v.misplaced = false)
    (hAlike : Alike p q) (hPart : part q.state = some .header) (hField : q.state ≠ .headerField) :
    Placed q (v.start .headerValue) := by
  apply placed_header hPart
  · simp [Assembly.start, hMisplaced, h.begun]
  · exact
      { begun := h.begun
        unframed := fun hTrailing => { h.unframed (hAlike.trailing ▸ hTrailing) with }
        framing := fun hTrailing => h.framing (hAlike.trailing ▸ hTrailing)
        field := fun hState => absurd hState hField
        value := fun _ => rfl }

/-- One more byte of a name or a value. -/
theorem placed_extend (h : Placed p v) {m : Mark} (hMark : startMark p.state = some m)
    (hPart : part p.state = some .header) : Placed p (v.extend m ch) := by
  have hHeader := h.inHeader hPart
  have hMarked : m = .headerField ∨ m = .headerValue := by
    cases hs : p.state
    all_goals rw [hs] at hMark hPart
    all_goals first
      | exact .inl (Option.some.inj hMark).symm
      | exact .inr (Option.some.inj hMark).symm
      | exact absurd hPart (by decide)
      | cases hMark
  rcases hMarked with rfl | rfl
  · apply placed_header (v := v.extend .headerField ch) hPart h.unmisplaced
    exact { hHeader with unframed := fun hTrailing => { hHeader.unframed hTrailing with } }
  · apply placed_header (v := v.extend .headerValue ch) hPart h.unmisplaced
    exact { hHeader with unframed := fun hTrailing => { hHeader.unframed hTrailing with } }

/-- Between two messages. -/
theorem placed_fresh (done : List Spelled) : Placed fresh.toFields { done := done } :=
  placed_idle rfl rfl rfl

theorem finished_placing (hMisplaced : v.misplaced = false) (hFraming : v.framing.isSome = true)
    {k : Fields → Prog}
    (hk : k fresh.toFields = .leave fresh.toFields ∨ k fresh.toFields = fresh.toFields.advance) :
    Placing (.messageComplete p k) ch none v := by
  have hComplete : assembler.messageComplete v = { done := v.done ++ [v.flush.toSpelled] } := by
    simp only [Assembly.assembler_messageComplete, Assembly.messageComplete, hMisplaced]
    rw [Option.isSome_iff_ne_none] at hFraming
    cases hv : v.framing with
    | none => exact absurd hv hFraming
    | some q => rfl
  refine ⟨rfl, ?_, ?_⟩
  · rw [hComplete]
  · rw [hComplete]
    rcases hk with hk | hk
    · rw [hk]
      exact ⟨rfl, placed_fresh _⟩
    · rw [hk]
      exact placing_next (placed_fresh _)

theorem messageDone_placing (hMisplaced : v.misplaced = false) (hFraming : v.framing.isSome = true) :
    Placing (messageDone p) ch none v :=
  finished_placing hMisplaced hFraming (.inr rfl)

theorem headersDone_placing (hMisplaced : v.misplaced = false) (hBody : InBody v) :
    Placing (headersDone p ch) ch none v := by
  have hFinished : ∀ {q : Fields} {k : Fields → Prog},
      (k fresh.toFields = .leave fresh.toFields ∨ k fresh.toFields = fresh.toFields.advance) →
        Placing (.messageComplete q k) ch none v :=
    fun hk => finished_placing hMisplaced hBody.framing hk
  simp only [headersDone, Fields.strictCheck, Fields.fail, Fields.advance, Fields.updateState]
  split
  · trivial
  · apply placing_clearNread
    repeat' split
    all_goals first
      | exact hFinished (.inl rfl)
      | exact hFinished (.inr rfl)
      | apply placing_next
        exact placed_body rfl hMisplaced hBody

theorem headersAlmostDone_placing (hMisplaced : v.misplaced = false) (h : InHeader p v) :
    Placing (headersAlmostDone p ch) ch none v := by
  simp only [headersAlmostDone, Fields.strictCheck, Fields.fail, Fields.updateState]
  split
  · trivial
  split
  case isTrue hTrailing =>
    refine ⟨rfl, hMisplaced, ?_⟩
    exact messageDone_placing hMisplaced (h.framing hTrailing)
  case isFalse hTrailing =>
    have hUnframed := h.unframed (by simpa using hTrailing)
    obtain ⟨hPending, hBegun, -, -, hFinal, -⟩ := flush_frame v
    have hMisplaced' : ∀ q, (assembler.headersComplete q v).misplaced = false := by
      intro q
      simp [Assembly.headersComplete, hMisplaced, h.begun, hUnframed.framing]
    split
    · trivial
    · refine ⟨rfl, hMisplaced' _, ?_⟩
      apply headersDone_placing (hMisplaced' _)
      exact
        { begun := hBegun.trans h.begun
          framing := rfl
          pending := hPending
          trailers := (flush_unframed hUnframed).trailers
          final := hFinal.trans hUnframed.final }

theorem headerFieldStart_placing (hMisplaced : v.misplaced = false) (h : InHeader p v) :
    Placing (headerFieldStart p ch) ch none v := by
  unfold headerFieldStart
  split
  · apply placing_next
    exact h.advance hMisplaced rfl ⟨rfl, rfl, rfl, rfl, rfl⟩ nofun nofun
  split
  · apply headersAlmostDone_placing hMisplaced
    exact h.goto ⟨rfl, rfl, rfl, rfl, rfl⟩ nofun nofun
  dsimp only
  split
  · trivial
  · apply placing_mark
    apply placing_more
    have hStart := h.startField hMisplaced (q := { p with
      state := .headerField, index := 0, headerState := firstHeaderState (token ch) })
      ⟨rfl, rfl, rfl, rfl, rfl⟩ rfl
    exact placed_extend hStart rfl rfl

theorem headerField_placing (h : Placed p v) (hState : p.state = .headerField) (read : Nat) :
    Placing (headerField p ch read) ch (some .headerField) v := by
  have hHeader := h.inHeader (by rw [hState]; rfl)
  unfold headerField
  dsimp only
  split
  · show Placing (if ch = ':'.toUInt8 then _ else _) ch (some .headerField) v
    split
    · refine ⟨h.unmisplaced, placing_next ?_⟩
      exact hHeader.advance h.unmisplaced rfl ⟨rfl, rfl, rfl, rfl, rfl⟩ nofun nofun
    · trivial
  · split
    case h_1 q hGo =>
      have hSame : q.state = .headerField := (fieldSwitch_state hGo).trans hState
      apply placing_more
      apply placed_extend _ (by rw [hSame]; rfl) (by rw [hSame]; rfl)
      apply placed_header (by rw [hSame]; rfl) h.unmisplaced
      have hAlike := fieldSwitch_alike hGo
      exact
        { begun := hHeader.begun
          unframed := fun hTrailing => hHeader.unframed (hAlike.trailing ▸ hTrailing)
          framing := fun hTrailing => hHeader.framing (hAlike.trailing ▸ hTrailing)
          field := fun _ => hHeader.field hState
          value := by simp [hSame] }
    all_goals trivial

theorem headerValueStart_placing (hMisplaced : v.misplaced = false) (h : InHeader p v) :
    Placing (headerValueStart p ch) ch none v := by
  unfold headerValueStart
  apply placing_mark
  split
  case h_1 q hGo =>
    have hSame : q.state = .headerValue := valueStartSwitch_state hGo
    have hAlike : Alike p q := by
      have hGoAlike := valueStartSwitch_alike hGo
      exact { hGoAlike with }
    apply placing_more
    apply placed_extend _ (by rw [hSame]; rfl) (by rw [hSame]; rfl)
    exact h.startValue hMisplaced hAlike (by rw [hSame]; rfl) (by simp [hSame])
  all_goals trivial

theorem headerAlmostDone_placing (hMisplaced : v.misplaced = false) (h : InHeader p v) :
    Placing (headerAlmostDone p ch) ch none v := by
  unfold headerAlmostDone
  split
  · trivial
  · apply placing_next
    exact h.advance hMisplaced rfl ⟨rfl, rfl, rfl, rfl, rfl⟩ nofun nofun

theorem headerValue_placing (h : Placed p v) (hState : p.state = .headerValue) (read : Nat)
    (hv : HeaderState) : Placing (headerValue p ch read hv) ch (some .headerValue) v := by
  have hHeader := h.inHeader (by rw [hState]; rfl)
  unfold headerValue
  split
  · refine ⟨h.unmisplaced, placing_count (placing_next ?_)⟩
    exact hHeader.advance h.unmisplaced rfl ⟨rfl, rfl, rfl, rfl, rfl⟩ nofun nofun
  split
  · refine ⟨h.unmisplaced, ?_⟩
    apply headerAlmostDone_placing h.unmisplaced
    exact hHeader.goto ⟨rfl, rfl, rfl, rfl, rfl⟩ nofun nofun
  split
  · trivial
  split
  case h_1 q h' hGo =>
    have hSame : q.state = .headerValue := valueSwitch_state hState hGo
    have hAlike : Alike p q := valueSwitch_alike hGo
    apply placing_more
    apply placed_extend _ (by rw [hSame]; rfl) (by rw [hSame]; rfl)
    apply placed_header (by rw [hSame]; rfl) h.unmisplaced
    exact
      { begun := hHeader.begun
        unframed := fun hTrailing => hHeader.unframed (hAlike.trailing ▸ hTrailing)
        framing := fun hTrailing => hHeader.framing (hAlike.trailing ▸ hTrailing)
        field := by simp [hSame]
        value := fun _ => hHeader.value hState }
  all_goals trivial

/-- The states of the headers. -/
theorem header_placing (h : Placed p v) (hPart : part p.state = some .header) :
    Placing (dispatch p ch) ch (startMark p.state) v := by
  have hHeader := h.inHeader hPart
  have hGoto : ∀ q : Fields, part q.state = some .header → Alike p q → q.state ≠ .headerField →
      q.state ≠ .headerValue → Placed q v := fun q => hHeader.advance h.unmisplaced
  have hFinish : InHeader ((finishHeader p).updateState .headerFieldStart) v :=
    hHeader.goto { finishHeader_alike p with } (fun h => by cases h) (fun h => by cases h)
  cases hs : p.state
  all_goals first
    | rw [hs] at hPart
      exact absurd hPart (by decide)
    | simp only [dispatch, hs, startMark]
  case headerFieldStart => exact headerFieldStart_placing h.unmisplaced hHeader
  case headerField => exact headerField_placing h hs 0
  case headerValue => exact headerValue_placing h hs 0 _
  case headerValueStart => exact headerValueStart_placing h.unmisplaced hHeader
  case headerAlmostDone => exact headerAlmostDone_placing h.unmisplaced hHeader
  case headersAlmostDone => exact headersAlmostDone_placing h.unmisplaced hHeader
  case headerValueDiscardWs =>
    unfold headerValueDiscardWs
    split
    · exact h
    split
    · exact placing_next (hGoto _ rfl ⟨rfl, rfl, rfl, rfl, rfl⟩ (fun h => by cases h) (fun h => by cases h))
    split
    · exact placing_next (hGoto _ rfl ⟨rfl, rfl, rfl, rfl, rfl⟩ (fun h => by cases h) (fun h => by cases h))
    · exact headerValueStart_placing h.unmisplaced hHeader
  case headerValueDiscardWsAlmostDone =>
    unfold literal Fields.strictCheck
    split
    · trivial
    · exact placing_next (hGoto _ rfl ⟨rfl, rfl, rfl, rfl, rfl⟩ (fun h => by cases h) (fun h => by cases h))
  case headerValueDiscardLws =>
    unfold headerValueDiscardLws
    split
    · exact placing_next (hGoto _ rfl ⟨rfl, rfl, rfl, rfl, rfl⟩ (fun h => by cases h) (fun h => by cases h))
    · have hStart : Placed ((finishHeader p).updateState .headerFieldStart) (v.start .headerValue) :=
        hFinish.startValue h.unmisplaced (.refl _) rfl (fun h => by cases h)
      exact ⟨hStart.unmisplaced, headerFieldStart_placing hStart.unmisplaced (hStart.inHeader rfl)⟩
  case headerValueLws =>
    unfold headerValueLws
    split
    · apply headerValueStart_placing h.unmisplaced
      exact hHeader.goto ⟨rfl, rfl, rfl, rfl, rfl⟩ (fun h => by cases h) (fun h => by cases h)
    · exact headerFieldStart_placing h.unmisplaced hFinish

/-! ### The body -/

/-- On to the next byte of the body. -/
theorem InBody.advance (h : InBody v) (hMisplaced : v.misplaced = false)
    (hPart : part q.state = some .body) : Placed q v := placed_body hPart hMisplaced h

/-- A byte of the body, which sets the mark unless it is set. -/
theorem InBody.mark (h : InBody v) (hMisplaced : v.misplaced = false) {cur : Option Mark}
    {prog : Prog} (hCur : cur = none ∨ cur = some .body)
    (hk : ∀ v, InBody v → v.misplaced = false → Placing prog ch (some .body) v) :
    Placing (.mark .body prog) ch cur v := by
  have hStart : InBody (v.start .body) := { h with }
  rcases hCur with rfl | rfl
  · apply hk _ hStart
    obtain ⟨q, hFraming⟩ := Option.isSome_iff_exists.mp h.framing
    simp [Assembly.start, hMisplaced, hFraming, h.pending, h.trailers, h.final]
  · exact hk _ h hMisplaced

theorem InBody.more (h : InBody v) (hMisplaced : v.misplaced = false)
    (hPart : part q.state = some .body) {loop : Loop} :
    Placing (.next q loop) ch (some .body) v := by
  have hMore : InBody (v.extend .body ch) := { h with }
  exact placing_more (hMore.advance hMisplaced hPart)

/-- A notification within the body. -/
theorem placing_chunk {c : Notification} {b : Bool} (hChunk : c ≠ .messageBegin)
    (hFinal : q.bodyIsFinal = false) (h : Placed q v) :
    Placing (.notify q c b q.advance) ch none v := by
  have hSame : assembler.notify q c v = v := by
    cases c with
    | messageBegin => exact absurd rfl hChunk
    | chunkHeader => simp [Assembly.notify, hFinal]
    | chunkComplete => simp [Assembly.notify, hFinal]
  refine ⟨rfl, ?_, ?_⟩
  · rw [hSame]
    exact h.unmisplaced
  · rw [hSame]
    exact placing_next h

/-- On to the trailers. -/
theorem InBody.toTrailers (h : InBody v) (hMisplaced : v.misplaced = false)
    (hState : q.state = .headerFieldStart) (hTrailing : q.flags.trailing = true) : Placed q v := by
  apply placed_header (by rw [hState]; rfl) hMisplaced
  exact
    { begun := h.begun
      unframed := by simp [hTrailing]
      framing := fun _ => h.framing
      field := by simp [hState]
      value := by simp [hState] }

/-- The states of a body. -/
theorem body_placing (h : Placed p v) (hPart : part p.state = some .body) {cur : Option Mark}
    (hCur : p.state.admits cur) : Placing (dispatch p ch) ch cur v := by
  have hBody := h.inBody hPart
  have hMisplaced := h.unmisplaced
  cases hs : p.state
  all_goals first
    | rw [hs] at hPart
      exact absurd hPart (by decide)
    | rw [hs] at hCur
      simp only [State.admits, decide_eq_true_eq] at hCur
      simp only [dispatch, hs]
  case bodyIdentityEof => exact hBody.mark hMisplaced hCur fun _ hIn hIs => hIn.more hIs hPart
  case bodyIdentity =>
    simp only [bodyIdentity, assert]
    split
    · apply hBody.mark hMisplaced hCur
      intro v hIn hIs
      split
      · have hMore : InBody (v.extend .body ch) := { hIn with }
        show Placing (.data _ .body true false _) ch (some .body) v
        refine ⟨hIs, ?_⟩
        exact messageDone_placing (v := v.extend .body ch) hIs hMore.framing
      · exact hIn.more (q := { p with contentLength := p.contentLength - 1 }) hIs hPart
    · trivial
  case chunkData =>
    simp only [chunkData, assert]
    split
    · split
      · apply hBody.mark hMisplaced hCur
        intro v hIn hIs
        split
        · exact hIn.more hIs rfl
        · exact hIn.more (q := { p with contentLength := p.contentLength - 1 }) hIs hPart
      · trivial
    · trivial
  case chunkDataAlmostDone =>
    simp only [chunkDataAlmostDone, assert, Fields.strictCheck, Fields.fail]
    have hNext : Placed (p.updateState .chunkDataDone) v := hBody.advance hMisplaced rfl
    have hData : Placing (.data (p.updateState .chunkDataDone) .body false true
        (p.updateState .chunkDataDone).advance) ch cur v := by
      rcases hCur with rfl | rfl
      · show Placing (.next (p.updateState .chunkDataDone) .outer) ch none v
        exact placing_next hNext
      · exact ⟨hMisplaced, placing_next hNext⟩
    repeat' split
    · trivial
    · exact hData
    all_goals trivial
  all_goals subst hCur
  case chunkSizeAlmostDone =>
    simp only [chunkSizeAlmostDone, assert, Fields.strictCheck, Fields.fail]
    split
    · split
      · trivial
      · apply placing_clearNread
        split
        · exact placing_chunk (fun h => by cases h) rfl (hBody.toTrailers hMisplaced rfl rfl)
        · exact placing_chunk (fun h => by cases h) rfl (hBody.advance hMisplaced rfl)
    · trivial
  case chunkDataDone =>
    simp only [chunkDataDone, assert, Fields.strictCheck, Fields.fail]
    split
    · split
      · trivial
      · apply placing_clearNread
        exact placing_chunk (fun h => by cases h) rfl (hBody.advance hMisplaced rfl)
    · trivial
  all_goals
    simp only [chunkSizeStart, chunkSize, chunkParameters, assert, Fields.fail]
    repeat' split
    all_goals first
      | trivial
      | exact placing_next (hBody.advance hMisplaced rfl)
      | exact placing_next (hBody.advance hMisplaced hPart)

/-! ### Every state -/

/-- Outside the body, the state tells which mark is set. -/
theorem mark_of_admits {s : State} {cur : Option Mark} (hPart : part s ≠ some .body)
    (h : s.admits cur) : cur = startMark s := by
  cases s
  all_goals first
    | exact absurd rfl hPart
    | simpa [State.admits, startMark] using h

/-- The states of the first line. -/
theorem firstLine_placing (h : Placed p v) (hPart : part p.state = some .line) :
    Placing (dispatch p ch) ch (startMark p.state) v := by
  by_cases hUrl : startMark p.state = some .url
  · have hPlacing : Placing (urlStart p ch) ch (some .url) v ∧ Placing (urlRest p ch) ch (some .url) v :=
      url_placing h hUrl
    obtain ⟨hStart, hRest⟩ := hPlacing
    rw [hUrl]
    cases hs : p.state
    all_goals simp only [dispatch, hs]
    all_goals first
      | exact hStart
      | exact hRest
      | rw [hs] at hUrl
        cases hUrl
  have hStatusStart : p.state = .resStatusStart → Placing (resStatusStart p ch) ch none v :=
    (status_placing h).1
  have hStatusRest : p.state = .resStatus → Placing (resStatus p ch) ch (some .status) v :=
    (status_placing h).2
  by_cases hStatus : p.state = .resStatus
  · simp only [dispatch, hStatus]
    exact hStatusRest hStatus
  by_cases hBegins : p.state = .resStatusStart
  · simp only [dispatch, hBegins]
    exact hStatusStart hBegins
  have hAdmits : p.state.admits none := by
    cases hs : p.state
    all_goals first
      | rfl
      | exact absurd hs hStatus
      | rw [hs] at hPart
        exact absurd hPart (by decide)
      | rw [hs] at hUrl
        exact absurd rfl hUrl
  rw [startMark_of_admits_none hAdmits]
  by_cases hSpaces : p.state = .reqSpacesBeforeUrl
  · simp only [dispatch, hSpaces]
    exact reqSpacesBeforeUrl_placing h hSpaces
  · exact line_placing h hPart hAdmits hSpaces hBegins

/-- A step of the switch over the state. -/
theorem dispatch_placing (h : Placed p v) {cur : Option Mark} (hCur : p.state.admits cur) :
    Placing (dispatch p ch) ch cur v := by
  rcases hPart : part p.state with _ | piece
  · have hMatch := h.2
    rw [hPart] at hMatch
    exact hMatch.elim
  by_cases hBody : piece = .body
  · rw [hBody] at hPart
    exact body_placing h hPart hCur
  rw [mark_of_admits (by rwa [hPart, ne_eq, Option.some.injEq]) hCur]
  cases piece with
  | idle =>
      have hState : p.state = .startReqOrRes := by
        cases hs : p.state
        all_goals first
          | rfl
          | rw [hs] at hPart
            cases hPart
      simp only [dispatch, hState]
      exact startReqOrRes_placing h hState
  | body => exact absurd rfl hBody
  | header => exact header_placing h hPart
  | line => exact firstLine_placing h hPart

/-- A step. -/
theorem step_placing {l : Locals} (hl : l.Regular) (h : Placed l.fields v) :
    Placing (step l.fields l.loop ch) ch (l.mark.map Prod.fst) v := by
  have hMark := hl.mark
  have hLoop := hl.loop
  cases hCase : l.loop with
  | outer =>
      rw [step]
      split
      · exact placing_count (dispatch_placing h hMark)
      · exact dispatch_placing h hMark
  | field read =>
      rw [hCase] at hLoop
      have hState : l.fields.state = .headerField := hLoop.1
      have hCur : l.mark.map Prod.fst = some .headerField := by
        simpa [hState, State.admits] using hMark
      rw [hCur]
      exact headerField_placing h hState read
  | value read hv skip =>
      rw [hCase] at hLoop
      have hState : l.fields.state = .headerValue := hLoop.1
      have hCur : l.mark.map Prod.fst = some .headerValue := by
        simpa [hState, State.admits] using hMark
      rw [hCur, step]
      cases skip with
      | none => exact headerValue_placing h hState read hv
      | some k =>
          rw [headerValueLoop]
          split
          · exact headerValue_placing h hState read hv
          · apply placing_more
            exact placed_extend h (by rw [hState]; rfl) (by rw [hState]; rfl)

/-- A mark that is set again for the next buffer. -/
theorem placed_restart (h : Placed p v) :
    Placed p ((startMark p.state).elim v fun m => v.start m) := by
  cases hs : p.state
  all_goals simp only [startMark, Option.elim_none, Option.elim_some]
  all_goals first
    | exact h
    | skip
  case headerField =>
    exact (h.inHeader (by rw [hs]; rfl)).startField h.unmisplaced (.refl p) hs
  case headerValue =>
    exact (h.inHeader (by rw [hs]; rfl)).startValue h.unmisplaced (.refl p) (by rw [hs]; rfl)
      (by simp [hs])
  case resStatus =>
    have hLine := h.inLine (by rw [hs]; rfl)
    apply placed_line (by rw [hs]; rfl)
    · simp [Assembly.start, h.unmisplaced, hLine.begun, hLine.unframed.framing]
    · exact
        { begun := hLine.begun
          unframed := { hLine.unframed with }
          unlined := { hLine.unlined with }
          trailing := hLine.trailing
          target := by simp [hs, startMark]
          reason := fun _ => rfl }
  all_goals
    have hPart : part p.state = some .line := by rw [hs]; rfl
    have hLine := h.inLine hPart
    apply placed_line hPart
    · simp [Assembly.start, h.unmisplaced, hLine.begun, hLine.unframed.framing]
    · exact hLine.startUrl rfl (by simp [hs, startMark])

/-- Where an inner loop is left, everything stays in its place. -/
theorem Placed.settle (h : Placed p v) (loop : Loop) : Placed (loop.settle p) v := by
  cases loop with
  | outer => exact h
  | field read => exact h
  | value read hv skip =>
      refine ⟨h.unmisplaced, ?_⟩
      have hMatch := h.2
      show match part p.state with
        | some .idle => v = { done := v.done }
        | some .line => InLine _ v
        | some .header => InHeader _ v
        | some .body => InBody v
        | none => False
      split at hMatch
      · exact hMatch
      · exact { hMatch with }
      · exact { hMatch with }
      · exact hMatch
      · exact hMatch

/-- Where a buffer ends, an inner loop is left and the mark is set again. -/
theorem placed_cut {l : Locals} (h : Placed l.fields v) :
    Placed (l.loop.settle l.fields)
      ((startMark (l.loop.settle l.fields).state).elim v fun m => v.start m) :=
  placed_restart (h.settle l.loop)

end Doormat.Http
