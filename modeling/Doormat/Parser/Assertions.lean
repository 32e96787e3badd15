import Doormat.Parser.Cut

/-! The assertions of `http_parser_execute`. Each state knows what its assertions ask of the
content length, the flags and the matched name; every step keeps it so. -/
namespace Doormat.Parser

open Bytes

/-! ### Programs without a failing assertion -/

/-- No assertion of the program fails, and `post` holds wherever it goes on. The assertion on the
count is left to `Prog.Sound`. A callback for a complete message starts the parser again. -/
def Prog.Safe (post : Fields → Loop → Prop) : Prog → Prop
  | .next p loop => post p loop
  | .leave p => post p .outer
  | .fail _ _ => True
  | .abort => False
  | .mark _ k | .data _ _ _ _ k | .count _ _ k | .clearNread k | .assertNread _ k | .notify _ _ _ k => k.Safe post
  | .headersComplete _ k => ∀ n, (k n).Safe post
  | .messageComplete _ k => (k (HttpParser.init .both).toFields).Safe post

/-- The states of a header name. -/
def HeaderState.inName : HeaderState → Bool
  | .general | .C | .CO | .CON | .matchingConnection | .matchingProxyConnection | .matchingContentLength
  | .matchingTransferEncoding | .matchingUpgrade | .connection | .contentLength | .transferEncoding
  | .upgrade => true
  | _ => false

/-- The states of a header value. -/
def HeaderState.inValue : HeaderState → Bool
  | .connection | .transferEncoding => false
  | _ => true

/-- What the assertions of the state ask for. -/
def Fields.Asserts (p : Fields) : Prop :=
  match p.state with
  | .bodyIdentity => p.contentLength ≠ 0 ∧ p.contentLength ≠ ullongMax
  | .chunkSizeStart | .chunkDataDone => p.flags.chunked = true
  | .chunkSize | .chunkParameters | .chunkSizeAlmostDone => p.flags.chunked = true ∧ p.contentLength ≠ ullongMax
  | .chunkData => p.flags.chunked = true ∧ p.contentLength ≠ 0 ∧ p.contentLength ≠ ullongMax
  | .chunkDataAlmostDone => p.flags.chunked = true ∧ p.contentLength = 0
  | .headerField => p.headerState.inName = true
  | .headerValue => p.headerState.inValue = true
  | _ => True

/-- The parser meets the assertions, and its content length fits its 64 bits. -/
structure Fields.Consistent (p : Fields) : Prop where
  bounded : p.contentLength ≤ ullongMax
  asserts : p.Asserts

/-- A program after which the parser is consistent, the local `h_state` stored back. -/
abbrev Prog.Consistent : Prog → Prop := Prog.Safe fun p loop => (loop.settle p).Consistent

variable {p q : Fields} {ch c : UInt8} {h : HeaderState}

/-! ### The headers -/

theorem matchNext_states (p : Fields) (c : UInt8) (constant : ByteString) (done other h : HeaderState) :
    (matchNext p c constant done other h).2 = done ∨ (matchNext p c constant done other h).2 = other ∨
      (matchNext p c constant done other h).2 = h := by
  unfold matchNext
  dsimp only
  split
  · exact .inr (.inl rfl)
  split
  · exact .inl rfl
  · exact .inr (.inr rfl)

theorem fieldSwitch_inName (hState : p.headerState.inName = true) :
    fieldSwitch p ch c ≠ .abort ∧ ∀ q, fieldSwitch p ch c = .go q → q.headerState.inName = true := by
  have hName : ∀ (constant : ByteString) (done : HeaderState), done.inName = true →
      (matchNext p c constant done .general p.headerState).2.inName = true := by
    intro constant done hDone
    rcases matchNext_states p c constant done .general p.headerState with hEq | hEq | hEq
    · rw [hEq, hDone]
    · rw [hEq]
      rfl
    · rw [hEq, hState]
  unfold fieldSwitch
  dsimp only
  split
  case h_5 | h_6 | h_8 | h_9 =>
    refine ⟨fun h => (by cases h), fun q hGo => ?_⟩
    cases hGo
    exact hName _ _ rfl
  case h_7 =>
    split
    · split
      · exact ⟨fun h => (by cases h), fun q hGo => (by cases hGo)⟩
      · refine ⟨fun h => (by cases h), fun q hGo => ?_⟩
        cases hGo
        exact hName _ _ rfl
    · refine ⟨fun h => (by cases h), fun q hGo => ?_⟩
      cases hGo
      exact hName _ _ rfl
  case h_14 =>
    refine absurd hState ?_
    cases hs : p.headerState
    all_goals simp_all [HeaderState.inName]
  all_goals
    repeat' split
    all_goals
      refine ⟨fun h => (by cases h), fun q hGo => ?_⟩
      cases hGo
      first
        | rfl
        | exact hState

theorem valueStartSwitch_inValue (p : Fields) (ch c : UInt8) :
    valueStartSwitch p ch c ≠ .abort ∧ ∀ q, valueStartSwitch p ch c = .go q → q.headerState.inValue = true := by
  unfold valueStartSwitch
  dsimp only
  split
  case h_5 hToken =>
    refine ⟨fun h => (by cases h), fun q hGo => ?_⟩
    cases hGo
    rw [hToken]
    rfl
  case h_3 hLength =>
    split
    · exact ⟨fun h => (by cases h), fun q hGo => (by cases hGo)⟩
    · refine ⟨fun h => (by cases h), fun q hGo => ?_⟩
      cases hGo
      rw [show (HeaderState.inValue p.headerState) = _ from congrArg _ hLength]
      rfl
  all_goals
    refine ⟨fun h => (by cases h), fun q hGo => ?_⟩
    cases hGo
    dsimp only
    repeat' split
    all_goals rfl

theorem valueSwitch_inValue (hState : h.inValue = true) :
    valueSwitch p h ch c ≠ .abort ∧ ∀ r, valueSwitch p h ch c = .go r → r.2.inValue = true := by
  have hValue : ∀ (constant : ByteString) (done other : HeaderState), done.inValue = true →
      other.inValue = true → (matchNext p c constant done other h).2.inValue = true := by
    intro constant done other hDone hOther
    rcases matchNext_states p c constant done other h with hEq | hEq | hEq
    · rw [hEq, hDone]
    · rw [hEq, hOther]
    · rw [hEq, hState]
  unfold valueSwitch
  split
  all_goals
    repeat' split
  all_goals first
    | cases hState
      done
    | refine ⟨fun h => (by cases h), fun r hGo => ?_⟩
      cases hGo
      first
        | rfl
        | exact hState
        | exact hValue _ _ _ rfl rfl
    | exact ⟨fun h => (by cases h), fun r hGo => (by cases hGo)⟩

theorem fieldSwitch_length (h : fieldSwitch p ch c = .go q) : q.contentLength = p.contentLength := by
  have hName : ∀ (constant : ByteString) (done : HeaderState),
      (matchNext p c constant done .general p.headerState).1.contentLength = p.contentLength := by
    intro constant done
    unfold matchNext
    dsimp only
    repeat' split
    all_goals rfl
  unfold fieldSwitch at h
  dsimp only at h
  repeat' split at h
  all_goals first
    | cases h
      done
    | cases h
      first
        | rfl
        | exact hName _ _

theorem valueStartSwitch_bounded (hBounded : p.contentLength ≤ ullongMax) (h : valueStartSwitch p ch c = .go q) :
    q.contentLength ≤ ullongMax := by
  unfold valueStartSwitch at h
  dsimp only at h
  split at h
  case h_3 =>
    split at h
    · cases h
    case isFalse hNum =>
      cases h
      have hDigit := digitValue_le (c := ch) (by simpa [isNum] using hNum)
      exact Nat.le_trans hDigit (by decide)
  all_goals
    cases h
    exact hBounded

theorem valueSwitch_bounded {r : Fields × HeaderState} (hBounded : p.contentLength ≤ ullongMax)
    (hGo : valueSwitch p h ch c = .go r) : r.1.contentLength ≤ ullongMax := by
  have hValue : ∀ (constant : ByteString) (done other : HeaderState),
      (matchNext p c constant done other h).1.contentLength = p.contentLength := by
    intro constant done other
    unfold matchNext
    dsimp only
    repeat' split
    all_goals rfl
  by_cases hLength : h = .contentLength
  · subst hLength
    simp only [valueSwitch] at hGo
    split at hGo
    · cases hGo
      exact hBounded
    split at hGo
    · cases hGo
    case isFalse hNum =>
      split at hGo
      · cases hGo
      case isFalse hRoom =>
        cases hGo
        have hDigit := digitValue_le (c := ch) (by simpa [isNum] using hNum)
        have hMost : (ullongMax - 10) / 10 * 10 + 9 ≤ ullongMax := by decide
        show p.contentLength * 10 + digitValue ch ≤ ullongMax
        omega
  unfold valueSwitch at hGo
  split at hGo
  all_goals
    repeat' split at hGo
  all_goals first
    | cases hGo
      done
    | exact absurd rfl hLength
    | cases hGo
      first
        | exact hBounded
        | exact (hValue _ _ _).symm ▸ hBounded

theorem fresh_consistent : (HttpParser.init .both).toFields.Consistent := ⟨Nat.zero_le _, trivial⟩

theorem messageDone_safe (p : Fields) : (messageDone p).Consistent := fresh_consistent

theorem headersDone_safe (hBounded : p.contentLength ≤ ullongMax) (ch : UInt8) : (headersDone p ch).Consistent := by
  unfold headersDone Fields.strictCheck
  split
  · trivial
  show Prog.Consistent (if _ then _ else _)
  split
  · exact fresh_consistent
  split
  · exact fresh_consistent
  split
  case isTrue hChunked => exact ⟨hBounded, hChunked⟩
  split
  · exact fresh_consistent
  split
  case isTrue hZero hMost => exact ⟨hBounded, hZero, hMost⟩
  split
  · exact fresh_consistent
  · exact ⟨hBounded, trivial⟩

theorem headersAlmostDone_safe (hBounded : p.contentLength ≤ ullongMax) (ch : UInt8) :
    (headersAlmostDone p ch).Consistent := by
  unfold headersAlmostDone Fields.strictCheck
  split
  · trivial
  split
  · exact messageDone_safe (p.updateState .messageDone)
  split
  · trivial
  · intro n
    dsimp only
    split
    · apply headersDone_safe
      exact hBounded
    · apply headersDone_safe
      exact hBounded
    · trivial

theorem headerFieldStart_safe (hBounded : p.contentLength ≤ ullongMax) (ch : UInt8) :
    (headerFieldStart p ch).Consistent := by
  unfold headerFieldStart
  split
  · exact ⟨hBounded, trivial⟩
  split
  · apply headersAlmostDone_safe
    exact hBounded
  dsimp only
  split
  · trivial
  · refine ⟨hBounded, ?_⟩
    show (firstHeaderState (token ch)).inName = true
    unfold firstHeaderState
    repeat' split
    all_goals rfl

theorem headerField_safe (hState : p.state = .headerField) (h : p.Consistent) (read : Nat) :
    (headerField p ch read).Consistent := by
  have hName := h.asserts
  unfold Fields.Asserts at hName
  rw [hState] at hName
  unfold headerField
  dsimp only
  split
  · show Prog.Consistent (if ch = ':'.toUInt8 then _ else _)
    split
    · exact ⟨h.bounded, trivial⟩
    · trivial
  have hSwitch : fieldSwitch p ch (token ch) ≠ .abort ∧
      ∀ q, fieldSwitch p ch (token ch) = .go q → q.headerState.inName = true := fieldSwitch_inName hName
  obtain ⟨hNot, hGoes⟩ := hSwitch
  split
  case h_1 q hGo =>
    refine ⟨?_, ?_⟩
    · exact (fieldSwitch_length hGo).symm ▸ h.bounded
    · show q.Asserts
      unfold Fields.Asserts
      rw [fieldSwitch_state hGo, hState]
      exact hGoes q hGo
  · trivial
  case h_3 hAbort => exact absurd hAbort hNot

theorem headerValueStart_safe (hBounded : p.contentLength ≤ ullongMax) (ch : UInt8) :
    (headerValueStart p ch).Consistent := by
  obtain ⟨hNot, hGoes⟩ := valueStartSwitch_inValue { p with state := .headerValue, index := 0 } ch (LOWER ch)
  unfold headerValueStart
  simp only [Prog.Safe]
  split
  case h_1 q hGo =>
    refine ⟨valueStartSwitch_bounded (p := { p with state := .headerValue, index := 0 }) hBounded hGo, ?_⟩
    show q.Asserts
    unfold Fields.Asserts
    rw [valueStartSwitch_state hGo]
    exact hGoes q hGo
  · trivial
  case h_3 hAbort => exact absurd hAbort hNot

theorem headerAlmostDone_safe (hBounded : p.contentLength ≤ ullongMax) (ch : UInt8) :
    (headerAlmostDone p ch).Consistent := by
  unfold headerAlmostDone
  split
  · trivial
  · exact ⟨hBounded, trivial⟩

theorem headerValue_safe (hState : p.state = .headerValue) (hBounded : p.contentLength ≤ ullongMax)
    (hValue : h.inValue = true) (read : Nat) : (headerValue p ch read h).Consistent := by
  unfold headerValue
  split
  · exact ⟨hBounded, trivial⟩
  split
  · apply headerAlmostDone_safe
    exact hBounded
  split
  · trivial
  have hSwitch : valueSwitch p h ch (LOWER ch) ≠ .abort ∧
      ∀ r, valueSwitch p h ch (LOWER ch) = .go r → r.2.inValue = true := valueSwitch_inValue hValue
  obtain ⟨hNot, hGoes⟩ := hSwitch
  split
  case h_1 q h' hGo =>
    refine ⟨valueSwitch_bounded hBounded hGo, ?_⟩
    show Fields.Asserts { q with headerState := h' }
    unfold Fields.Asserts
    rw [valueSwitch_state hState hGo]
    exact hGoes (q, h') hGo
  · trivial
  case h_3 hAbort => exact absurd hAbort hNot

/-! ### The body -/

theorem bodyIdentity_safe (hState : p.state = .bodyIdentity) (h : p.Consistent) : (bodyIdentity p).Consistent := by
  have hLength := h.asserts
  unfold Fields.Asserts at hLength
  rw [hState] at hLength
  unfold bodyIdentity assert
  split
  case isTrue =>
    show Prog.Consistent (if _ then _ else _)
    split
    · exact fresh_consistent
    case isFalse hMore =>
      have hBounded := h.bounded
      refine ⟨Nat.le_trans (Nat.sub_le _ _) hBounded, ?_⟩
      show Fields.Asserts { p with contentLength := p.contentLength - 1 }
      unfold Fields.Asserts
      rw [hState]
      refine ⟨hMore, ?_⟩
      show p.contentLength - 1 ≠ ullongMax
      omega
  case isFalse hNot =>
    refine absurd ?_ hNot
    simp [hLength.1, hLength.2]

theorem unhex_le {v : Nat} (h : unhex ch = some v) : v ≤ 15 := by
  have hAll := forall_byte (P := fun c => (unhex c).all (· ≤ 15) = true) (by decide +kernel) ch
  rw [h] at hAll
  exact of_decide_eq_true hAll

/-- The states of a chunk. -/
theorem chunk_safe (h : p.Consistent) (hState : p.state = .chunkSizeStart ∨ p.state = .chunkSize ∨
      p.state = .chunkParameters ∨ p.state = .chunkSizeAlmostDone ∨ p.state = .chunkData ∨
      p.state = .chunkDataAlmostDone ∨ p.state = .chunkDataDone) (ch : UInt8) : (dispatch p ch).Consistent := by
  obtain ⟨hBounded, hAsserts⟩ := h
  unfold Fields.Asserts at hAsserts
  rcases hState with hs | hs | hs | hs | hs | hs | hs
  all_goals
    rw [hs] at hAsserts
    simp only [dispatch, hs]
  · unfold chunkSizeStart assert
    show Prog.Consistent (if _ then _ else _)
    rw [if_pos hAsserts]
    split
    · trivial
    case h_2 v hv =>
      have hLe := unhex_le hv
      have hMost : 15 < ullongMax := by decide
      exact ⟨by show v ≤ ullongMax; omega, hAsserts, by show v ≠ ullongMax; omega⟩
  · unfold chunkSize assert
    rw [if_pos hAsserts.1]
    split
    · exact ⟨hBounded, hAsserts⟩
    split
    · split
      · exact ⟨hBounded, hAsserts⟩
      · trivial
    case h_2 v hv =>
      split
      · trivial
      case isFalse hRoom =>
        have hLe := unhex_le hv
        have hMost : (ullongMax - 16) / 16 * 16 + 15 < ullongMax := by decide
        have hLess : p.contentLength * 16 + v < ullongMax := by omega
        refine ⟨Nat.le_of_lt hLess, ?_⟩
        show Fields.Asserts { p with contentLength := p.contentLength * 16 + v }
        unfold Fields.Asserts
        rw [hs]
        exact ⟨hAsserts.1, Nat.ne_of_lt hLess⟩
  · unfold chunkParameters assert
    rw [if_pos hAsserts.1]
    split
    · exact ⟨hBounded, hAsserts⟩
    · refine ⟨hBounded, ?_⟩
      show p.Asserts
      unfold Fields.Asserts
      rw [hs]
      exact hAsserts
  · unfold chunkSizeAlmostDone assert Fields.strictCheck
    rw [if_pos hAsserts.1]
    split
    · trivial
    · show Fields.Consistent (if p.contentLength = 0 then _ else _)
      split
      · exact ⟨hBounded, trivial⟩
      case isFalse hMore => exact ⟨hBounded, hAsserts.1, hMore, hAsserts.2⟩
  · obtain ⟨hChunked, hZero, hMost⟩ := hAsserts
    unfold chunkData assert
    rw [if_pos hChunked, if_pos (by simp [hZero, hMost])]
    show Prog.Consistent (if _ then _ else _)
    split
    case isTrue hDrained => exact ⟨Nat.le_trans (Nat.sub_le _ _) hBounded, hChunked, hDrained⟩
    case isFalse hMore =>
      refine ⟨Nat.le_trans (Nat.sub_le _ _) hBounded, ?_⟩
      show Fields.Asserts { p with contentLength := p.contentLength - 1 }
      unfold Fields.Asserts
      rw [hs]
      refine ⟨hChunked, hMore, ?_⟩
      show p.contentLength - 1 ≠ ullongMax
      omega
  · unfold chunkDataAlmostDone assert Fields.strictCheck
    rw [if_pos hAsserts.1, if_pos (by simp [hAsserts.2])]
    split
    · trivial
    · exact ⟨hBounded, hAsserts.1⟩
  · unfold chunkDataDone assert Fields.strictCheck
    rw [if_pos hAsserts]
    split
    · trivial
    · exact ⟨hBounded, hAsserts⟩

theorem asserts_of_url (h : p.state.admits (some .url)) : p.Asserts := by
  unfold Fields.Asserts
  split
  all_goals first
    | trivial
    | case _ hs =>
        rw [hs] at h
        cases h

/-- A byte of the target. -/
theorem urlByte_safe (hBounded : p.contentLength ≤ ullongMax) (ch : UInt8) : (urlByte p ch).Consistent := by
  unfold urlByte
  dsimp only
  split
  · trivial
  case isFalse hAlive =>
    refine ⟨hBounded, asserts_of_url ?_⟩
    exact (parseUrlChar_admits p.state ch).resolve_left hAlive

theorem dispatch_safe (h : p.Consistent) (ch : UInt8) : (dispatch p ch).Consistent := by
  have hBounded := h.bounded
  have hFinish : (finishHeader p).contentLength ≤ ullongMax := by
    unfold finishHeader
    split
    all_goals exact hBounded
  cases hs : p.state
  case startRes =>
    simp only [dispatch, hs]
    unfold startRes
    have hClear : p.clearMessage.Consistent := by
      refine ⟨Nat.le_refl _, ?_⟩
      show p.clearMessage.Asserts
      unfold Fields.Asserts
      rw [show p.clearMessage.state = .startRes from hs]
      trivial
    split
    · exact ⟨Nat.le_refl _, trivial⟩
    split
    · exact hClear
    · trivial
  case reqSpacesBeforeUrl =>
    simp only [dispatch, hs]
    unfold reqSpacesBeforeUrl
    split
    · exact h
    · show Prog.Consistent (urlByte (if _ then _ else _) ch)
      split
      · exact urlByte_safe (p := p.updateState .reqServerStart) hBounded ch
      · exact urlByte_safe hBounded ch
  case reqSchema | reqSchemaSlash | reqSchemaSlashSlash | reqServerStart =>
    simp only [dispatch, hs]
    unfold urlStart
    split
    · trivial
    · exact urlByte_safe hBounded ch
  case reqServer | reqServerWithAt | reqPath | reqQueryStringStart | reqQueryString | reqFragmentStart | reqFragment =>
    simp only [dispatch, hs]
    unfold urlRest
    split
    · exact ⟨hBounded, trivial⟩
    split
    · refine ⟨hBounded, ?_⟩
      unfold Fields.Asserts
      dsimp only [Loop.settle]
      by_cases hCR : ch = CR
      · rw [if_pos hCR]
        trivial
      · rw [if_neg hCR]
        trivial
    · exact urlByte_safe hBounded ch
  case headerFieldStart =>
    simp only [dispatch, hs]
    exact headerFieldStart_safe hBounded ch
  case headerField =>
    simp only [dispatch, hs]
    exact headerField_safe hs h 0
  case headerValueStart =>
    simp only [dispatch, hs]
    exact headerValueStart_safe hBounded ch
  case headerValue =>
    have hValue := h.asserts
    unfold Fields.Asserts at hValue
    rw [hs] at hValue
    simp only [dispatch, hs]
    exact headerValue_safe hs hBounded hValue 0
  case headerAlmostDone =>
    simp only [dispatch, hs]
    exact headerAlmostDone_safe hBounded ch
  case headersAlmostDone =>
    simp only [dispatch, hs]
    exact headersAlmostDone_safe hBounded ch
  case headersDone =>
    simp only [dispatch, hs]
    exact headersDone_safe hBounded ch
  case messageDone =>
    simp only [dispatch, hs]
    exact messageDone_safe p
  case headerValueDiscardWs =>
    simp only [dispatch, hs]
    unfold headerValueDiscardWs
    repeat' split
    · exact h
    · exact ⟨hBounded, trivial⟩
    · exact ⟨hBounded, trivial⟩
    · exact headerValueStart_safe hBounded ch
  case headerValueDiscardLws =>
    simp only [dispatch, hs]
    unfold headerValueDiscardLws
    split
    · exact ⟨hBounded, trivial⟩
    · exact headerFieldStart_safe (p := (finishHeader p).updateState .headerFieldStart) hFinish ch
  case headerValueLws =>
    simp only [dispatch, hs]
    unfold headerValueLws
    split
    · exact headerValueStart_safe (p := p.updateState .headerValueStart) hBounded ch
    · exact headerFieldStart_safe (p := (finishHeader p).updateState .headerFieldStart) hFinish ch
  case bodyIdentity =>
    simp only [dispatch, hs]
    exact bodyIdentity_safe hs h
  case chunkSizeStart => exact chunk_safe h (.inl hs) ch
  case chunkSize => exact chunk_safe h (.inr (.inl hs)) ch
  case chunkParameters => exact chunk_safe h (.inr (.inr (.inl hs))) ch
  case chunkSizeAlmostDone => exact chunk_safe h (.inr (.inr (.inr (.inl hs)))) ch
  case chunkData => exact chunk_safe h (.inr (.inr (.inr (.inr (.inl hs))))) ch
  case chunkDataAlmostDone => exact chunk_safe h (.inr (.inr (.inr (.inr (.inr (.inl hs)))))) ch
  case chunkDataDone => exact chunk_safe h (.inr (.inr (.inr (.inr (.inr (.inr hs)))))) ch
  all_goals
    simp only [dispatch, hs, startReqOrRes, startReq, resOrRespH, literal, firstHttpMajor, httpMajor,
      firstHttpMinor, httpMinorDigit, resHttpMinor, resFirstStatusCode, resStatusCode, resStatusStart,
      resStatus, reqMethod, reqHttpStart, reqHttpMinor, reqLineAlmostDone, Fields.strictCheck]
    repeat' split
    all_goals first
      | trivial
      | exact h
      | exact ⟨hBounded, trivial⟩
      | exact ⟨Nat.le_refl _, trivial⟩

/-! ### Steps and the end of a buffer -/

theorem headerValueLoop_safe {skip : Option Nat} {read : Nat} (hState : p.state = .headerValue)
    (hBounded : p.contentLength ≤ ullongMax) (hValue : h.inValue = true) :
    (headerValueLoop p ch read h skip).Consistent := by
  unfold headerValueLoop
  split
  · exact headerValue_safe hState hBounded hValue read
  split
  · exact headerValue_safe hState hBounded hValue read
  · refine ⟨hBounded, ?_⟩
    show Fields.Asserts { p with headerState := h }
    unfold Fields.Asserts
    rw [hState]
    exact hValue

/-- A step from a consistent parser fails no assertion and leads to a consistent parser. -/
theorem step_safe {l : Locals} (hl : l.Regular) (h : (l.loop.settle l.fields).Consistent) (ch : UInt8) :
    (step l.fields l.loop ch).Consistent := by
  have hFits := hl.loop
  cases hLoop : l.loop with
  | outer =>
      rw [hLoop] at h
      unfold step
      dsimp only
      split
      · exact dispatch_safe h ch
      · exact dispatch_safe h ch
  | field read =>
      rw [hLoop] at h hFits
      exact headerField_safe hFits.1 h read
  | value read hState skip =>
      rw [hLoop] at h hFits
      have hValue := h.asserts
      unfold Fields.Asserts Loop.settle at hValue
      dsimp only at hValue
      rw [hFits.1] at hValue
      exact headerValueLoop_safe hFits.1 h.bounded hValue

theorem finish_safe {loop : Loop} (h : (loop.settle p).Consistent) : (finish p loop).Consistent := by
  cases loop with
  | outer => exact h
  | field read => exact h
  | value read hState skip => exact h

/-! ### Runs -/

/-- Where a safe program goes on, its condition holds. -/
theorem emit_safe {post : Fields → Loop → Prop} {prog : Prog} {n : Nat} {marked : Option (Mark × ByteString)}
    {flow : Flow} {cs : List Callback} (hSafe : prog.Safe post) (hEmit : prog.emit ch n marked = some (flow, cs)) :
    post flow.locals.fields flow.locals.loop := by
  induction prog generalizing n marked cs with
  | next p loop =>
      cases hEmit
      exact hSafe
  | leave p =>
      cases hEmit
      exact hSafe
  | fail p e => cases hEmit
  | abort => cases hEmit
  | mark m k ih => exact ih hSafe hEmit
  | data p m inclusive advance k ih =>
      rcases marked with _ | ⟨set, bytes⟩
      · exact ih hSafe hEmit
      simp only [Prog.emit] at hEmit
      split at hEmit
      · exact ih hSafe hEmit
      · obtain ⟨rest, hRest, -⟩ := Emission.prepend_eq_some.mp hEmit
        exact ih hSafe hRest
  | count p v k ih =>
      simp only [Prog.emit] at hEmit
      split at hEmit
      · cases hEmit
      · exact ih hSafe hEmit
  | clearNread k ih => exact ih hSafe hEmit
  | assertNread v k ih =>
      simp only [Prog.emit, Option.ite_none_right_eq_some] at hEmit
      exact ih hSafe hEmit.2
  | notify p c advance k ih =>
      obtain ⟨rest, hRest, -⟩ := Emission.prepend_eq_some.mp hEmit
      exact ih hSafe hRest
  | headersComplete p k ih =>
      obtain ⟨rest, hRest, -⟩ := Emission.prepend_eq_some.mp hEmit
      exact ih 0 (hSafe 0) hRest
  | messageComplete p k ih =>
      obtain ⟨rest, hRest, -⟩ := Emission.prepend_eq_some.mp hEmit
      exact ih _ hSafe hRest

end Doormat.Parser
