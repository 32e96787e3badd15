import Doormat.Parser.Stream

/-! Where the marks stand and what `nread` counts: which mark may be set in which
state, and that every step keeps to it. -/
namespace Doormat.Parser

open Bytes

/-- May the mark `cur`, or none, be set between two bytes in the state `s`? -/
def State.admits (s : State) (cur : Option Mark) : Bool :=
  match s with
  | .headerField => cur = some .headerField
  | .headerValue => cur = some .headerValue
  | .reqSchema | .reqSchemaSlash | .reqSchemaSlashSlash | .reqServerStart | .reqServer
  | .reqServerWithAt | .reqPath | .reqQueryStringStart | .reqQueryString | .reqFragmentStart
  | .reqFragment => cur = some .url
  | .resStatus => cur = some .status
  | .bodyIdentity | .bodyIdentityEof | .chunkData | .chunkDataAlmostDone =>
      cur = none ∨ cur = some .body
  | _ => cur = none

/-- The states between two bytes in which nothing of the section at hand has been
counted yet, or nothing is counted at all. -/
def State.uncounted (s : State) : Bool := s = .chunkSizeStart || !s.parsingHeader

/-- An inner loop belongs to its state, and its first byte has been counted. While
`memchr` looks, nobody matches the value. -/
def Loop.Fits (s : State) (nread : Nat) : Loop → Prop
  | .outer => True
  | .field _ => s = .headerField ∧ 0 < nread
  | .value read h skip =>
      s = .headerValue ∧ 0 < nread ∧ ∀ k, skip = some k → h = .general ∧ k ≤ read

/-- The invariant of the locals between two bytes. -/
structure Locals.Regular (l : Locals) : Prop where
  mark : l.fields.state.admits (l.mark.map Prod.fst)
  loop : l.loop.Fits l.fields.state l.nread
  nread : l.fields.state.uncounted → l.nread = 0

/-- What is not yet in `nread`: the bytes that an inner loop has read, or else the
next byte, where it is counted. -/
def Loop.pending (s : State) : Loop → Nat
  | .outer => if s.parsingHeader then 1 else 0
  | .field read => read
  | .value read _ _ => read

/-- What the count will be once the next byte, if it is not one more of an inner
loop, has been looked at. -/
def Locals.counted (l : Locals) : Nat := l.nread + l.loop.pending l.fields.state

/-- A program that, started with the mark `cur` and the count `nread`, calls nothing
else while a mark is set, counts up to `bound` and nothing after it has cleared the
count, never fails the assertion on the count, and ends in a regular configuration. -/
def Prog.Sound (bound : Nat) : Prog → Option Mark → Bool → Nat → Prop
  | .next p loop, cur, _, nread =>
      p.state.admits cur ∧ loop.Fits p.state nread ∧ (p.state.uncounted → nread = 0)
  | .leave p, cur, _, nread => cur = none ∧ (p.state.uncounted → nread = 0)
  | .fail _ _, _, _, _ => True
  | .abort, _, _, _ => True
  | .mark m k, cur, cleared, nread =>
      (cur = none ∨ cur = some m) ∧ k.Sound bound (some m) cleared nread
  | .data _ m _ _ k, cur, cleared, nread =>
      k.Sound bound (if cur = some m then none else cur) cleared nread
  | .count _ v k, cur, cleared, nread =>
      cleared = false ∧ nread + v ≤ bound ∧ k.Sound bound cur cleared (nread + v)
  | .clearNread k, cur, _, _ => k.Sound bound cur true 0
  | .assertNread v k, cur, cleared, nread => nread = v ∧ k.Sound bound cur cleared nread
  | .notify _ _ _ k, cur, cleared, nread => cur = none ∧ k.Sound bound cur cleared nread
  | .headersComplete _ k, cur, cleared, nread => cur = none ∧ (k 0).Sound bound cur cleared nread
  | .messageComplete _ k, cur, _, _ =>
      cur = none ∧ (k (HttpParser.init .both).toFields).Sound bound cur true 0

/-- A URL character leads to a state of the URL, or to none. -/
theorem parseUrlChar_admits (s : State) (ch : UInt8) :
    parseUrlChar s ch = .dead ∨ (parseUrlChar s ch).admits (some .url) := by
  unfold parseUrlChar parseUrlChar.server
  repeat' split
  all_goals simp [State.admits]

theorem parseUrlChar_counted (s : State) (ch : UInt8) : (parseUrlChar s ch).uncounted = false := by
  unfold parseUrlChar parseUrlChar.server
  repeat' split
  all_goals rfl

theorem matchNext_state (p : Fields) (c : UInt8) (constant : ByteString)
    (done other h : HeaderState) : (matchNext p c constant done other h).1.state = p.state := by
  unfold matchNext
  dsimp only
  repeat' split
  all_goals rfl

theorem fieldSwitch_state {p p' : Fields} {ch c : UInt8} (h : fieldSwitch p ch c = .go p') :
    p'.state = p.state := by
  unfold fieldSwitch at h
  split at h <;> simp only [Switch.go.injEq] at h
  case h_7 =>
    split at h
    · split at h <;> simp only [reduceCtorEq, Switch.go.injEq] at h
      simpa [← h] using matchNext_state p c (ofString "content-length") .contentLength .general _
    · rw [← Switch.go.inj h]
      exact matchNext_state p c (ofString "content-length") .contentLength .general _
  case h_10 | h_11 | h_12 | h_13 => split at h <;> rw [← Switch.go.inj h]
  case h_5 | h_6 | h_8 | h_9 => rw [← h]; exact matchNext_state p c _ _ .general _
  all_goals first | rw [← h] | cases h

theorem valueStartSwitch_state {p p' : Fields} {ch c : UInt8}
    (h : valueStartSwitch p ch c = .go p') : p'.state = p.state := by
  unfold valueStartSwitch at h
  split at h <;> (try split at h) <;> cases h <;> rfl

theorem valueSwitch_state {p : Fields} {h : HeaderState} {ch c : UInt8}
    {r : Fields × HeaderState} (hState : p.state = .headerValue)
    (hGo : valueSwitch p h ch c = .go r) : r.1.state = .headerValue := by
  unfold valueSwitch at hGo
  split at hGo <;> (repeat' split at hGo) <;> cases hGo <;>
    first | exact hState | exact (matchNext_state p c _ _ _ _).trans hState | rfl

theorem valueSwitch_general (p : Fields) (ch c : UInt8) :
    valueSwitch p .general ch c = .go (p, .general) := rfl

/-! ### Every state keeps to it -/

variable {p : Fields} {ch : UInt8} {n bound : Nat}

theorem messageDone_sound (p : Fields) (n : Nat) : (messageDone p).Sound bound none false n := by
  simp only [messageDone, Prog.Sound, HttpParser.init, Fields.advance]
  simp [Prog.Sound, State.admits, State.uncounted, State.parsingHeader, Loop.Fits]

theorem headersDone_sound (p : Fields) (ch : UInt8) (n : Nat) :
    (headersDone p ch).Sound bound none false n := by
  simp only [headersDone, Fields.strictCheck, Fields.fail, Fields.advance, Fields.updateState]
  repeat' split
  all_goals simp [Prog.Sound, State.admits, State.uncounted, State.parsingHeader, Loop.Fits, HttpParser.init, Fields.advance]

theorem headersAlmostDone_sound (p : Fields) (ch : UInt8) (n : Nat) :
    (headersAlmostDone p ch).Sound bound none false n := by
  simp only [headersAlmostDone, Fields.strictCheck, Fields.fail, Fields.updateState]
  repeat' split
  case isFalse.isTrue => exact ⟨rfl, messageDone_sound _ n⟩
  case isFalse.isFalse.isFalse => exact ⟨rfl, headersDone_sound _ ch n⟩
  all_goals trivial

theorem headerFieldStart_sound (p : Fields) (ch : UInt8) (n : Nat) :
    (headerFieldStart p ch).Sound bound none false n := by
  simp only [headerFieldStart, Fields.fail, Fields.updateState, Fields.advance]
  repeat' split
  case isFalse.isTrue => exact headersAlmostDone_sound _ ch n
  all_goals simp [Prog.Sound, State.admits, State.uncounted, State.parsingHeader, Loop.Fits]

theorem headerField_sound (hState : p.state = .headerField) (hPos : 0 < n) {read : Nat}
    (hBound : n + read ≤ bound) :
    (headerField p ch read).Sound bound (some .headerField) false n := by
  simp only [headerField, Fields.fail, Fields.updateState, Fields.advance]
  repeat' split
  case h_1 hGo =>
    have hNext := (fieldSwitch_state hGo).trans hState
    simp [Prog.Sound, State.admits, State.uncounted, State.parsingHeader, Loop.Fits, hNext, hPos]
  all_goals simp [Prog.Sound, State.admits, State.uncounted, State.parsingHeader, Loop.Fits, hBound]

theorem headerValueStart_sound (p : Fields) (ch : UInt8) (n : Nat) {cur : Option Mark}
    (hCur : cur = none) : (headerValueStart p ch).Sound bound cur false n := by
  subst hCur
  simp only [headerValueStart, Fields.fail, Fields.advance]
  split
  case h_1 hGo =>
    have hNext := valueStartSwitch_state hGo
    simp [Prog.Sound, State.admits, State.uncounted, State.parsingHeader, Loop.Fits, hNext]
  all_goals simp [Prog.Sound]

theorem headerAlmostDone_sound (p : Fields) (ch : UInt8) (n : Nat) :
    (headerAlmostDone p ch).Sound bound none false n := by
  simp only [headerAlmostDone, Fields.fail, Fields.updateState, Fields.advance]
  split <;> simp [Prog.Sound, State.admits, State.uncounted, State.parsingHeader, Loop.Fits]

theorem headerValue_sound (hState : p.state = .headerValue) (hPos : 0 < n) {read : Nat}
    (hBound : n + read ≤ bound) (h : HeaderState) : (headerValue p ch read h).Sound bound (some .headerValue) false n := by
  simp only [headerValue, Fields.fail, Fields.updateState, Fields.advance]
  split
  · simp [Prog.Sound, State.admits, State.uncounted, State.parsingHeader, Loop.Fits, hBound]
  split
  · exact ⟨rfl, hBound, headerAlmostDone_sound _ ch _⟩
  split
  · trivial
  split
  case h_1 p' h' hGo =>
    refine ⟨by rw [valueSwitch_state hState hGo]; rfl,
      ⟨valueSwitch_state hState hGo, hPos, fun k hSkip => ?_⟩,
      fun hStart => by rw [valueSwitch_state hState hGo] at hStart; cases hStart⟩
    split at hSkip
    case isTrue hGeneral =>
      subst hGeneral
      obtain ⟨-, rfl⟩ := by simpa [valueSwitch_general] using hGo
      obtain rfl := Option.some.inj hSkip
      exact ⟨rfl, by omega⟩
    case isFalse => cases hSkip
  all_goals trivial

theorem headerValueLoop_sound (hState : p.state = .headerValue) (hPos : 0 < n) {read : Nat}
    {h : HeaderState} {skip : Option Nat} (hBound : n + read ≤ bound)
    (hSkip : ∀ k, skip = some k → h = .general ∧ k ≤ read) :
    (headerValueLoop p ch read h skip).Sound bound (some .headerValue) false n := by
  unfold headerValueLoop
  split
  · exact headerValue_sound hState hPos hBound h
  case h_2 k =>
    split
    · exact headerValue_sound hState hPos hBound h
    · obtain ⟨rfl, hLe⟩ := hSkip k rfl
      simp only [Prog.Sound, hState, Loop.Fits, hPos, true_and]
      refine ⟨rfl, fun j hj => ?_, nofun⟩
      obtain rfl := Option.some.inj hj
      omega

theorem urlByte_sound (p : Fields) (ch : UInt8) (n : Nat) :
    (urlByte p ch).Sound bound (some .url) false n := by
  by_cases hDead : parseUrlChar p.state ch = .dead
  · simp [urlByte, Fields.updateState, Fields.fail, hDead, Prog.Sound]
  · simp [urlByte, Fields.updateState, Fields.advance, hDead, Prog.Sound, Loop.Fits,
      (parseUrlChar_admits p.state ch).resolve_left hDead,
      parseUrlChar_counted p.state ch]

theorem urlStart_sound (p : Fields) (ch : UInt8) (n : Nat) :
    (urlStart p ch).Sound bound (some .url) false n := by
  unfold urlStart
  split
  · trivial
  · exact urlByte_sound p ch n

theorem urlRest_sound (p : Fields) (ch : UInt8) (n : Nat) :
    (urlRest p ch).Sound bound (some .url) false n := by
  simp only [urlRest, Fields.updateState, Fields.advance]
  split
  · simp [Prog.Sound, State.admits, State.uncounted, State.parsingHeader, Loop.Fits]
  split
  · simp only [Prog.Sound, if_true, Loop.Fits, true_and]
    split <;> simp [State.admits, State.uncounted, State.parsingHeader]
  · exact urlByte_sound p ch n

/-- Of the byte that ends the body the message is told only after the body. -/
theorem bodyIdentity_sound (p : Fields) (n : Nat) {cur : Option Mark}
    (hCur : cur = none ∨ cur = some .body) (hState : p.state = .bodyIdentity) (hn : n = 0) :
    (bodyIdentity p).Sound bound cur false n := by
  simp only [bodyIdentity, assert, Fields.updateState, Fields.advance]
  split
  · split
    · exact ⟨hCur, by rw [Prog.Sound, if_pos rfl]; exact messageDone_sound _ n⟩
    · simp [Prog.Sound, hCur, hState, hn, State.admits, State.uncounted, State.parsingHeader, Loop.Fits]
  · trivial

/-- The states of a body keep to the marks. -/
theorem chunk_sound (ch : UInt8) {cur : Option Mark} (hMark : p.state.admits cur)
    (hn : p.state = .chunkSizeStart → n = 1) (hBody : p.state.parsingHeader = false → n = 0) :
    (p.state = .chunkSizeStart → (chunkSizeStart p ch).Sound bound cur false n) ∧
    (p.state = .chunkSize → (chunkSize p ch).Sound bound cur false n) ∧
    (p.state = .chunkParameters → (chunkParameters p ch).Sound bound cur false n) ∧
    (p.state = .chunkSizeAlmostDone → (chunkSizeAlmostDone p ch).Sound bound cur false n) ∧
    (p.state = .chunkData → (chunkData p).Sound bound cur false n) ∧
    (p.state = .chunkDataAlmostDone → (chunkDataAlmostDone p ch).Sound bound cur false n) ∧
    (p.state = .chunkDataDone → (chunkDataDone p ch).Sound bound cur false n) := by
  refine ⟨fun hs => ?_, fun hs => ?_, fun hs => ?_, fun hs => ?_, fun hs => ?_, fun hs => ?_,
    fun hs => ?_⟩
  all_goals
    simp only [hs, State.admits, State.parsingHeader, decide_eq_true_eq, forall_const,
      reduceCtorEq, false_implies] at hMark hn hBody
    simp only [chunkSizeStart, chunkSize, chunkParameters, chunkSizeAlmostDone, chunkData,
      chunkDataAlmostDone, chunkDataDone, assert, Fields.strictCheck, Fields.fail,
      Fields.updateState, Fields.advance]
    repeat' split
    all_goals simp_all [Prog.Sound, State.admits, State.uncounted, State.parsingHeader, Loop.Fits, or_comm]

theorem dispatch_sound {cur : Option Mark} (hMark : p.state.admits cur)
    (hPos : p.state.parsingHeader → 0 < n ∧ n ≤ bound) (hn : p.state = .chunkSizeStart → n = 1)
    (hBody : p.state.parsingHeader = false → n = 0) : (dispatch p ch).Sound bound cur false n := by
  obtain ⟨hSizeStart, hSize, hParameters, hSizeDone, hData, hDataDone, hChunkDone⟩ :=
    chunk_sound ch hMark hn hBody
  cases hs : p.state
  all_goals
    simp only [hs, State.admits, State.parsingHeader, decide_eq_true_eq, forall_const,
      reduceCtorEq] at hMark hPos hBody
    simp only [dispatch, hs]
  case chunkSizeStart => exact hSizeStart hs
  case chunkSize => exact hSize hs
  case chunkParameters => exact hParameters hs
  case chunkSizeAlmostDone => exact hSizeDone hs
  case chunkData => exact hData hs
  case chunkDataAlmostDone => exact hDataDone hs
  case chunkDataDone => exact hChunkDone hs
  case bodyIdentity => exact bodyIdentity_sound p n hMark hs hBody
  case bodyIdentityEof => simp [Prog.Sound, Fields.advance, hs, hBody, State.admits, State.uncounted, State.parsingHeader, Loop.Fits, hMark]
  all_goals subst hMark
  case messageDone => exact messageDone_sound p n
  case headersDone => exact headersDone_sound p ch n
  case headersAlmostDone => exact headersAlmostDone_sound p ch n
  case headerFieldStart => exact headerFieldStart_sound p ch n
  case headerField => exact headerField_sound hs hPos.1 hPos.2
  case headerValue => exact headerValue_sound hs hPos.1 hPos.2 _
  case headerValueStart => exact headerValueStart_sound p ch n rfl
  case headerAlmostDone => exact headerAlmostDone_sound p ch n
  case headerValueDiscardWs =>
    simp only [headerValueDiscardWs, Fields.advance, Fields.updateState]
    split
    · simp [Prog.Sound, hs, State.admits, State.uncounted, State.parsingHeader, Loop.Fits]
    split
    · simp [Prog.Sound, State.admits, State.uncounted, State.parsingHeader, Loop.Fits]
    split
    · simp [Prog.Sound, State.admits, State.uncounted, State.parsingHeader, Loop.Fits]
    · exact headerValueStart_sound p ch n rfl
  case headerValueDiscardLws =>
    simp only [headerValueDiscardLws, Fields.advance, Fields.updateState]
    split
    · simp [Prog.Sound, State.admits, State.uncounted, State.parsingHeader, Loop.Fits]
    · exact ⟨.inl rfl, headerFieldStart_sound _ ch n⟩
  case headerValueLws =>
    unfold headerValueLws
    split
    · exact headerValueStart_sound _ ch n rfl
    · exact headerFieldStart_sound _ ch n
  case reqSchema | reqSchemaSlash | reqSchemaSlashSlash | reqServerStart =>
    exact urlStart_sound p ch n
  case reqServer | reqServerWithAt | reqPath | reqQueryStringStart | reqQueryString
      | reqFragmentStart | reqFragment => exact urlRest_sound p ch n
  case reqSpacesBeforeUrl =>
    unfold reqSpacesBeforeUrl
    split
    · simp [Prog.Sound, Fields.advance, hs, State.admits, State.uncounted, State.parsingHeader, Loop.Fits]
    · exact ⟨.inl rfl, urlByte_sound _ ch n⟩
  -- the start line
  all_goals
    simp only [startReqOrRes, startReq, resOrRespH, startRes, literal, firstHttpMajor, httpMajor,
      firstHttpMinor, httpMinorDigit, resHttpMinor, resFirstStatusCode, resStatusCode,
      resStatusStart, resStatus, reqMethod, reqHttpStart, reqHttpMinor, reqLineAlmostDone,
      Fields.advance, Fields.fail, Fields.strictCheck, Fields.updateState, Fields.clearMessage]
    repeat' split
    all_goals simp [Prog.Sound, State.admits, State.uncounted, State.parsingHeader, Loop.Fits, hs]

/-- A step keeps to the marks and to the count. -/
theorem step_sound {l : Locals} (h : l.Regular) (ch : UInt8) :
    (step l.fields l.loop ch).Sound l.counted (l.mark.map Prod.fst) false l.nread := by
  obtain ⟨hMark, hLoop, hNread⟩ := h
  cases hl : l.loop with
  | outer =>
      simp only [step]
      split
      case isTrue hParsing =>
        have hBound : l.nread + 1 ≤ l.counted := by simp [Locals.counted, Loop.pending, hl, hParsing]
        exact ⟨rfl, hBound, dispatch_sound hMark (fun _ => ⟨by omega, hBound⟩)
          (fun hs => by rw [hNread (by rw [hs]; rfl)])
          fun hNot => by rw [hParsing] at hNot; cases hNot⟩
      case isFalse hParsing =>
        refine dispatch_sound hMark (fun hp => absurd hp hParsing) (fun hs => ?_)
          fun hNot => hNread (by simp [State.uncounted, hNot])
        rw [hs] at hParsing
        exact absurd rfl hParsing
  | field read =>
      rw [hl] at hLoop
      obtain ⟨hState, hPos⟩ := hLoop
      have hCur : l.mark.map Prod.fst = some .headerField := by
        simpa [hState, State.admits] using hMark
      rw [hCur]
      exact headerField_sound hState hPos (by simp [Locals.counted, Loop.pending, hl])
  | value read hValue skip =>
      rw [hl] at hLoop
      obtain ⟨hState, hPos, hSkip⟩ := hLoop
      have hCur : l.mark.map Prod.fst = some .headerValue := by
        simpa [hState, State.admits] using hMark
      rw [hCur]
      exact headerValueLoop_sound hState hPos (by simp [Locals.counted, Loop.pending, hl]) hSkip

theorem runOut_sound (cur : Option Mark) (hn : p.state.uncounted → n = 0) :
    (runOut p).Sound bound cur false n := by
  rcases cur with _ | m
  · simpa [runOut, Prog.Sound] using hn
  · cases m <;> simpa [runOut, Prog.Sound] using hn

/-- So does the end of a buffer. -/
theorem finish_sound {l : Locals} (h : l.Regular) :
    (finish l.fields l.loop).Sound l.counted (l.mark.map Prod.fst) false l.nread := by
  obtain ⟨-, hLoop, hNread⟩ := h
  cases hl : l.loop with
  | outer => exact runOut_sound _ hNread
  | field read =>
      rw [hl] at hLoop
      exact ⟨rfl, by simp [Locals.counted, Loop.pending, hl],
        runOut_sound _ fun hs => by rw [hLoop.1] at hs; cases hs⟩
  | value read hValue skip =>
      rw [hl] at hLoop
      exact ⟨rfl, by simp [Locals.counted, Loop.pending, hl],
        runOut_sound _ fun hs => by rw [hLoop.1] at hs; cases hs⟩

/-! ### Every run keeps to it -/

theorem admits_startMark (s : State) : s.admits (startMark s) := by
  cases s <;> rfl

theorem enter_regular {p : HttpParser} (hn : p.state.uncounted → p.nread = 0) :
    (enter p).Regular where
  mark := by
    have hStart : (enter p).mark.map Prod.fst = startMark p.state := by
      simp [enter, Function.comp_def]
    rw [hStart]
    exact admits_startMark p.state
  loop := trivial
  nread := hn

theorem emit_regular {prog : Prog} {marked : Option (Mark × ByteString)} {cleared : Bool}
    {flow : Flow} {cs : List Callback} (hSound : prog.Sound bound (marked.map Prod.fst) cleared n)
    (hEmit : prog.emit ch n marked = some (flow, cs)) : flow.locals.Regular := by
  induction prog generalizing n marked cleared cs with
  | next p loop =>
      obtain ⟨rfl, -⟩ := by simpa [Prog.emit] using hEmit
      obtain ⟨hMark, hLoop, hNread⟩ := hSound
      exact ⟨by simpa [Flow.locals, Function.comp_def] using hMark, hLoop, hNread⟩
  | leave p =>
      obtain ⟨rfl, -⟩ := by simpa [Prog.emit] using hEmit
      exact enter_regular hSound.2
  | fail p e => cases hEmit
  | abort => cases hEmit
  | mark m k ih =>
      obtain ⟨hCur, hk⟩ := hSound
      have hMarked : k.Sound bound ((some (marked.getD (m, []))).map Prod.fst) cleared n := by
        rcases marked with _ | ⟨set, bytes⟩
        · exact hk
        · obtain rfl : set = m := by simpa using hCur
          exact hk
      exact ih hMarked hEmit
  | data p m inclusive advance k ih =>
      simp only [Prog.emit] at hEmit
      rcases marked with _ | ⟨set, bytes⟩
      · exact ih (by simpa [Prog.Sound] using hSound) hEmit
      · simp only at hEmit
        split at hEmit
        case isTrue hNe => exact ih (by simpa [Prog.Sound, hNe] using hSound) hEmit
        case isFalse hEq =>
          obtain ⟨rest, hRest, -⟩ := Emission.prepend_eq_some.mp hEmit
          exact ih (by simpa [Prog.Sound, not_not.mp hEq] using hSound) hRest
  | count p v k ih =>
      simp only [Prog.emit] at hEmit
      split at hEmit
      · cases hEmit
      · exact ih hSound.2.2 hEmit
  | clearNread k ih => exact ih hSound hEmit
  | assertNread v k ih =>
      simp only [Prog.emit] at hEmit
      split at hEmit
      · exact ih hSound.2 hEmit
      · cases hEmit
  | notify p c advance k ih =>
      obtain ⟨rest, hRest, -⟩ := Emission.prepend_eq_some.mp hEmit
      exact ih hSound.2 hRest
  | headersComplete p k ih =>
      obtain ⟨rest, hRest, -⟩ := Emission.prepend_eq_some.mp hEmit
      exact ih 0 hSound.2 hRest
  | messageComplete p k ih =>
      obtain ⟨rest, hRest, -⟩ := Emission.prepend_eq_some.mp hEmit
      exact ih _ hSound.2 hRest

theorem read_regular {l l' : Locals} {cs : List Callback} (h : l.Regular)
    (hRead : l.read ch = some (l', cs)) : l'.Regular := by
  obtain ⟨flow, hEmit, rfl⟩ := Locals.read_eq_some.mp hRead
  exact emit_regular (step_sound h ch) hEmit

theorem close_regular {l : Locals} {p : HttpParser} {cs : List Callback} (h : l.Regular)
    (hClose : l.close = some (p, cs)) : (enter p).Regular := by
  unfold Locals.close at hClose
  split at hClose
  case h_1 hEmit =>
    cases hClose
    exact emit_regular (finish_sound h) hEmit
  case h_2 => cases hClose

theorem reads_regular {l l' : Locals} {bytes : ByteString} {cs : List Callback} (h : l.Regular)
    (hReads : l.reads bytes = some (l', cs)) : l'.Regular :=
  Transducer.reads_invariant (fun _ _ _ _ h hRead => read_regular h hRead) h hReads

end Doormat.Parser
