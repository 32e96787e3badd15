import Doormat.Parser.Abreast

/-! The contract of the data callbacks, byte by byte: a stream that is cut into
buffers runs beside the uncut one. A cut changes the data pieces, and it makes the
parser count one byte twice if it falls inside a header name or value. -/
namespace Doormat.Parser

open Bytes

variable {marked marked' : Option (Mark × ByteString)} {stack stack' : List Callback}

/-- The parser of a cut stream and the parser of the uncut one after the same bytes.
The first may have come to a name or a value anew, with the outer loop. -/
inductive SameParse (x y : Locals) : Prop
  | outer (hx : x.loop = .outer) (hy : y.loop = .outer) (hFields : y.fields = x.fields)
  | field {read : Nat} (hx : x.loop = .field read)
      (hy : y.loop = .outer ∨ ∃ read', y.loop = .field read') (hFields : y.fields = x.fields)
  | value {read : Nat} {h g : HeaderState} {skip : Option Nat} (hx : x.loop = .value read h skip)
      (hy : y.loop = .outer ∧ g = h ∨ ∃ read' skip', y.loop = .value read' h skip')
      (hFields : y.fields = { x.fields with headerState := g })

/-- The cut stream `y`, with the callbacks `stack'`, beside the uncut stream `x`. It has
counted `extra` bytes more in the section at hand. -/
structure Cut (x y : Locals) (stack stack' : List Callback) (extra : Nat) : Prop where
  parse : SameParse x y
  marks : Abreast x.mark y.mark stack stack'
  counted : y.counted = x.counted + extra
  cleared : x.nread = 0 → extra = 0

/-- The same after a byte that both have read: then neither begins a loop anew. -/
structure CutWithin (x y : Locals) (stack stack' : List Callback) (extra : Nat) : Prop
    extends Cut x y stack stack' extra where
  loop : y.loop = .outer → x.loop = .outer

/-- What is left of the extra count after a step to `x`: nothing if the step has
cleared the count. -/
def carry (x : Locals) (extra : Nat) : Nat := if x.nread = 0 then 0 else extra

/-- In the body the first byte of a buffer sets the mark again. -/
theorem dispatch_renews {p : Fields} {ch : UInt8} (hs : p.state.admits (some .body)) :
    (dispatch p ch).Renews := by
  cases h : p.state
  all_goals simp [h, State.admits] at hs
  all_goals simp only [h, dispatch]
  case bodyIdentityEof => rfl
  all_goals
    simp only [chunkData, chunkDataAlmostDone, bodyIdentity, assert, Fields.strictCheck]
    repeat' split
  all_goals simp [Prog.Renews, Fields.fail]

@[simp] theorem Flow.locals_nread (flow : Flow) : flow.locals.nread = flow.nread := by
  cases flow <;> rfl

/-- Flows that run abreast lead on abreast. -/
theorem Flow.Abreast.cut {flow flow' : Flow} {stack stack' : List Callback} {n extra : Nat}
    (h : flow.Abreast stack stack' flow') (hCounts : CountsAbreast n (n + extra) flow.nread flow'.nread)
    (hCleared : n = 0 → extra = 0) :
    CutWithin flow.locals flow'.locals stack stack' (carry flow.locals extra) := by
  have hNread : flow'.locals.nread = flow.locals.nread + carry flow.locals extra := by
    simp only [carry, locals_nread]
    rcases hCounts with ⟨hZero, hZero'⟩ | ⟨hDiff, hLe⟩
    · simp [hZero, hZero']
    · split <;> omega
  have hCarry : flow.locals.nread = 0 → carry flow.locals extra = 0 := fun h => if_pos h
  rcases h with ⟨hFields, hLoop, hMark, -⟩ | ⟨hFields, rfl⟩
  case next l l' =>
    refine ⟨⟨?_, hMark, ?_, hCarry⟩, fun h => hLoop ▸ h⟩
    · cases hl : l.loop with
      | outer => exact .outer hl (hLoop.trans hl) hFields
      | field read => exact .field hl (.inr ⟨read, hLoop.trans hl⟩) hFields
      | value read h skip =>
          exact .value (g := l.fields.headerState) hl (.inr ⟨read, skip, hLoop.trans hl⟩) hFields
    · simp only [Locals.counted, Flow.locals, hLoop, hFields] at hNread ⊢
      omega
  case ret p p' consumed =>
    have hEnter : (enter p').mark = (enter p).mark := by simp [enter, hFields]
    refine ⟨⟨.outer rfl rfl hFields, ?_, ?_, hCarry⟩, fun _ => rfl⟩
    · simp only [Flow.locals, hEnter]
      exact .refl _ _
    · simp only [Locals.counted, Flow.locals, enter, hFields] at hNread ⊢
      omega

theorem read_cut_outer {x y x' : Locals} {ch : UInt8} {stack stack' cs : List Callback} {extra : Nat}
    (hx : x.Regular) (hy : y.Regular) (hCut : Cut x y stack stack' extra)
    (hxl : x.loop = .outer) (hyl : y.loop = .outer) (hFields : y.fields = x.fields)
    (hBudget : x.fields.state.parsingHeader → x.counted + extra ≤ httpMaxHeaderSize)
    (hRead : x.read ch = some (x', cs)) :
    ∃ y' cs', y.read ch = some (y', cs') ∧
      CutWithin x' y' (pushAll stack cs) (pushAll stack' cs') (carry x' extra) := by
  obtain ⟨flow, hEmit, rfl⟩ := Locals.read_eq_some.mp hRead
  have hNread : y.nread = x.nread + extra := by
    have hCounted := hCut.counted
    simp only [Locals.counted, hxl, hyl, hFields] at hCounted
    omega
  have hSound' := step_sound hy ch
  rw [hyl, hFields] at hSound'
  have hRenews : x.mark.map Prod.fst = some .body → y.mark = none →
      (step x.fields x.loop ch).Renews := by
    rintro hBody -
    have hAdmits := hx.mark
    rw [hBody] at hAdmits
    rw [hxl]
    simp only [step]
    split
    · exact dispatch_renews hAdmits
    · exact dispatch_renews hAdmits
  have hBound : x.counted + y.nread ≤ httpMaxHeaderSize + x.nread := by
    by_cases hParsing : x.fields.state.parsingHeader
    · have := hBudget hParsing
      omega
    · have hZero := hx.nread (by simp [State.uncounted, hParsing])
      simp [Locals.counted, Loop.pending, hxl, hParsing, hNread, hZero, hCut.cleared hZero]
  obtain ⟨flow', cs', hEmit', hFlow, hCounts⟩ :=
    emit_abreast (step_sound hx ch) (hxl ▸ hSound') hCut.marks hRenews (by omega) hBound hEmit
  refine ⟨flow'.locals, cs', Locals.read_eq_some.mpr ⟨flow', ?_, rfl⟩, hFlow.cut ?_ hCut.cleared⟩
  · rw [hyl, hFields, ← hxl]
    exact hEmit'
  · rwa [hNread] at hCounts

section InnerLoop

variable {ch : UInt8} {p q : Fields} {n m v w extra : Nat} {flow : Flow} {cs : List Callback}

/-- The count at the end of an inner loop, which the cut stream may have begun anew. -/
theorem count_cut {k : Prog} (hSound : k.Sound (n + v) (marked.map Prod.fst) false (n + v))
    (hSound' : k.Sound (m + w) (marked'.map Prod.fst) false (m + w))
    (hAbreast : Abreast marked marked' stack stack') (hBody : marked.map Prod.fst ≠ some .body)
    (hPos : 0 < n) (hSum : m + w = n + v + extra) (hMax : m + w ≤ httpMaxHeaderSize)
    (hEmit : (Prog.count p v k).emit ch n marked = some (flow, cs)) :
    ∃ flow' cs', (Prog.count q w k).emit ch m marked' = some (flow', cs') ∧
      CutWithin flow.locals flow'.locals (pushAll stack cs) (pushAll stack' cs')
        (carry flow.locals extra) := by
  have hWithin : ¬ n + v > httpMaxHeaderSize := by omega
  rw [Prog.emit, if_neg hWithin] at hEmit
  obtain ⟨flow', cs', hEmit', hFlow, hCounts⟩ :=
    emit_abreast hSound hSound' hAbreast (fun h => absurd h hBody) (by omega) (by omega) hEmit
  refine ⟨flow', cs', ?_, hFlow.cut (hSum ▸ hCounts) (by omega)⟩
  rw [Prog.emit, if_neg (by omega), hEmit']

/-- The loop of `s_header_field`, begun anew or not. -/
theorem headerField_cut (hState : p.state = .headerField)
    (hCur : marked.map Prod.fst = some .headerField) (hAbreast : Abreast marked marked' stack stack')
    (hPos : 0 < n) (hSum : m + w = n + v + extra) (hMax : m + w ≤ httpMaxHeaderSize)
    (hPos' : 0 < m)
    (hEmit : (headerField p ch v).emit ch n marked = some (flow, cs)) :
    ∃ flow' cs', (headerField p ch w).emit ch m marked' = some (flow', cs') ∧
      CutWithin flow.locals flow'.locals (pushAll stack cs) (pushAll stack' cs')
        (carry flow.locals extra) := by
  have hKinds : marked'.map Prod.fst = marked.map Prod.fst :=
    hAbreast.kinds.resolve_right fun h => by rw [hCur] at h; cases h.1
  have hSound : (headerField p ch v).Sound (n + v) (some .headerField) false n :=
    headerField_sound hState hPos (le_refl (n + v))
  have hSound' : (headerField p ch w).Sound (m + w) (some .headerField) false m :=
    headerField_sound hState hPos' (le_refl (m + w))
  rw [← hCur] at hSound hSound'
  rw [← hKinds] at hSound'
  by_cases hToken : token ch = 0
  · simp only [headerField, hToken, if_true] at hSound hSound' hEmit ⊢
    exact count_cut hSound.2.2 hSound'.2.2 hAbreast (by simp [hCur]) hPos hSum hMax hEmit
  · simp only [headerField, hToken, if_false] at hEmit ⊢
    cases hSwitch : fieldSwitch p ch (token ch) with
    | go p' =>
        simp only [hSwitch, Prog.emit, Option.some.injEq, Prod.mk.injEq] at hEmit ⊢
        obtain ⟨rfl, rfl⟩ := hEmit
        refine ⟨_, _, ⟨rfl, rfl⟩, ⟨.field rfl (.inr ⟨_, rfl⟩) rfl, hAbreast.advance hKinds ch, ?_,
          fun h => if_pos h⟩, (fun h => by cases h)⟩
        simp only [Flow.locals, Locals.counted, Loop.pending, carry, hPos.ne', if_false]
        omega
    | error p' e => simp [hSwitch, Fields.fail, Prog.emit] at hEmit
    | abort => simp [hSwitch, Prog.emit] at hEmit

theorem matchNext_headerState (p : Fields) (g : HeaderState) (c : UInt8) (constant : ByteString)
    (done other h : HeaderState) :
    matchNext { p with headerState := g } c constant done other h =
      ({ (matchNext p c constant done other h).1 with headerState := g },
        (matchNext p c constant done other h).2) := by
  unfold matchNext
  dsimp only
  repeat' split
  all_goals rfl

/-- The switch of the value loop works on the local `h_state` only. -/
theorem valueSwitch_headerState {p p' : Fields} {g h h' : HeaderState} {ch c : UInt8}
    (hGo : valueSwitch p h ch c = .go (p', h')) :
    valueSwitch { p with headerState := g } h ch c = .go ({ p' with headerState := g }, h') := by
  cases h
  case matchingTransferEncodingChunked | matchingConnectionKeepAlive | matchingConnectionClose
      | matchingConnectionUpgrade =>
    simp only [valueSwitch, Switch.go.injEq] at hGo ⊢
    rw [matchNext_headerState, hGo]
  all_goals
    dsimp only [valueSwitch] at hGo ⊢
    try split_ifs at hGo ⊢
    all_goals cases hGo
    all_goals rfl

/-- Data may as well be handed over after the count. -/
theorem emit_data_count (p q : Fields) (m : Mark) (inclusive advance : Bool) (k : Prog) (v n : Nat)
    (marked : Option (Mark × ByteString)) :
    (Prog.data p m inclusive advance (.count q v k)).emit ch n marked =
      (Prog.count q v (.data p m inclusive advance k)).emit ch n marked := by
  rcases marked with _ | ⟨set, bytes⟩
  · rfl
  · simp only [Prog.emit]
    split_ifs <;> rfl

/-- The end of a value, at which the local `h_state` is stored. -/
theorem headerValue_end_cut {g h : HeaderState} (hCur : marked.map Prod.fst = some .headerValue)
    (hAbreast : Abreast marked marked' stack stack') (hPos : 0 < n) (hSum : m + w = n + v + extra)
    (hMax : m + w ≤ httpMaxHeaderSize) (hEnd : ch = CR ∨ ch = LF)
    (hEmit : (headerValue p ch v h).emit ch n marked = some (flow, cs)) :
    ∃ flow' cs', (headerValue { p with headerState := g } ch w h).emit ch m marked' =
        some (flow', cs') ∧
      CutWithin flow.locals flow'.locals (pushAll stack cs) (pushAll stack' cs')
        (carry flow.locals extra) := by
  have hCur' : marked'.map Prod.fst = some .headerValue :=
    (hAbreast.kinds.resolve_right fun h => by rw [hCur] at h; cases h.1).trans hCur
  have hNotBody : marked.map Prod.fst ≠ some .body := by simp [hCur]
  rcases hEnd with rfl | rfl
  · simp only [headerValue, if_true] at hEmit ⊢
    rw [emit_data_count] at hEmit ⊢
    refine count_cut ?_ ?_ hAbreast hNotBody hPos hSum hMax hEmit
    · simp [Prog.Sound, Fields.advance, hCur, State.admits, State.uncounted, State.parsingHeader,
        Loop.Fits]
    · simp [Prog.Sound, Fields.advance, hCur', State.admits, State.uncounted, State.parsingHeader,
        Loop.Fits]
  · have hNe : LF ≠ CR := by decide
    simp only [headerValue, if_neg hNe, if_true, Fields.updateState] at hEmit ⊢
    refine count_cut ?_ ?_ hAbreast hNotBody hPos hSum hMax hEmit
    · rw [hCur]
      exact headerAlmostDone_sound _ _ _
    · rw [hCur']
      exact headerAlmostDone_sound _ _ _

/-- Within a value the cut stream may check bytes that the uncut one skips. -/
theorem headerValue_more_cut {g h : HeaderState}
    (hCur : marked.map Prod.fst = some .headerValue)
    (hAbreast : Abreast marked marked' stack stack') (hPos : 0 < n) (hSum : m + w = n + v + extra)
    (hEnd : ¬ (ch = CR ∨ ch = LF)) (hChar : isHeaderChar ch)
    (hEmit : (headerValue p ch v h).emit ch n marked = some (flow, cs)) :
    ∃ flow' cs', (headerValue { p with headerState := g } ch w h).emit ch m marked' =
        some (flow', cs') ∧
      CutWithin flow.locals flow'.locals (pushAll stack cs) (pushAll stack' cs')
        (carry flow.locals extra) := by
  have hKinds : marked'.map Prod.fst = marked.map Prod.fst :=
    hAbreast.kinds.resolve_right fun h => by rw [hCur] at h; cases h.1
  obtain ⟨hCR, hLF⟩ := not_or.mp hEnd
  simp only [headerValue, hCR, hLF, hChar, Bool.not_true, Bool.false_eq_true, if_false] at hEmit ⊢
  cases hSwitch : valueSwitch p h ch (LOWER ch) with
  | go r =>
      obtain ⟨p', h'⟩ := r
      rw [valueSwitch_headerState hSwitch]
      simp only [hSwitch, Prog.emit, Option.some.injEq, Prod.mk.injEq] at hEmit ⊢
      obtain ⟨rfl, rfl⟩ := hEmit
      refine ⟨_, _, ⟨rfl, rfl⟩, ⟨.value rfl (.inr ⟨_, _, rfl⟩) rfl, hAbreast.advance hKinds ch, ?_,
        fun h => if_pos h⟩, (fun h => by cases h)⟩
      simp only [Flow.locals, Locals.counted, Loop.pending, carry, hPos.ne', if_false]
      omega
  | error p' e => simp [hSwitch, Fields.fail, Prog.emit] at hEmit
  | abort => simp [hSwitch, Prog.emit] at hEmit

/-- A byte within a value that nobody matches, whether `memchr` looks for its end
or not. -/
theorem headerValueLoop_general (p : Fields) (read : Nat) (skip : Option Nat)
    (hEnd : ¬ (ch = CR ∨ ch = LF)) (hChar : isHeaderChar ch) :
    ∃ j, headerValueLoop p ch read .general skip = .next p (.value (read + 1) .general (some j)) := by
  obtain ⟨hCR, hLF⟩ := not_or.mp hEnd
  cases skip with
  | none => exact ⟨1, by simp [headerValueLoop, headerValue, hCR, hLF, hChar, valueSwitch_general]⟩
  | some k => exact ⟨k + 1, by simp [headerValueLoop, hEnd]⟩

/-- The end of a value is seen by `memchr`, too, as long as the header fits. -/
theorem headerValueLoop_eq {h : HeaderState} {skip : Option Nat}
    (hSkip : ∀ k, skip = some k → h = .general ∧ k ≤ v) (hMax : v < httpMaxHeaderSize)
    (h' : (ch = CR ∨ ch = LF) ∨ h ≠ .general) :
    headerValueLoop p ch v h skip = headerValue p ch v h := by
  cases skip with
  | none => rfl
  | some k =>
      obtain ⟨hGeneral, hLe⟩ := hSkip k rfl
      have hEnd := h'.resolve_right (fun hNot => hNot hGeneral)
      rw [headerValueLoop, if_pos ⟨hEnd, by omega⟩]

/-- The loop of `s_header_value`, begun anew or not. -/
theorem headerValueLoop_cut {g h : HeaderState} {skip t : Option Nat}
    (hCur : marked.map Prod.fst = some .headerValue)
    (hAbreast : Abreast marked marked' stack stack') (hPos : 0 < n) (hPos' : 0 < m)
    (hSum : m + w = n + v + extra) (hMax : m + w ≤ httpMaxHeaderSize)
    (hSkip : ∀ k, skip = some k → h = .general ∧ k ≤ v)
    (hSkip' : ∀ k, t = some k → h = .general ∧ k ≤ w) (hChar : isHeaderChar ch)
    (hEmit : (headerValueLoop p ch v h skip).emit ch n marked = some (flow, cs)) :
    ∃ flow' cs', (headerValueLoop { p with headerState := g } ch w h t).emit ch m marked' =
        some (flow', cs') ∧
      CutWithin flow.locals flow'.locals (pushAll stack cs) (pushAll stack' cs')
        (carry flow.locals extra) := by
  by_cases hEnd : ch = CR ∨ ch = LF
  · rw [headerValueLoop_eq hSkip (by omega) (.inl hEnd)] at hEmit
    rw [headerValueLoop_eq hSkip' (by omega) (.inl hEnd)]
    exact headerValue_end_cut hCur hAbreast hPos hSum hMax hEnd hEmit
  by_cases hGeneral : h = .general
  · subst hGeneral
    have hKinds : marked'.map Prod.fst = marked.map Prod.fst :=
      hAbreast.kinds.resolve_right fun h => by rw [hCur] at h; cases h.1
    obtain ⟨j, hLoop⟩ := headerValueLoop_general p v skip hEnd hChar
    obtain ⟨j', hLoop'⟩ := headerValueLoop_general { p with headerState := g } w t hEnd hChar
    rw [hLoop] at hEmit
    rw [hLoop']
    simp only [Prog.emit, Option.some.injEq, Prod.mk.injEq] at hEmit ⊢
    obtain ⟨rfl, rfl⟩ := hEmit
    refine ⟨_, _, ⟨rfl, rfl⟩, ⟨.value rfl (.inr ⟨_, _, rfl⟩) rfl, hAbreast.advance hKinds ch, ?_,
      fun h => if_pos h⟩, (fun h => by cases h)⟩
    simp only [Flow.locals, Locals.counted, Loop.pending, carry, hPos.ne', if_false]
    omega
  · rw [headerValueLoop_eq hSkip (by omega) (.inr hGeneral)] at hEmit
    rw [headerValueLoop_eq hSkip' (by omega) (.inr hGeneral)]
    exact headerValue_more_cut hCur hAbreast hPos hSum hEnd hChar hEmit

end InnerLoop

/-- A buffer that begins inside a name or a value counts its first byte, and then
goes through it in a new inner loop. -/
theorem read_again {y y' : Locals} {ch : UInt8} {prog : Prog} {cs : List Callback}
    (hyl : y.loop = .outer) (hParsing : y.fields.state.parsingHeader)
    (hDispatch : dispatch y.fields ch = prog) (hWithin : y.nread + 1 ≤ httpMaxHeaderSize) :
    y.read ch = some (y', cs) ↔
      ∃ flow, prog.emit ch (y.nread + 1) y.mark = some (flow, cs) ∧ flow.locals = y' := by
  rw [Locals.read_eq_some, hyl]
  simp only [step, hParsing, if_true, Prog.emit, if_neg (not_lt.mpr hWithin), hDispatch]

/-- One byte more in both streams, as long as the count of the cut one allows it. -/
theorem read_cut {x y x' : Locals} {ch : UInt8} {cs : List Callback} {extra : Nat}
    (hx : x.Regular) (hy : y.Regular) (hCut : Cut x y stack stack' extra)
    (hBudget : x.fields.state.parsingHeader → x.counted + extra ≤ httpMaxHeaderSize)
    (hChar : x.fields.state = .headerValue → isHeaderChar ch)
    (hRead : x.read ch = some (x', cs)) :
    ∃ y' cs', y.read ch = some (y', cs') ∧
      CutWithin x' y' (pushAll stack cs) (pushAll stack' cs') (carry x' extra) := by
  rcases hCut.parse with ⟨hxl, hyl, hFields⟩ | ⟨hxl, hyl, hFields⟩ | ⟨hxl, hyl, hFields⟩
  case outer => exact read_cut_outer hx hy hCut hxl hyl hFields hBudget hRead
  case field read =>
    obtain ⟨flow, hEmit, rfl⟩ := Locals.read_eq_some.mp hRead
    obtain ⟨hState, hPos⟩ := hxl ▸ hx.loop
    have hState' : y.fields.state = .headerField := by rw [hFields, hState]
    have hWithin := hBudget (by rw [hState]; rfl)
    have hCur : x.mark.map Prod.fst = some .headerField := by
      simpa [hState, State.admits] using hx.mark
    have hCounted := hCut.counted
    simp only [Locals.counted, hxl, Loop.pending] at hCounted hWithin
    rw [hxl, step] at hEmit
    rcases hyl with hyl | ⟨read', hyl⟩
    · simp only [hyl, hState', State.parsingHeader, if_true] at hCounted
      obtain ⟨flow', cs', hEmit', hCut'⟩ := headerField_cut (w := 0) (m := y.nread + 1) hState hCur
        hCut.marks hPos (by omega) (by omega) (by omega) hEmit
      refine ⟨flow'.locals, cs', (read_again hyl (by rw [hState']; rfl) ?_ (by omega)).mpr
        ⟨flow', hEmit', rfl⟩, hCut'⟩
      rw [hFields, dispatch, hState]
    · simp only [hyl] at hCounted
      obtain ⟨-, hPos'⟩ := hyl ▸ hy.loop
      obtain ⟨flow', cs', hEmit', hCut'⟩ := headerField_cut hState hCur
        hCut.marks hPos hCounted (by omega) hPos' hEmit
      refine ⟨flow'.locals, cs', Locals.read_eq_some.mpr ⟨flow', ?_, rfl⟩, hCut'⟩
      rw [hyl, hFields]
      exact hEmit'
  case value read h g skip =>
    obtain ⟨flow, hEmit, rfl⟩ := Locals.read_eq_some.mp hRead
    obtain ⟨hState, hPos, hSkip⟩ := hxl ▸ hx.loop
    have hState' : y.fields.state = .headerValue := by rw [hFields]; exact hState
    have hWithin := hBudget (by rw [hState]; rfl)
    have hCur : x.mark.map Prod.fst = some .headerValue := by
      simpa [hState, State.admits] using hx.mark
    have hCounted := hCut.counted
    simp only [Locals.counted, hxl, Loop.pending] at hCounted hWithin
    rw [hxl, step] at hEmit
    rcases hyl with ⟨hyl, rfl⟩ | ⟨read', skip', hyl⟩
    · simp only [hyl, hState', State.parsingHeader, if_true] at hCounted
      obtain ⟨flow', cs', hEmit', hCut'⟩ := headerValueLoop_cut (w := 0) (m := y.nread + 1)
        (t := none) (g := g) hCur hCut.marks hPos (by omega) (by omega) (by omega) hSkip (by simp)
        (hChar hState) hEmit
      refine ⟨flow'.locals, cs', (read_again hyl (by rw [hState']; rfl) ?_ (by omega)).mpr
        ⟨flow', hEmit', rfl⟩, hCut'⟩
      rw [dispatch, hState', hFields]
      rfl
    · simp only [hyl] at hCounted
      obtain ⟨-, hPos', hSkip'⟩ := hyl ▸ hy.loop
      obtain ⟨flow', cs', hEmit', hCut'⟩ := headerValueLoop_cut (g := g) hCur hCut.marks hPos hPos'
        hCounted (by omega) hSkip hSkip' (hChar hState) hEmit
      refine ⟨flow'.locals, cs', Locals.read_eq_some.mpr ⟨flow', ?_, rfl⟩, hCut'⟩
      rw [hyl, hFields]
      exact hEmit'

/-! ### The end of a buffer -/

/-- The fields after an inner loop has been left at the end of a buffer. -/
def Loop.settle (p : Fields) : Loop → Fields
  | .value _ h _ => { p with headerState := h }
  | _ => p

/-- The callbacks for the mark that is left. -/
def leftOver (statusCode : Nat) : Option (Mark × ByteString) → List Callback
  | none => []
  | some (m, bytes) => [.data (m.code statusCode) m bytes]

theorem runOut_emit (p : Fields) (ch : UInt8) (n : Nat) (marked : Option (Mark × ByteString)) :
    (runOut p).emit ch n marked = some (.ret ⟨p, n, none⟩ true, leftOver p.statusCode marked) := by
  rcases marked with _ | ⟨m, bytes⟩
  · rfl
  · cases m <;> simp [runOut, Prog.emit, leftOver, Emission.prepend]

/-- The parser after the end of a buffer. -/
def Locals.settled (l : Locals) : HttpParser where
  toFields := l.loop.settle l.fields
  nread := match l.loop with
    | .outer => l.nread
    | _ => l.counted
  errno := none

theorem Locals.close_eq (l : Locals) :
    l.close =
      if l.loop ≠ .outer ∧ l.counted > httpMaxHeaderSize then none
      else some (l.settled, leftOver l.fields.statusCode l.mark) := by
  rcases hl : l.loop with _ | _ | _
  · simp [close, finish, hl, runOut_emit, settled, Loop.settle]
  all_goals
    simp only [close, finish, hl, Prog.emit, runOut_emit, settled, Loop.settle, counted,
      Loop.pending, ne_eq, reduceCtorEq, not_false_eq_true, true_and]
    split_ifs <;> rfl

theorem startMark_of_admits_none {s : State} (h : s.admits none) : startMark s = none := by
  revert h
  cases s <;> simp [State.admits, startMark]

theorem startMark_of_admits_body {s : State} (h : s.admits (some .body)) : startMark s = none := by
  revert h
  cases s <;> simp [State.admits, startMark]

theorem startMark_of_admits {s : State} {m : Mark} (h : s.admits (some m)) (hm : m ≠ .body) :
    startMark s = some m := by
  revert h
  cases s
  all_goals simp only [State.admits, startMark, decide_eq_true_eq, Option.some.injEq, reduceCtorEq,
    false_or, false_implies]
  all_goals rintro rfl
  all_goals first | rfl | exact absurd rfl hm

@[simp] theorem Locals.settled_state (l : Locals) : l.settled.state = l.fields.state := by
  simp only [settled]
  cases l.loop <;> rfl

/-- The data behind a mark is handed over at the end of the buffer, and the mark set
anew for the next one. -/
theorem Abreast.cut {l : Locals} (hl : l.Regular) (h : Abreast marked l.mark stack stack') :
    Abreast marked (enter l.settled).mark stack
      (pushAll stack' (leftOver l.fields.statusCode l.mark)) := by
  have hAdmits := hl.mark
  rcases hMark : l.mark with _ | ⟨m, bytes⟩
  · rw [hMark] at hAdmits
    simpa [enter, startMark_of_admits_none hAdmits, leftOver, hMark] using h
  rw [hMark] at hAdmits h
  have hKinds : marked.map Prod.fst = some m := by
    simpa using (h.kinds.resolve_right fun hNone => by cases hNone.2).symm
  by_cases hm : m = .body
  · subst hm
    rw [enter, Locals.settled_state, startMark_of_admits_body hAdmits]
    exact ⟨.inr ⟨hKinds, rfl⟩, h.full⟩
  · rw [enter, Locals.settled_state, startMark_of_admits hAdmits hm]
    refine ⟨.inl (by simp [hKinds]), fun code => ?_⟩
    have hFull := h.full code
    simp only [Parser.full] at hFull
    simp [Parser.full, leftOver, push_push, hFull]

/-- The cut stream goes on with the next buffer. A boundary inside a name or a value
makes one byte count twice. -/
theorem close_cut {x y : Locals} {extra : Nat} (hx : x.Regular) (hy : y.Regular)
    (hCut : CutWithin x y stack stack' extra)
    (hBudget : x.loop ≠ .outer → x.counted + extra ≤ httpMaxHeaderSize) :
    ∃ p cs, y.close = some (p, cs) ∧
      Cut x (enter p) stack (pushAll stack' cs) (if x.loop = .outer then extra else extra + 1) := by
  have hCounted := hCut.counted
  rcases hCut.parse with ⟨hxl, hyl, hFields⟩ | ⟨hxl, hyl, hFields⟩ | ⟨hxl, hyl, hFields⟩
  case outer =>
    refine ⟨_, _, by rw [Locals.close_eq, if_neg (by simp [hyl])], .outer hxl rfl ?_,
      hCut.marks.cut hy, ?_, ?_⟩
    · simpa [enter, Locals.settled, hyl, Loop.settle] using hFields
    · simpa [Locals.counted, enter, Locals.settled, hxl, hyl, Loop.settle] using hCounted
    · simpa [hxl] using hCut.cleared
  case field read =>
    obtain ⟨read', hyl⟩ := hyl.resolve_left fun hOuter => by
      have := hCut.loop hOuter; rw [hxl] at this; cases this
    obtain ⟨hState, hPos⟩ := hxl ▸ hx.loop
    have hWithin := hBudget (by simp [hxl])
    refine ⟨_, _, by rw [Locals.close_eq, if_neg (by omega)], .field hxl (.inl rfl) ?_,
      hCut.marks.cut hy, ?_, fun hZero => by omega⟩
    · simpa [enter, Locals.settled, hyl, Loop.settle] using hFields
    · simp only [hxl, reduceCtorEq, if_false, ← Nat.add_assoc, ← hCounted]
      simp [Locals.counted, enter, Locals.settled, hyl, Loop.settle, Loop.pending, hFields, hState,
        State.parsingHeader]
  case value read h g skip =>
    obtain ⟨read', skip', hyl⟩ := hyl.resolve_left fun hOuter => by
      have := hCut.loop hOuter.1; rw [hxl] at this; cases this
    obtain ⟨hState, hPos, -⟩ := hxl ▸ hx.loop
    have hWithin := hBudget (by simp [hxl])
    refine ⟨_, _, by rw [Locals.close_eq, if_neg (by omega)],
      .value (g := h) hxl (.inl ⟨rfl, rfl⟩) ?_, hCut.marks.cut hy, ?_, fun hZero => by omega⟩
    · simp [enter, Locals.settled, hyl, Loop.settle, hFields]
    · simp only [hxl, reduceCtorEq, if_false, ← Nat.add_assoc, ← hCounted]
      simp [Locals.counted, enter, Locals.settled, hyl, Loop.settle, Loop.pending, hFields, hState,
        State.parsingHeader]

end Doormat.Parser
