import Doormat.Parser.Marks

/-! Message boundaries: a step that completes a message leaves the parser as it was
before the first one, and only such a step returns early. -/
namespace Doormat.Parser

open Bytes

/-- The parser between two messages. -/
abbrev fresh : HttpParser := .init .both

/-- A program that after a completed message does nothing but go on or return with
the new parser, and returns nowhere else. -/
def Prog.Restarts : Prog → Prop
  | .next _ _ => True
  | .leave _ => False
  | .fail _ _ => True
  | .abort => True
  | .mark _ k => k.Restarts
  | .data _ _ _ _ k => k.Restarts
  | .count _ _ k => k.Restarts
  | .clearNread k => k.Restarts
  | .assertNread _ k => k.Restarts
  | .notify _ _ _ k => k.Restarts
  | .headersComplete _ k => (k 0).Restarts
  | .messageComplete _ k => k fresh.toFields = .next fresh.toFields .outer ∨ k fresh.toFields = .leave fresh.toFields

/-- A program that returns nowhere but after a completed message, like `Restarts`, and
of which `Q` holds when the headers are complete. -/
def Prog.AfterHeaders (Q : Fields → Prog → Prop) : Prog → Prop
  | .next _ _ => True
  | .leave _ => False
  | .fail _ _ => True
  | .abort => True
  | .mark _ k => k.AfterHeaders Q
  | .data _ _ _ _ k => k.AfterHeaders Q
  | .count _ _ k => k.AfterHeaders Q
  | .clearNread k => k.AfterHeaders Q
  | .assertNread _ k => k.AfterHeaders Q
  | .notify _ _ _ k => k.AfterHeaders Q
  | .headersComplete p k => Q p (k 0)
  | .messageComplete _ k => k fresh.toFields = .next fresh.toFields .outer ∨ k fresh.toFields = .leave fresh.toFields

section AfterHeaders

variable {Q : Fields → Prog → Prop}

theorem messageDone_afterHeaders (p : Fields) : (messageDone p).AfterHeaders Q := .inl rfl

theorem headersDone_afterHeaders (p : Fields) (ch : UInt8) : (headersDone p ch).AfterHeaders Q := by
  simp only [headersDone, Fields.strictCheck, Fields.fail, Fields.advance]
  repeat' split
  all_goals simp [Prog.AfterHeaders, Fields.advance]

theorem headersAlmostDone_afterHeaders (hQ : ∀ p, Q p (headersDone p LF)) (p : Fields) (ch : UInt8) :
    (headersAlmostDone p ch).AfterHeaders Q := by
  simp only [headersAlmostDone, Fields.strictCheck, Fields.fail]
  split
  · trivial
  case isFalse hLF =>
    have hLF : ch = LF := by simpa using hLF
    subst hLF
    split
    · exact .inl rfl
    split
    · trivial
    · exact hQ _

theorem headerFieldStart_afterHeaders (hQ : ∀ p, Q p (headersDone p LF)) (p : Fields) (ch : UInt8) :
    (headerFieldStart p ch).AfterHeaders Q := by
  simp only [headerFieldStart, Fields.advance, Fields.fail]
  repeat' split
  case isFalse.isTrue => exact headersAlmostDone_afterHeaders hQ _ ch
  all_goals trivial

theorem headerField_afterHeaders (p : Fields) (ch : UInt8) (read : Nat) :
    (headerField p ch read).AfterHeaders Q := by
  simp only [headerField, Fields.advance, Fields.fail]
  repeat' split
  all_goals trivial

theorem headerValueStart_afterHeaders (p : Fields) (ch : UInt8) :
    (headerValueStart p ch).AfterHeaders Q := by
  simp only [headerValueStart, Fields.advance, Fields.fail]
  split <;> trivial

theorem headerValue_afterHeaders (p : Fields) (ch : UInt8) (read : Nat) (h : HeaderState) :
    (headerValue p ch read h).AfterHeaders Q := by
  simp only [headerValue, headerAlmostDone, Fields.advance, Fields.fail]
  repeat' split
  all_goals simp [Prog.AfterHeaders]

theorem urlByte_afterHeaders (p : Fields) (ch : UInt8) : (urlByte p ch).AfterHeaders Q := by
  by_cases hDead : parseUrlChar p.state ch = .dead
  · simp [urlByte, Fields.updateState, Fields.fail, hDead, Prog.AfterHeaders]
  · simp [urlByte, Fields.updateState, Fields.advance, hDead, Prog.AfterHeaders]

theorem dispatch_afterHeaders (hQ : ∀ p, Q p (headersDone p LF)) (p : Fields) (ch : UInt8) :
    (dispatch p ch).AfterHeaders Q := by
  cases hs : p.state
  all_goals simp only [dispatch, hs]
  case messageDone => exact messageDone_afterHeaders p
  case headersDone => exact headersDone_afterHeaders p ch
  case headersAlmostDone => exact headersAlmostDone_afterHeaders hQ p ch
  case headerFieldStart => exact headerFieldStart_afterHeaders hQ p ch
  case headerField => exact headerField_afterHeaders p ch 0
  case headerValue => exact headerValue_afterHeaders p ch 0 _
  case headerValueStart => exact headerValueStart_afterHeaders p ch
  case headerValueDiscardWs =>
    simp only [headerValueDiscardWs, Fields.advance]
    repeat' split
    case isFalse.isFalse.isFalse => exact headerValueStart_afterHeaders p ch
    all_goals trivial
  case headerValueDiscardLws =>
    simp only [headerValueDiscardLws, Fields.advance]
    split
    · trivial
    · exact headerFieldStart_afterHeaders hQ _ ch
  case headerValueLws =>
    unfold headerValueLws
    split
    · exact headerValueStart_afterHeaders _ ch
    · exact headerFieldStart_afterHeaders hQ _ ch
  case reqSpacesBeforeUrl =>
    unfold reqSpacesBeforeUrl
    split
    · trivial
    · exact urlByte_afterHeaders _ ch
  case reqSchema | reqSchemaSlash | reqSchemaSlashSlash | reqServerStart =>
    unfold urlStart
    split
    · trivial
    · exact urlByte_afterHeaders p ch
  case reqServer | reqServerWithAt | reqPath | reqQueryStringStart | reqQueryString
      | reqFragmentStart | reqFragment =>
    simp only [urlRest, Fields.advance]
    split
    · trivial
    split
    · trivial
    · exact urlByte_afterHeaders p ch
  case bodyIdentity =>
    simp only [bodyIdentity, assert, Fields.advance]
    repeat' split
    · exact .inl rfl
    all_goals trivial
  all_goals
    simp only [startReqOrRes, startReq, resOrRespH, startRes, literal, firstHttpMajor, httpMajor,
      firstHttpMinor, httpMinorDigit, resHttpMinor, resFirstStatusCode, resStatusCode,
      resStatusStart, resStatus, reqMethod, reqHttpStart, reqHttpMinor, reqLineAlmostDone,
      headerAlmostDone, chunkSizeStart, chunkSize, chunkParameters, chunkSizeAlmostDone, chunkData,
      chunkDataAlmostDone, chunkDataDone, assert, Fields.advance, Fields.fail, Fields.strictCheck]
    repeat' split
    all_goals simp [Prog.AfterHeaders]

/-- What holds when the headers are complete holds in every step. -/
theorem step_afterHeaders (hQ : ∀ p, Q p (headersDone p LF)) (p : Fields) (loop : Loop) (ch : UInt8) :
    (step p loop ch).AfterHeaders Q := by
  unfold step
  split
  · exact headerField_afterHeaders p ch _
  · unfold headerValueLoop
    repeat' split
    · exact headerValue_afterHeaders p ch _ _
    · exact headerValue_afterHeaders p ch _ _
    · trivial
  · split
    · exact dispatch_afterHeaders hQ p ch
    · exact dispatch_afterHeaders hQ p ch

end AfterHeaders

theorem headersDone_restarts (p : Fields) (ch : UInt8) : (headersDone p ch).Restarts := by
  simp only [headersDone, Fields.strictCheck, Fields.fail, Fields.advance]
  repeat' split
  all_goals simp [Prog.Restarts, Fields.advance]

theorem Prog.AfterHeaders.restarts {prog : Prog} (h : prog.AfterHeaders fun _ k => k.Restarts) :
    prog.Restarts := by
  induction prog with
  | next p loop => trivial
  | leave p => exact h
  | fail p e => trivial
  | abort => trivial
  | mark m k ih => exact ih h
  | data p m inclusive advance k ih => exact ih h
  | count p v k ih => exact ih h
  | clearNread k ih => exact ih h
  | assertNread v k ih => exact ih h
  | notify p c advance k ih => exact ih h
  | headersComplete p k ih => exact h
  | messageComplete p k ih => exact h

theorem step_restarts (p : Fields) (loop : Loop) (ch : UInt8) : (step p loop ch).Restarts :=
  (step_afterHeaders (fun p => headersDone_restarts p LF) p loop ch).restarts

/-- The outcome of a step: it goes on within the message, or it ends the message with
the last of its callbacks and leaves everything as at the start. -/
def Outcome (flow : Flow) (cs : List Callback) : Prop :=
  (∃ l, flow = .next l) ∧ .messageComplete ∉ cs ∨
    ∃ rest, cs = rest ++ [.messageComplete] ∧ .messageComplete ∉ rest ∧
      flow.locals = enter fresh

theorem Outcome.prepend {flow : Flow} {cs : List Callback} {c : Callback}
    (h : Outcome flow cs) (hc : c ≠ .messageComplete) : Outcome flow (c :: cs) := by
  rcases h with ⟨hNext, hNot⟩ | ⟨rest, rfl, hNot, hFresh⟩
  · exact .inl ⟨hNext, by simpa [hc.symm] using hNot⟩
  · exact .inr ⟨c :: rest, rfl, by simpa [hc.symm] using hNot, hFresh⟩

theorem emit_outcome {prog : Prog} {ch : UInt8} {n bound : Nat} {cleared : Bool}
    {marked : Option (Mark × ByteString)} {flow : Flow} {cs : List Callback}
    (hRestarts : prog.Restarts) (hSound : prog.Sound bound (marked.map Prod.fst) cleared n)
    (hEmit : prog.emit ch n marked = some (flow, cs)) : Outcome flow cs := by
  induction prog generalizing n marked cleared cs with
  | next p loop =>
      obtain ⟨rfl, rfl⟩ := by simpa [Prog.emit] using hEmit
      exact .inl ⟨⟨_, rfl⟩, List.not_mem_nil⟩
  | leave p => exact hRestarts.elim
  | fail p e => cases hEmit
  | abort => cases hEmit
  | mark m k ih =>
      have hMarked : k.Sound bound ((some (marked.getD (m, []))).map Prod.fst) cleared n := by
        rcases marked with _ | ⟨set, bytes⟩
        · exact hSound.2
        · obtain rfl : set = m := by simpa using hSound.1
          exact hSound.2
      exact ih hRestarts hMarked hEmit
  | data p m inclusive advance k ih =>
      rcases marked with _ | ⟨set, bytes⟩
      · exact ih hRestarts (by simpa [Prog.Sound] using hSound) hEmit
      by_cases hm : set = m
      · simp only [Prog.emit, hm, ne_eq, not_true_eq_false, if_false] at hEmit
        obtain ⟨rest, hRest, rfl⟩ := Emission.prepend_eq_some.mp hEmit
        exact (ih hRestarts (by simpa [Prog.Sound, hm] using hSound) hRest).prepend (fun h => by cases h)
      · simp only [Prog.emit, ne_eq, hm, not_false_eq_true, if_true] at hEmit
        exact ih hRestarts (by simpa [Prog.Sound, hm] using hSound) hEmit
  | count p v k ih =>
      simp only [Prog.emit] at hEmit
      split at hEmit
      · cases hEmit
      · exact ih hRestarts hSound.2.2 hEmit
  | clearNread k ih => exact ih hRestarts hSound hEmit
  | assertNread v k ih =>
      simp only [Prog.emit, Option.ite_none_right_eq_some] at hEmit
      exact ih hRestarts hSound.2 hEmit.2
  | notify p c advance k ih =>
      obtain ⟨rest, hRest, rfl⟩ := Emission.prepend_eq_some.mp hEmit
      exact (ih hRestarts hSound.2 hRest).prepend (fun h => by cases h)
  | headersComplete p k ih =>
      obtain ⟨rest, hRest, rfl⟩ := Emission.prepend_eq_some.mp hEmit
      exact (ih 0 hRestarts hSound.2 hRest).prepend (fun h => by cases h)
  | messageComplete p k ih =>
      obtain ⟨rest, hRest, rfl⟩ := Emission.prepend_eq_some.mp hEmit
      obtain rfl : marked = none := by simpa using hSound.1
      refine .inr ⟨[], ?_, List.not_mem_nil, ?_⟩
      all_goals
        rcases hRestarts with hNext | hLeave
        · rw [hNext] at hRest
          obtain ⟨rfl, rfl⟩ := by simpa [Prog.emit] using hRest
          rfl
        · rw [hLeave] at hRest
          obtain ⟨rfl, rfl⟩ := by simpa [Prog.emit] using hRest
          rfl

end Doormat.Parser
