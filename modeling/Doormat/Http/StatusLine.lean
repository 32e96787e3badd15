import Doormat.Parser.Course
import Doormat.Http.Independence

/-! The status line of a response: what of it reaches the object that the header callback
sees. The codec hears of the code only together with the reason phrase. -/
namespace Doormat.Http

open Bytes Doormat.Parser HttpCodec

/-! ### The line -/

/-- A status line of HTTP/1, with a code of three digits. The reason phrase may be absent,
and the line may end without a carriage return. -/
structure StatusLine where
  minor : ByteString
  spaces : Nat
  first : UInt8
  second : UInt8
  third : UInt8
  reason : Option ByteString
  carriageReturn : Bool
  minor_digits : minor ≠ [] ∧ ∀ c ∈ minor, isNum c = true
  code_digits : isNum first = true ∧ isNum second = true ∧ isNum third = true
  reason_bytes : ∀ phrase ∈ reason, ∀ c ∈ phrase, c ≠ CR ∧ c ≠ LF

namespace StatusLine

variable (line : StatusLine)

/-- The code on the line. -/
def code : Nat := (digitValue line.first * 10 + digitValue line.second) * 10 + digitValue line.third

/-- The reason phrase on the line. -/
def phrase : ByteString := line.reason.getD []

def lineEnd : ByteString := if line.carriageReturn then [CR, LF] else [LF]

def afterCode : ByteString :=
  (match line.reason with
    | none => []
    | some phrase => SP :: phrase) ++ line.lineEnd

def afterVersion : ByteString :=
  List.replicate (line.spaces + 1) SP ++ line.first :: line.second :: line.third :: line.afterCode

def bytes : ByteString := ofString "HTTP/1." ++ line.minor ++ line.afterVersion

/-- What the header callback should find in the response. -/
def Told (r : HttpResponse) : Prop := r.statusCode = line.code ∧ r.statusMessage = line.phrase

end StatusLine

/-! ### Within the headers -/

/-- A program within the headers of a message whose first line `q` has read: it calls for
names and values only, up to the end of the headers. -/
def Heading (q : Fields) : Prog → Prop
  | .next p _ => part p.state = some .header ∧ Alike q p
  | .leave _ => False
  | .fail _ _ => True
  | .abort => True
  | .mark _ k => Heading q k
  | .data _ m _ _ k => (m = .headerField ∨ m = .headerValue) ∧ Heading q k
  | .count _ _ k => Heading q k
  | .clearNread k => Heading q k
  | .assertNread _ k => Heading q k
  | .notify _ _ _ _ => False
  | .headersComplete p _ => Alike q p
  | .messageComplete _ _ => False

theorem settle_alike (p : Fields) (loop : Loop) : Alike p (loop.settle p) := by
  cases loop <;> exact ⟨rfl, rfl, rfl, rfl, rfl⟩

/-- The callback is for a part of a header line. -/
def OfLine : Callback → Prop
  | .data _ m _ => m = .headerField ∨ m = .headerValue
  | _ => False

section Heading

variable {p q : Fields} {ch : UInt8}

theorem headersAlmostDone_heading (hAlike : Alike q p) (hTrailing : q.flags.trailing = false) :
    Heading q (headersAlmostDone p ch) := by
  simp only [headersAlmostDone, Fields.strictCheck, Fields.fail, Fields.updateState]
  split
  · trivial
  split
  case isTrue hTrue =>
    have hFlag : p.flags.trailing = true := hTrue
    rw [hAlike.trailing, hTrailing] at hFlag
    cases hFlag
  split
  · trivial
  · exact { hAlike with }

theorem headerFieldStart_heading (hAlike : Alike q p) (hTrailing : q.flags.trailing = false) :
    Heading q (headerFieldStart p ch) := by
  unfold headerFieldStart
  split
  · exact ⟨rfl, { hAlike with }⟩
  split
  · exact headersAlmostDone_heading (p := p.updateState .headersAlmostDone) { hAlike with } hTrailing
  dsimp only
  split
  · trivial
  · exact ⟨rfl, { hAlike with }⟩

theorem headerField_heading (hAlike : Alike q p) (hState : p.state = .headerField) (read : Nat) :
    Heading q (headerField p ch read) := by
  unfold headerField
  dsimp only
  split
  · show Heading q (if ch = ':'.toUInt8 then _ else _)
    split
    · exact ⟨.inl rfl, rfl, { hAlike with }⟩
    · trivial
  · split
    case h_1 p' hGo =>
      refine ⟨?_, hAlike.trans (fieldSwitch_alike hGo)⟩
      rw [(fieldSwitch_state hGo).trans hState]
      rfl
    all_goals trivial

theorem headerValueStart_heading (hAlike : Alike q p) : Heading q (headerValueStart p ch) := by
  cases hGo : valueStartSwitch { p with state := .headerValue, index := 0 } ch (LOWER ch) with
  | go p' =>
      simp only [headerValueStart, hGo]
      have hSame : p'.state = .headerValue := valueStartSwitch_state hGo
      refine ⟨by rw [hSame]; rfl, ?_⟩
      exact Alike.trans (q := { p with state := .headerValue, index := 0 }) { hAlike with }
        (valueStartSwitch_alike hGo)
  | error p' e => simp only [headerValueStart, hGo, Heading, Fields.fail]
  | abort => simp only [headerValueStart, hGo, Heading]

theorem headerAlmostDone_heading (hAlike : Alike q p) : Heading q (headerAlmostDone p ch) := by
  unfold headerAlmostDone
  split
  · trivial
  · exact ⟨rfl, { hAlike with }⟩

theorem headerValue_heading (hAlike : Alike q p) (hState : p.state = .headerValue) (read : Nat)
    (h : HeaderState) : Heading q (headerValue p ch read h) := by
  unfold headerValue
  split
  · exact ⟨.inr rfl, rfl, { hAlike with }⟩
  split
  · refine ⟨.inr rfl, ?_⟩
    exact headerAlmostDone_heading { hAlike with }
  split
  · trivial
  split
  case h_1 p' h' hGo =>
    refine ⟨?_, hAlike.trans (valueSwitch_alike hGo)⟩
    have hSame := valueSwitch_state hState hGo
    rw [hSame]
    rfl
  all_goals trivial

theorem finishHeader_heading (hAlike : Alike q p) (hTrailing : q.flags.trailing = false) :
    Heading q (headerFieldStart ((finishHeader p).updateState .headerFieldStart) ch) := by
  have hFinish : Alike q (finishHeader p) := hAlike.trans (finishHeader_alike p)
  exact headerFieldStart_heading { hFinish with } hTrailing

theorem dispatch_heading (hPart : part p.state = some .header) (hAlike : Alike q p)
    (hTrailing : q.flags.trailing = false) : Heading q (dispatch p ch) := by
  cases hs : p.state
  all_goals
    rw [hs] at hPart
    try cases hPart
  all_goals simp only [dispatch, hs]
  case headerFieldStart => exact headerFieldStart_heading hAlike hTrailing
  case headerField => exact headerField_heading hAlike hs 0
  case headerValueStart => exact headerValueStart_heading hAlike
  case headerValue => exact headerValue_heading hAlike hs 0 _
  case headerAlmostDone => exact headerAlmostDone_heading hAlike
  case headersAlmostDone => exact headersAlmostDone_heading hAlike hTrailing
  case headerValueDiscardWs =>
    unfold headerValueDiscardWs
    split
    · exact ⟨by rw [hs]; rfl, hAlike⟩
    split
    · exact ⟨rfl, { hAlike with }⟩
    split
    · exact ⟨rfl, { hAlike with }⟩
    · exact headerValueStart_heading hAlike
  case headerValueDiscardWsAlmostDone =>
    simp only [literal, Fields.strictCheck, Fields.fail]
    split
    · trivial
    · exact ⟨rfl, { hAlike with }⟩
  case headerValueDiscardLws =>
    unfold headerValueDiscardLws
    split
    · exact ⟨rfl, { hAlike with }⟩
    · exact ⟨.inr rfl, finishHeader_heading hAlike hTrailing⟩
  case headerValueLws =>
    unfold headerValueLws
    split
    · exact headerValueStart_heading (p := p.updateState .headerValueStart) { hAlike with }
    · exact finishHeader_heading hAlike hTrailing

theorem step_heading {l : Locals} (hl : l.Regular) (hPart : part l.fields.state = some .header)
    (hAlike : Alike q l.fields) (hTrailing : q.flags.trailing = false) :
    Heading q (step l.fields l.loop ch) := by
  have hFits := hl.loop
  unfold step
  split
  case h_1 read hLoop =>
    rw [hLoop] at hFits
    exact headerField_heading hAlike hFits.1 read
  case h_2 read h skip hLoop =>
    rw [hLoop] at hFits
    have hValue : Heading q (headerValue l.fields ch read h) := headerValue_heading hAlike hFits.1 read h
    cases skip with
    | none => exact hValue
    | some k =>
        simp only [headerValueLoop]
        split
        · exact hValue
        · exact ⟨hPart, hAlike⟩
  case h_3 =>
    split
    · exact dispatch_heading hPart hAlike hTrailing
    · exact dispatch_heading hPart hAlike hTrailing

/-- What a step within the headers emits. -/
theorem emit_heading {prog : Prog} (h : Heading q prog) {n : Nat} {marked : Option (Mark × ByteString)}
    {flow : Flow} {cs : List Callback} (hEmit : prog.emit ch n marked = some (flow, cs)) :
    (∀ c ∈ cs, OfLine c) ∧ part flow.locals.fields.state = some .header ∧ Alike q flow.locals.fields ∨
      ∃ front p back, cs = front ++ .headersComplete p :: back ∧ (∀ c ∈ front, OfLine c) ∧ Alike q p := by
  induction prog generalizing n marked cs with
  | next p loop =>
      cases hEmit
      exact .inl ⟨fun c hc => absurd hc List.not_mem_nil, h⟩
  | leave p => exact h.elim
  | fail p e => cases hEmit
  | abort => cases hEmit
  | mark m k ih => exact ih h hEmit
  | data p m inclusive advance k ih =>
      rcases marked with _ | ⟨set, bytes⟩
      · exact ih h.2 hEmit
      by_cases hm : set = m
      · simp only [Prog.emit, hm, ne_eq, not_true_eq_false, if_false] at hEmit
        obtain ⟨rest, hRest, rfl⟩ := Emission.prepend_eq_some.mp hEmit
        have hFirst : OfLine (.data (m.code p.statusCode) m (if inclusive then bytes ++ [ch] else bytes)) := h.1
        rcases ih h.2 hRest with ⟨hAll, hNext⟩ | ⟨front, p', back, rfl, hFront, hAlike⟩
        · exact .inl ⟨List.forall_mem_cons.mpr ⟨hFirst, hAll⟩, hNext⟩
        · exact .inr ⟨_ :: front, p', back, rfl, List.forall_mem_cons.mpr ⟨hFirst, hFront⟩, hAlike⟩
      · simp only [Prog.emit, ne_eq, hm, not_false_eq_true, if_true] at hEmit
        exact ih h.2 hEmit
  | count p v k ih =>
      simp only [Prog.emit] at hEmit
      split at hEmit
      · cases hEmit
      · exact ih h hEmit
  | clearNread k ih => exact ih h hEmit
  | assertNread v k ih =>
      simp only [Prog.emit, Option.ite_none_right_eq_some] at hEmit
      exact ih h hEmit.2
  | notify p c advance k ih => exact h.elim
  | headersComplete p k ih =>
      obtain ⟨rest, -, rfl⟩ := Emission.prepend_eq_some.mp hEmit
      exact .inr ⟨[], p, rest, rfl, fun c hc => absurd hc List.not_mem_nil, h⟩
  | messageComplete p k ih => exact h.elim

end Heading

/-! ### Through the line -/

/-- `TTP/1.` -/
def afterH : ByteString :=
  ['T'.toUInt8, 'T'.toUInt8, 'P'.toUInt8, '/'.toUInt8, '1'.toUInt8, '.'.toUInt8]

/-- The states of `HTTP/1.`, each with what is still to come of it. -/
def words : List (State × ByteString) :=
  [(.resOrRespH, afterH), (.resHT, afterH.drop 1), (.resHTT, afterH.drop 2), (.resHTTP, afterH.drop 3),
    (.resFirstHttpMajor, afterH.drop 4), (.resHttpMajor, afterH.drop 5)]

/-- The callbacks up to the end of a status line, for a phrase in these pieces. -/
def statusCallbacks (begin : Fields) (code : Nat) (pieces : List ByteString) : List Callback :=
  .notify begin .messageBegin :: pieces.map (.data code .status)

/-- The pieces make up the phrase; for an empty one there is none. -/
def StatusLine.Pieces (line : StatusLine) (pieces : List ByteString) : Prop :=
  pieces.flatten = line.phrase ∧ (pieces = [] ↔ line.phrase = [])

/-- The parser on its way through blank lines, a status line, the headers after it, and what
follows. -/
inductive AtStatus (line : StatusLine) (tail : ByteString) : ByteString → Locals → List Callback → Prop
  | blank {blank : ByteString} {n : Nat} (hBlank : ∀ c ∈ blank, c = CR ∨ c = LF) :
      AtStatus line tail (blank ++ (line.bytes ++ tail)) ⟨fresh.toFields, n, none, .outer⟩ []
  | word {p q : Fields} {n : Nat} {w : ByteString} (hWord : (p.state, w) ∈ words)
      (hTrailing : p.flags.trailing = false) :
      AtStatus line tail (w ++ (line.minor ++ (line.afterVersion ++ tail))) ⟨p, n, none, .outer⟩
        (statusCallbacks q line.code [])
  | minor {p q : Fields} {n : Nat} {rest : ByteString}
      (hState : p.state = .resFirstHttpMinor ∧ rest ≠ [] ∨ p.state = .resHttpMinor)
      (hDigits : ∀ c ∈ rest, isNum c = true) (hTrailing : p.flags.trailing = false) :
      AtStatus line tail (rest ++ (line.afterVersion ++ tail)) ⟨p, n, none, .outer⟩
        (statusCallbacks q line.code [])
  | spaces {p q : Fields} {n k : Nat} (hState : p.state = .resFirstStatusCode)
      (hTrailing : p.flags.trailing = false) :
      AtStatus line tail
        (List.replicate k SP ++ line.first :: line.second :: line.third :: (line.afterCode ++ tail))
        ⟨p, n, none, .outer⟩ (statusCallbacks q line.code [])
  | first {p q : Fields} {n : Nat} (hState : p.state = .resStatusCode)
      (hCode : p.statusCode = digitValue line.first) (hTrailing : p.flags.trailing = false) :
      AtStatus line tail (line.second :: line.third :: (line.afterCode ++ tail)) ⟨p, n, none, .outer⟩
        (statusCallbacks q line.code [])
  | second {p q : Fields} {n : Nat} (hState : p.state = .resStatusCode)
      (hCode : p.statusCode = digitValue line.first * 10 + digitValue line.second)
      (hTrailing : p.flags.trailing = false) :
      AtStatus line tail (line.third :: (line.afterCode ++ tail)) ⟨p, n, none, .outer⟩
        (statusCallbacks q line.code [])
  | code {p q : Fields} {n : Nat} (hState : p.state = .resStatusCode) (hCode : p.statusCode = line.code)
      (hTrailing : p.flags.trailing = false) :
      AtStatus line tail (line.afterCode ++ tail) ⟨p, n, none, .outer⟩ (statusCallbacks q line.code [])
  | phraseStart {p q : Fields} {n : Nat} {phrase : ByteString} (hState : p.state = .resStatusStart)
      (hCode : p.statusCode = line.code) (hTrailing : p.flags.trailing = false)
      (hReason : line.reason = some phrase) :
      AtStatus line tail (phrase ++ (line.lineEnd ++ tail)) ⟨p, n, none, .outer⟩
        (statusCallbacks q line.code [])
  | phrase {p q : Fields} {n : Nat} {phrase held back : ByteString} {pieces : List ByteString}
      (hState : p.state = .resStatus) (hCode : p.statusCode = line.code)
      (hTrailing : p.flags.trailing = false) (hReason : line.reason = some phrase)
      (hPhrase : pieces.flatten ++ held ++ back = phrase) (hSome : phrase ≠ []) :
      AtStatus line tail (back ++ (line.lineEnd ++ tail)) ⟨p, n, some (.status, held), .outer⟩
        (statusCallbacks q line.code pieces)
  | lineFeed {p q : Fields} {n : Nat} {pieces : List ByteString} (hState : p.state = .resLineAlmostDone)
      (hCode : p.statusCode = line.code) (hTrailing : p.flags.trailing = false)
      (hPieces : line.Pieces pieces) :
      AtStatus line tail (LF :: tail) ⟨p, n, none, .outer⟩ (statusCallbacks q line.code pieces)
  | headers {p q : Fields} {l : Locals} {rest : ByteString} {pieces : List ByteString}
      {said : List Callback} (hPart : part l.fields.state = some .header) (hAlike : Alike p l.fields)
      (hCode : p.statusCode = line.code) (hTrailing : p.flags.trailing = false)
      (hPieces : line.Pieces pieces) (hSaid : ∀ c ∈ said, OfLine c) :
      AtStatus line tail rest l (statusCallbacks q line.code pieces ++ said)
  | announced {p q : Fields} {l : Locals} {rest : ByteString} {pieces : List ByteString}
      {said more : List Callback} (hPieces : line.Pieces pieces) (hSaid : ∀ c ∈ said, OfLine c) :
      AtStatus line tail rest l
        (statusCallbacks q line.code pieces ++ (said ++ .headersComplete p :: more))

namespace AtStatus

variable {line : StatusLine} {tail rest : ByteString} {ch : UInt8} {l l' : Locals} {p : HttpParser}
  {said cs : List Callback}

theorem pieces_nil (h : line.phrase = []) : line.Pieces [] := ⟨h.symm, iff_of_true rfl h⟩

/-- From the end of the line on to the headers. -/
theorem toHeaders {p q : Fields} {n : Nat} {pieces : List ByteString} (hState : p.state = .headerFieldStart)
    (hCode : p.statusCode = line.code) (hTrailing : p.flags.trailing = false)
    (hPieces : line.Pieces pieces) :
    AtStatus line tail rest ⟨p, n, none, .outer⟩ (statusCallbacks q line.code pieces) := by
  have hNone : ∀ c ∈ ([] : List Callback), OfLine c := fun c hc => absurd hc List.not_mem_nil
  have hHeaders : AtStatus line tail rest ⟨p, n, none, .outer⟩
      (statusCallbacks q line.code pieces ++ []) :=
    .headers (p := p) (by rw [hState]; rfl) (.refl p) hCode hTrailing hPieces hNone
  rw [List.append_nil] at hHeaders
  exact hHeaders

/-- The line end, or rather the first byte of it, after the code or an empty phrase. -/
theorem endOfLine {p q : Fields} {n : Nat} (hState : p.state = .resStatusCode ∨ p.state = .resStatusStart)
    (hCode : p.statusCode = line.code) (hTrailing : p.flags.trailing = false) (hPhrase : line.phrase = [])
    (hTodo : ch :: rest = line.lineEnd ++ tail)
    (hRead : (Locals.mk p n none .outer).read ch = some (l', cs)) :
    AtStatus line tail rest l' (statusCallbacks q line.code [] ++ cs) := by
  have hParsing : p.state.parsingHeader = true := by
    cases hState with
    | inl h => rw [h]; rfl
    | inr h => rw [h]; rfl
  have hDigits : isNum CR = false ∧ isNum LF = false := by decide
  have hOthers : CR ≠ SP ∧ LF ≠ SP ∧ LF ≠ CR := by decide
  cases hReturn : line.carriageReturn with
  | true =>
      rw [StatusLine.lineEnd, if_pos hReturn] at hTodo
      obtain ⟨rfl, rfl⟩ := List.cons.inj hTodo
      have hGoes : dispatch p CR = (p.updateState .resLineAlmostDone).advance := by
        cases hState with
        | inl h => simp [dispatch, h, resStatusCode, hDigits, hOthers]
        | inr h => simp [dispatch, h, resStatusStart]
      obtain ⟨rfl, rfl⟩ := read_advance hParsing hGoes hRead
      rw [List.append_nil]
      exact .lineFeed rfl hCode hTrailing (pieces_nil hPhrase)
  | false =>
      rw [StatusLine.lineEnd, if_neg (by simp [hReturn])] at hTodo
      obtain ⟨rfl, rfl⟩ := List.cons.inj hTodo
      have hGoes : dispatch p LF = (p.updateState .headerFieldStart).advance := by
        cases hState with
        | inl h => simp [dispatch, h, resStatusCode, hDigits, hOthers]
        | inr h => simp [dispatch, h, resStatusStart, hOthers]
      obtain ⟨rfl, rfl⟩ := read_advance hParsing hGoes hRead
      rw [List.append_nil]
      exact toHeaders rfl hCode hTrailing (pieces_nil hPhrase)

/-- The first byte of a message. -/
theorem read_H {n : Nat} (hRead : (Locals.mk fresh.toFields n none .outer).read 'H'.toUInt8 = some (l', cs)) :
    ∃ q, l' = ⟨q, n + 1, none, .outer⟩ ∧ cs = [.notify q .messageBegin] ∧ q.state = .resOrRespH ∧
      q.flags.trailing = false := by
  have hEnds : 'H'.toUInt8 ≠ CR ∧ 'H'.toUInt8 ≠ LF := by decide
  obtain ⟨flow, hEmit, rfl⟩ := Locals.read_eq_some.mp hRead
  have hState : fresh.toFields.state = .startReqOrRes := rfl
  simp only [step, hState, State.parsingHeader, if_true, Prog.emit, dispatch, startReqOrRes, hEnds,
    or_self, if_false, Fields.advance] at hEmit
  split at hEmit
  · cases hEmit
  · cases hEmit
    exact ⟨_, rfl, rfl, rfl, rfl⟩

theorem word_step {p : Fields} {w : ByteString} (hWord : (p.state, ch :: w) ∈ words) (hMore : w ≠ []) :
    ∃ p' : Fields, dispatch p ch = p'.advance ∧ (p'.state, w) ∈ words ∧ p'.flags = p.flags := by
  simp only [words, afterH, List.drop_succ_cons, List.drop_zero, List.mem_cons, Prod.mk.injEq,
    List.cons.injEq, List.not_mem_nil, or_false] at hWord
  rcases hWord with ⟨hs, rfl, rfl⟩ | ⟨hs, rfl, rfl⟩ | ⟨hs, rfl, rfl⟩ | ⟨hs, rfl, rfl⟩ | ⟨hs, rfl, rfl⟩ |
    ⟨hs, rfl, rfl⟩
  · exact ⟨{ p with type := .response, state := .resHT }, by rw [dispatch, hs]; rfl, by simp [words, afterH], rfl⟩
  · exact ⟨p.updateState .resHTT, by rw [dispatch, hs]; rfl, by simp [words, afterH, Fields.updateState], rfl⟩
  · exact ⟨p.updateState .resHTTP, by rw [dispatch, hs]; rfl, by simp [words, afterH, Fields.updateState], rfl⟩
  · exact ⟨p.updateState .resFirstHttpMajor, by rw [dispatch, hs]; rfl,
      by simp [words, afterH, Fields.updateState], rfl⟩
  · exact ⟨{ p with httpMajor := digitValue '1'.toUInt8, state := .resHttpMajor }, by rw [dispatch, hs]; rfl,
      by simp [words, afterH], rfl⟩
  · exact absurd rfl hMore

/-- The last byte of `HTTP/1.`. -/
theorem word_end {p : Fields} (hWord : (p.state, [ch]) ∈ words) :
    p.state = .resHttpMajor ∧ dispatch p ch = (p.updateState .resFirstHttpMinor).advance := by
  simp [words, afterH] at hWord
  obtain ⟨hs, rfl⟩ := hWord
  refine ⟨hs, ?_⟩
  rw [dispatch, hs]
  rfl

/-- A digit is not a space. -/
theorem ne_space_of_num (h : isNum ch = true) : ch ≠ SP := by
  rintro rfl
  exact absurd h (by decide)

/-- A digit of the minor version. -/
theorem minor_step {p : Fields} {n : Nat} (hState : p.state = .resFirstHttpMinor ∨ p.state = .resHttpMinor)
    (hDigit : isNum ch = true) (hRead : (Locals.mk p n none .outer).read ch = some (l', cs)) :
    ∃ p' : Fields, l' = ⟨p', n + 1, none, .outer⟩ ∧ cs = [] ∧ p'.state = .resHttpMinor ∧ p'.flags = p.flags := by
  cases hState with
  | inl hFirst =>
      have hGoes : dispatch p ch =
          ({ p with httpMinor := digitValue ch, state := .resHttpMinor } : Fields).advance := by
        simp [dispatch, hFirst, firstHttpMinor, hDigit]
      obtain ⟨rfl, rfl⟩ := read_advance (by rw [hFirst]; rfl) hGoes hRead
      exact ⟨_, rfl, rfl, rfl, rfl⟩
  | inr hLater =>
      have hParsing : p.state.parsingHeader = true := by
        rw [hLater]
        rfl
      have hStep : dispatch p ch =
          if (p.httpMinor * 10 + digitValue ch) % 2 ^ 16 > 999 then
            .fail { p with httpMinor := (p.httpMinor * 10 + digitValue ch) % 2 ^ 16 } .invalidVersion
          else ({ p with httpMinor := (p.httpMinor * 10 + digitValue ch) % 2 ^ 16 } : Fields).advance := by
        simp [dispatch, hLater, resHttpMinor, ne_space_of_num hDigit, httpMinorDigit, hDigit, Fields.fail]
      by_cases hLarge : (p.httpMinor * 10 + digitValue ch) % 2 ^ 16 > 999
      · rw [if_pos hLarge] at hStep
        exact absurd hRead (read_fails hParsing hStep)
      · rw [if_neg hLarge] at hStep
        obtain ⟨rfl, rfl⟩ := read_advance hParsing hStep hRead
        exact ⟨_, rfl, rfl, hLater, rfl⟩

/-- A further digit of the code. -/
theorem code_step {p : Fields} {n v : Nat} (hState : p.state = .resStatusCode) (hCode : p.statusCode = v)
    (hSmall : v < 100) (hDigit : isNum ch = true)
    (hRead : (Locals.mk p n none .outer).read ch = some (l', cs)) :
    l' = ⟨{ p with statusCode := v * 10 + digitValue ch }, n + 1, none, .outer⟩ ∧ cs = [] := by
  have hParsing : p.state.parsingHeader = true := by
    rw [hState]
    rfl
  have hValue : digitValue ch ≤ 9 := digitValue_le hDigit
  have hExact : (p.statusCode * 10 + digitValue ch) % 2 ^ 16 = v * 10 + digitValue ch := by
    rw [hCode]
    omega
  have hStep : dispatch p ch = ({ p with statusCode := v * 10 + digitValue ch } : Fields).advance := by
    have hFits : ¬ v * 10 + digitValue ch > 999 := by omega
    rw [← hExact] at hFits ⊢
    simp [dispatch, hState, resStatusCode, hDigit]
    omega
  exact read_advance hParsing hStep hRead

/-- The first byte of a phrase. -/
theorem phrase_first {p : Fields} {n : Nat} (hState : p.state = .resStatusStart) (hEnds : ch ≠ CR ∧ ch ≠ LF)
    (hRead : (Locals.mk p n none .outer).read ch = some (l', cs)) :
    l' = ⟨{ p with state := .resStatus, index := 0 }, n + 1, some (.status, [ch]), .outer⟩ ∧ cs = [] := by
  obtain ⟨flow, hEmit, rfl⟩ := Locals.read_eq_some.mp hRead
  simp only [step, hState, State.parsingHeader, if_true, Prog.emit, dispatch, resStatusStart, hEnds,
    if_false, Fields.advance] at hEmit
  split at hEmit
  · cases hEmit
  · cases hEmit
    exact ⟨rfl, rfl⟩

/-- A further byte of a phrase. -/
theorem phrase_more {p : Fields} {n : Nat} {held : ByteString} (hState : p.state = .resStatus)
    (hEnds : ch ≠ CR ∧ ch ≠ LF)
    (hRead : (Locals.mk p n (some (.status, held)) .outer).read ch = some (l', cs)) :
    l' = ⟨p, n + 1, some (.status, held ++ [ch]), .outer⟩ ∧ cs = [] := by
  obtain ⟨flow, hEmit, rfl⟩ := Locals.read_eq_some.mp hRead
  simp only [step, hState, State.parsingHeader, if_true, Prog.emit, dispatch, resStatus, hEnds,
    if_false, Fields.advance] at hEmit
  split at hEmit
  · cases hEmit
  · cases hEmit
    exact ⟨rfl, rfl⟩

/-- The end of a phrase. -/
theorem phrase_end {p : Fields} {n : Nat} {held : ByteString} (hState : p.state = .resStatus)
    (hRead : (Locals.mk p n (some (.status, held)) .outer).read ch = some (l', cs)) :
    (ch = CR → l' = ⟨p.updateState .resLineAlmostDone, n + 1, none, .outer⟩ ∧
      cs = [.data p.statusCode .status held]) ∧
    (ch = LF → l' = ⟨p.updateState .headerFieldStart, n + 1, none, .outer⟩ ∧
      cs = [.data p.statusCode .status held]) := by
  obtain ⟨flow, hEmit, rfl⟩ := Locals.read_eq_some.mp hRead
  have hOther : LF ≠ CR := by decide
  constructor
  · rintro rfl
    simp only [step, hState, State.parsingHeader, if_true, Prog.emit, dispatch, resStatus,
      Fields.advance] at hEmit
    split at hEmit
    · cases hEmit
    · simp [Emission.prepend, Mark.code, Fields.updateState] at hEmit
      obtain ⟨rfl, rfl⟩ := hEmit
      exact ⟨rfl, rfl⟩
  · rintro rfl
    simp only [step, hState, State.parsingHeader, if_true, Prog.emit, dispatch, resStatus, hOther,
      if_false, Fields.advance] at hEmit
    split at hEmit
    · cases hEmit
    · simp [Emission.prepend, Mark.code, Fields.updateState] at hEmit
      obtain ⟨rfl, rfl⟩ := hEmit
      exact ⟨rfl, rfl⟩

theorem words_ne_nil {s : State} : (s, []) ∉ words := by
  simp [words, afterH]

theorem words_parsing {s : State} {w : ByteString} (hWord : (s, w) ∈ words) : s.parsingHeader = true := by
  simp only [words, List.mem_cons, Prod.mk.injEq, List.not_mem_nil, or_false] at hWord
  rcases hWord with ⟨rfl, -⟩ | ⟨rfl, -⟩ | ⟨rfl, -⟩ | ⟨rfl, -⟩ | ⟨rfl, -⟩ | ⟨rfl, -⟩
  all_goals rfl

theorem words_startMark {s : State} {w : ByteString} (hWord : (s, w) ∈ words) : startMark s = none := by
  simp only [words, List.mem_cons, Prod.mk.injEq, List.not_mem_nil, or_false] at hWord
  rcases hWord with ⟨rfl, -⟩ | ⟨rfl, -⟩ | ⟨rfl, -⟩ | ⟨rfl, -⟩ | ⟨rfl, -⟩ | ⟨rfl, -⟩
  all_goals rfl

theorem statusCallbacks_snoc (q : Fields) (code : Nat) (pieces : List ByteString) (held : ByteString) :
    statusCallbacks q code pieces ++ [.data code .status held] = statusCallbacks q code (pieces ++ [held]) := by
  simp [statusCallbacks]

theorem read (hl : l.Regular) (h : AtStatus line tail (ch :: rest) l said)
    (hRead : l.read ch = some (l', cs)) : AtStatus line tail rest l' (said ++ cs) := by
  generalize hTodo : ch :: rest = todo at h
  cases h with
  | @blank blank n hBlank =>
      cases blank with
      | nil =>
          have hBytes : line.bytes ++ tail =
              'H'.toUInt8 :: (afterH ++ (line.minor ++ (line.afterVersion ++ tail))) := by
            have hProtocol : ofString "HTTP/1." = 'H'.toUInt8 :: afterH := by decide +kernel
            rw [StatusLine.bytes, hProtocol, List.append_assoc, List.append_assoc]
            rfl
          rw [List.nil_append, hBytes] at hTodo
          obtain ⟨rfl, rfl⟩ := List.cons.inj hTodo
          obtain ⟨q, rfl, rfl, hState, hTrailing⟩ := read_H hRead
          exact .word (by rw [hState]; simp [words]) hTrailing
      | cons b blank =>
          obtain ⟨rfl, rfl⟩ := List.cons.inj hTodo
          have hFirst := hBlank ch List.mem_cons_self
          have hGoes : dispatch fresh.toFields ch = fresh.toFields.advance := if_pos hFirst
          obtain ⟨rfl, rfl⟩ := read_advance rfl hGoes hRead
          exact .blank fun c hc => hBlank c (List.mem_cons_of_mem _ hc)
  | @word p q n w hWord hTrailing =>
      cases w with
      | nil => exact absurd hWord words_ne_nil
      | cons c w =>
          obtain ⟨rfl, rfl⟩ := List.cons.inj hTodo
          by_cases hMore : w = []
          · subst hMore
            obtain ⟨hState, hGoes⟩ := word_end hWord
            obtain ⟨rfl, rfl⟩ := read_advance (by rw [hState]; rfl) hGoes hRead
            rw [List.append_nil]
            exact .minor (.inl ⟨rfl, line.minor_digits.1⟩) line.minor_digits.2 hTrailing
          · obtain ⟨p', hGoes, hNext, hFlags⟩ := word_step hWord hMore
            obtain ⟨rfl, rfl⟩ := read_advance (words_parsing hWord) hGoes hRead
            rw [List.append_nil]
            exact .word hNext (by rw [hFlags]; exact hTrailing)
  | @minor p q n digits hState hDigits hTrailing =>
      cases digits with
      | nil =>
          have hLater : p.state = .resHttpMinor := hState.resolve_left fun h => h.2 rfl
          have hGoes : dispatch p SP = (p.updateState .resFirstStatusCode).advance := by
            rw [dispatch, hLater]
            rfl
          obtain ⟨rfl, rfl⟩ := List.cons.inj hTodo
          obtain ⟨rfl, rfl⟩ := read_advance (by rw [hLater]; rfl) hGoes hRead
          rw [List.append_nil, List.append_eq, List.append_eq, List.append_assoc]
          exact .spaces rfl hTrailing
      | cons c digits =>
          obtain ⟨rfl, rfl⟩ := List.cons.inj hTodo
          have hStates : p.state = .resFirstHttpMinor ∨ p.state = .resHttpMinor := hState.imp_left And.left
          obtain ⟨p', rfl, rfl, hNext, hFlags⟩ :=
            minor_step hStates (hDigits ch List.mem_cons_self) hRead
          have hRest : ∀ c ∈ digits, isNum c = true := fun c hc => hDigits c (List.mem_cons_of_mem _ hc)
          rw [List.append_nil]
          exact .minor (.inr hNext) hRest (by rw [hFlags]; exact hTrailing)
  | @spaces p q n k hState hTrailing =>
      have hParsing : p.state.parsingHeader = true := by
        rw [hState]
        rfl
      cases k with
      | zero =>
          obtain ⟨rfl, rfl⟩ := List.cons.inj hTodo
          have hGoes : dispatch p line.first =
              ({ p with statusCode := digitValue line.first, state := .resStatusCode } : Fields).advance := by
            simp [dispatch, hState, resFirstStatusCode, line.code_digits.1]
          obtain ⟨rfl, rfl⟩ := read_advance hParsing hGoes hRead
          rw [List.append_nil]
          exact .first rfl rfl hTrailing
      | succ k =>
          obtain ⟨rfl, rfl⟩ := List.cons.inj hTodo
          have hGoes : dispatch p SP = p.advance := by
            rw [dispatch, hState]
            rfl
          obtain ⟨rfl, rfl⟩ := read_advance hParsing hGoes hRead
          rw [List.append_nil]
          exact .spaces hState hTrailing
  | @first p q n hState hCode hTrailing =>
      obtain ⟨rfl, rfl⟩ := List.cons.inj hTodo
      have hFirst : digitValue line.first ≤ 9 := digitValue_le line.code_digits.1
      obtain ⟨rfl, rfl⟩ := code_step hState hCode (by omega) line.code_digits.2.1 hRead
      rw [List.append_nil]
      exact .second hState rfl hTrailing
  | @second p q n hState hCode hTrailing =>
      obtain ⟨rfl, rfl⟩ := List.cons.inj hTodo
      have hFirst : digitValue line.first ≤ 9 := digitValue_le line.code_digits.1
      have hSecond : digitValue line.second ≤ 9 := digitValue_le line.code_digits.2.1
      obtain ⟨rfl, rfl⟩ := code_step hState hCode (by omega) line.code_digits.2.2 hRead
      rw [List.append_nil]
      exact .code hState rfl hTrailing
  | @code p q n hState hCode hTrailing =>
      cases hReason : line.reason with
      | none =>
          rw [StatusLine.afterCode, hReason] at hTodo
          exact endOfLine (.inl hState) hCode hTrailing (by rw [StatusLine.phrase, hReason]; rfl) hTodo hRead
      | some phrase =>
          rw [StatusLine.afterCode, hReason] at hTodo
          obtain ⟨rfl, rfl⟩ := List.cons.inj hTodo
          have hSpace : isNum SP = false := by decide
          have hGoes : dispatch p SP = (p.updateState .resStatusStart).advance := by
            simp [dispatch, hState, resStatusCode, hSpace]
          obtain ⟨rfl, rfl⟩ := read_advance (by rw [hState]; rfl) hGoes hRead
          rw [List.append_nil, List.append_eq, List.append_eq, List.append_assoc]
          exact .phraseStart rfl hCode hTrailing hReason
  | @phraseStart p q n phrase hState hCode hTrailing hReason =>
      cases phrase with
      | nil =>
          exact endOfLine (.inr hState) hCode hTrailing (by rw [StatusLine.phrase, hReason]; rfl) hTodo hRead
      | cons c phrase =>
          obtain ⟨rfl, rfl⟩ := List.cons.inj hTodo
          have hEnds := line.reason_bytes _ hReason ch List.mem_cons_self
          obtain ⟨rfl, rfl⟩ := phrase_first hState hEnds hRead
          have hPhrase : AtStatus line tail (phrase ++ (line.lineEnd ++ tail))
              ⟨{ p with state := .resStatus, index := 0 }, n + 1, some (.status, [ch]), .outer⟩
              (statusCallbacks q line.code []) :=
            .phrase rfl hCode hTrailing hReason rfl (List.cons_ne_nil _ _)
          rw [List.append_nil]
          exact hPhrase
  | @phrase p q n phrase held back pieces hState hCode hTrailing hReason hPhrase hSome =>
      cases back with
      | nil =>
          have hWhole : line.Pieces (pieces ++ [held]) := by
            have hIs : line.phrase = phrase := by
              rw [StatusLine.phrase, hReason]
              rfl
            refine ⟨?_, iff_of_false (by simp) (by rw [hIs]; exact hSome)⟩
            rw [hIs, ← hPhrase]
            simp
          obtain ⟨hReturn, hFeed⟩ := phrase_end hState hRead
          cases hEnd : line.carriageReturn with
          | true =>
              rw [StatusLine.lineEnd, if_pos hEnd] at hTodo
              obtain ⟨rfl, rfl⟩ := List.cons.inj hTodo
              obtain ⟨rfl, rfl⟩ := hReturn rfl
              rw [hCode, statusCallbacks_snoc]
              exact .lineFeed rfl hCode hTrailing hWhole
          | false =>
              rw [StatusLine.lineEnd, if_neg (by simp [hEnd])] at hTodo
              obtain ⟨rfl, rfl⟩ := List.cons.inj hTodo
              obtain ⟨rfl, rfl⟩ := hFeed rfl
              rw [hCode, statusCallbacks_snoc]
              exact toHeaders rfl hCode hTrailing hWhole
      | cons c back =>
          obtain ⟨rfl, rfl⟩ := List.cons.inj hTodo
          have hMem : ch ∈ phrase := by
            rw [← hPhrase]
            simp
          obtain ⟨rfl, rfl⟩ := phrase_more hState (line.reason_bytes _ hReason ch hMem) hRead
          rw [List.append_nil]
          refine .phrase hState hCode hTrailing hReason ?_ hSome
          rw [← hPhrase]
          simp
  | @lineFeed p q n pieces hState hCode hTrailing hPieces =>
      obtain ⟨rfl, rfl⟩ := List.cons.inj hTodo
      have hGoes : dispatch p LF = (p.updateState .headerFieldStart).advance := by
        rw [dispatch, hState]
        rfl
      obtain ⟨rfl, rfl⟩ := read_advance (by rw [hState]; rfl) hGoes hRead
      rw [List.append_nil]
      exact toHeaders rfl hCode hTrailing hPieces
  | @headers p q l rest pieces said hPart hAlike hCode hTrailing hPieces hSaid =>
      obtain ⟨flow, hEmit, rfl⟩ := Locals.read_eq_some.mp hRead
      rcases emit_heading (step_heading hl hPart hAlike hTrailing) hEmit with
        ⟨hAll, hNextPart, hNextAlike⟩ | ⟨front, p', back, rfl, hFront, hAnnounced⟩
      · have hBoth : ∀ c ∈ said ++ cs, OfLine c := by
          intro c hc
          exact (List.mem_append.mp hc).elim (hSaid c) (hAll c)
        rw [List.append_assoc]
        exact .headers hNextPart hNextAlike hCode hTrailing hPieces hBoth
      · have hBoth : ∀ c ∈ said ++ front, OfLine c := by
          intro c hc
          exact (List.mem_append.mp hc).elim (hSaid c) (hFront c)
        rw [List.append_assoc, ← List.append_assoc said]
        exact .announced hPieces hBoth
  | @announced p q l rest pieces said more hPieces hSaid =>
      rw [List.append_assoc, List.append_assoc, List.cons_append]
      exact .announced hPieces hSaid

/-- The mark within the headers is for a name or a value. -/
theorem leftOver_ofLine (hl : l.Regular) (hPart : part l.fields.state = some .header) :
    ∀ c ∈ leftOver l.fields.statusCode l.mark, OfLine c := by
  have hAdmits := hl.mark
  cases hMark : l.mark with
  | none => exact fun c hc => absurd hc List.not_mem_nil
  | some marked =>
      obtain ⟨m, bytes⟩ := marked
      rw [hMark] at hAdmits
      have hName : m = .headerField ∨ m = .headerValue := by
        cases hs : l.fields.state
        all_goals
          rw [hs] at hPart hAdmits
          try cases hPart
        all_goals cases m <;> first | exact .inl rfl | exact .inr rfl | cases hAdmits
      intro c hc
      rw [List.mem_singleton.mp hc]
      exact hName

theorem close (hl : l.Regular) (h : AtStatus line tail rest l said) (hClose : l.close = some (p, cs)) :
    AtStatus line tail rest (enter p) (said ++ cs) := by
  cases h with
  | blank hBlank =>
      obtain ⟨hSame, rfl⟩ := close_outer rfl hClose
      rw [hSame, List.append_nil]
      exact .blank hBlank
  | word hWord hTrailing =>
      obtain ⟨hSame, rfl⟩ := close_outer (words_startMark hWord) hClose
      rw [hSame, List.append_nil]
      exact .word hWord hTrailing
  | @minor f q n digits hState hDigits hTrailing =>
      have hStart : startMark f.state = none := by
        rcases hState with ⟨hs, -⟩ | hs
        all_goals
          rw [hs]
          rfl
      obtain ⟨hSame, rfl⟩ := close_outer hStart hClose
      rw [hSame, List.append_nil]
      exact .minor hState hDigits hTrailing
  | spaces hState hTrailing =>
      obtain ⟨hSame, rfl⟩ := close_outer (by rw [hState]; rfl) hClose
      rw [hSame, List.append_nil]
      exact .spaces hState hTrailing
  | first hState hCode hTrailing =>
      obtain ⟨hSame, rfl⟩ := close_outer (by rw [hState]; rfl) hClose
      rw [hSame, List.append_nil]
      exact .first hState hCode hTrailing
  | second hState hCode hTrailing =>
      obtain ⟨hSame, rfl⟩ := close_outer (by rw [hState]; rfl) hClose
      rw [hSame, List.append_nil]
      exact .second hState hCode hTrailing
  | code hState hCode hTrailing =>
      obtain ⟨hSame, rfl⟩ := close_outer (by rw [hState]; rfl) hClose
      rw [hSame, List.append_nil]
      exact .code hState hCode hTrailing
  | phraseStart hState hCode hTrailing hReason =>
      obtain ⟨hSame, rfl⟩ := close_outer (by rw [hState]; rfl) hClose
      rw [hSame, List.append_nil]
      exact .phraseStart hState hCode hTrailing hReason
  | @phrase f q n phrase held back pieces hState hCode hTrailing hReason hPhrase hSome =>
      rw [Locals.close_eq, if_neg (by simp)] at hClose
      cases hClose
      have hEnter : enter (Locals.mk f n (some (.status, held)) .outer).settled =
          ⟨f, n, some (.status, []), .outer⟩ := by
        simp [enter, Locals.settled, Loop.settle, hState, startMark]
      have hLeft : leftOver f.statusCode (some (.status, held)) = [.data line.code .status held] := by
        simp [leftOver, Mark.code, hCode]
      rw [hEnter, hLeft, statusCallbacks_snoc]
      refine .phrase hState hCode hTrailing hReason ?_ hSome
      rw [← hPhrase]
      simp
  | lineFeed hState hCode hTrailing hPieces =>
      obtain ⟨hSame, rfl⟩ := close_outer (by rw [hState]; rfl) hClose
      rw [hSame, List.append_nil]
      exact .lineFeed hState hCode hTrailing hPieces
  | headers hPart hAlike hCode hTrailing hPieces hSaid =>
      rw [Locals.close_eq, Option.ite_none_left_eq_some] at hClose
      obtain ⟨rfl, rfl⟩ := Prod.mk.inj (Option.some.inj hClose.2)
      have hLeft := leftOver_ofLine hl hPart
      rw [List.append_assoc]
      refine .headers ?_ (hAlike.trans (settle_alike l.fields l.loop)) hCode hTrailing hPieces ?_
      · show part l.settled.state = _
        rw [Locals.settled_state]
        exact hPart
      · intro c hc
        exact (List.mem_append.mp hc).elim (hSaid c) (hLeft c)
  | announced hPieces hSaid =>
      rw [List.append_assoc, List.append_assoc, List.cons_append]
      exact .announced hPieces hSaid

theorem course : Course (AtStatus line tail) := ⟨read, close⟩

/-- Up to the headers, nothing calls for the end of the headers. -/
theorem said_cases (h : AtStatus line tail rest l said) :
    (∀ c ∈ said, ∀ q, c ≠ .headersComplete q) ∨
      ∃ q q' pieces lines more, said = statusCallbacks q line.code pieces ++
        (lines ++ .headersComplete q' :: more) ∧ line.Pieces pieces ∧ ∀ c ∈ lines, OfLine c := by
  have hStatus : ∀ (q : Fields) (pieces : List ByteString), ∀ c ∈ statusCallbacks q line.code pieces,
      ∀ q', c ≠ .headersComplete q' := by
    intro q pieces c hc q' hEq
    subst hEq
    simp [statusCallbacks] at hc
  cases h with
  | blank => exact .inl fun c hc => absurd hc List.not_mem_nil
  | announced hPieces hSaid => exact .inr ⟨_, _, _, _, _, rfl, hPieces, hSaid⟩
  | @headers _ q _ _ pieces lines _ _ _ _ _ hSaid =>
      refine .inl fun c hc q' hEq => ?_
      cases List.mem_append.mp hc with
      | inl hFirst => exact hStatus q pieces c hFirst q' hEq
      | inr hLine =>
          have hOf := hSaid c hLine
          rw [hEq] at hOf
          exact hOf
  | word | minor | spaces | first | second | code | phraseStart | phrase | lineFeed =>
      exact .inl (hStatus _ _)

end AtStatus

/-! ### What the response is told -/

section Replay

variable {υ : Type} {cb : Callbacks υ} {a : Assembly} {d e : Impl υ} {c : Callback} {p : Fields}

theorem Minor.announcements_eq (h : Minor d e) : announcements e.trace = announcements d.trace := by
  obtain ⟨evs, hTrace, hMinor⟩ := h.trace
  have hNone : announcements evs = [] := by
    apply List.filterMap_eq_nil_iff.mpr
    intro ev hEv
    have hEvent := hMinor ev hEv
    cases ev with
    | headersDone => cases hEvent
    | begin | header | body | trailer | completion | error => rfl
  rw [hTrace, announcements, List.filterMap_append]
  exact (congrArg (_ ++ ·) hNone).trans (List.append_nil _)

/-- A callback other than the end of the headers announces nothing. -/
theorem Impl.Accepts.announcements_eq (h : Impl.Accepts cb d c e) (hOther : ∀ p, c ≠ .headersComplete p) :
    announcements e.trace = announcements d.trace := by
  rcases h.records with hMinor | ⟨p, hc, -⟩
  · exact hMinor.announcements_eq
  · exact absurd hc (hOther p)

theorem Impl.Accepts.announcements_prefix (h : Impl.Accepts cb d c e) :
    announcements d.trace <+: announcements e.trace := by
  rcases h.records with hMinor | ⟨p, -, hAnnounced⟩
  · rw [hMinor.announcements_eq]
  · obtain ⟨m, evs, hTrace, -⟩ := hAnnounced.trace
    rw [hTrace, List.append_assoc, announcements, announcements, List.filterMap_append]
    exact List.prefix_append _ _

/-- What each of the callbacks keeps, they keep together. -/
theorem replay_keeps {P : Impl υ → Prop} {cs : List Callback}
    (hStep : ∀ c ∈ cs, ∀ d e, Impl.Accepts cb d c e → P d → P e) (hTracks : Tracks a d)
    (hReplay : d.replay cb cs = .ok e) (h : P d) : (∃ b, Tracks b e) ∧ P e := by
  induction cs generalizing a d with
  | nil =>
      cases hReplay
      exact ⟨⟨a, hTracks⟩, h⟩
  | cons c cs ih =>
      obtain ⟨f, hApply, hRest⟩ := Impl.replay_cons_eq_ok.mp hReplay
      have hEnds : Impl.Ends cb a d c (d.apply cb c) := Impl.apply_ends hTracks c
      rw [hApply] at hEnds
      exact ih (fun c' hc' => hStep c' (List.mem_cons_of_mem _ hc')) (Impl.Accepts.tracks hTracks hEnds)
        hRest (hStep c List.mem_cons_self d f hEnds h)

/-- The codec decodes into a response with that code and that message. -/
def StatusIs (code : Nat) (message : ByteString) (d : Impl υ) : Prop :=
  ∃ r, d.object = .response r ∧ r.statusCode = code ∧ r.statusMessage = message

variable {code : Nat} {message : ByteString}

theorem StatusIs.of_setData {data : StructuredData} (h : StatusIs code message d)
    (hObject : e.object = d.object.setData data) : StatusIs code message e := by
  obtain ⟨r, hr, hCode, hMessage⟩ := h
  refine ⟨{ r with toStructuredData := data }, ?_, hCode, hMessage⟩
  rw [hObject, hr]
  rfl

/-- The header lines leave the status alone. -/
theorem StatusIs.line (h : StatusIs code message d) (hAccepts : Impl.Accepts cb d c e) (hLine : OfLine c) :
    StatusIs code message e := by
  cases hAccepts with
  | field | value => exact h
  | nextField => exact h.of_setData rfl
  | trailerField =>
      obtain ⟨r, hObject, hHeld⟩ := h
      exact ⟨r, (flushTrailer_object cb d).1.trans hObject, hHeld⟩
  | url | status | ignored | body => exact hLine.elim nofun nofun
  | messageBegin | messageBeginAgain | chunk | headersComplete | lastHeader | messageComplete =>
      exact hLine.elim

/-- The status that the header callback sees. -/
theorem StatusIs.announced (h : StatusIs code message d) (hAccepts : Impl.Accepts cb d (.headersComplete p) e) :
    ∃ r, announcements e.trace = announcements d.trace ++ [(p, .response r)] ∧
      r.statusCode = code ∧ r.statusMessage = message := by
  have hVersion : StatusIs code message (d.setVersion p) := h.of_setData rfl
  have hComplete : ∀ {f : Impl υ}, StatusIs code message f → ∃ r,
      Impl.completeHeaders p f.object = .response r ∧ r.statusCode = code ∧ r.statusMessage = message := by
    intro f ⟨r, hObject, hCode, hMessage⟩
    rw [hObject]
    exact ⟨_, rfl, hCode, hMessage⟩
  cases hAccepts with
  | headersComplete =>
      obtain ⟨r, hAnnounced, hHeld⟩ := hComplete hVersion
      refine ⟨r, ?_, hHeld⟩
      rw [← hAnnounced, ← setVersion_trace p d]
      exact List.filterMap_append
  | @lastHeader _ data hMajor hInstalled hGot hHeader =>
      have hTaken : StatusIs code message ((d.setVersion p).takeHeader data) := hVersion.of_setData rfl
      obtain ⟨r, hAnnounced, hHeld⟩ := hComplete hTaken
      refine ⟨r, ?_, hHeld⟩
      rw [← hAnnounced, ← setVersion_trace p d]
      show announcements (((d.setVersion p).trace ++ [_]) ++ [_]) = _
      rw [List.append_assoc]
      exact List.filterMap_append

/-- The pieces of a reason phrase set the code, and the phrase so far; without one they stay. -/
theorem replay_status {pieces : List ByteString} {r : HttpResponse} (hTracks : Tracks a d)
    (hObject : d.object = .response r)
    (hReplay : d.replay cb (pieces.map (.data code .status)) = .ok e) :
    ((∃ b, Tracks b e) ∧ announcements e.trace = announcements d.trace) ∧
      StatusIs (if pieces = [] then r.statusCode else code)
        (if pieces = [] then r.statusMessage else d.status ++ pieces.flatten) e := by
  induction pieces generalizing a d r with
  | nil =>
      cases hReplay
      exact ⟨⟨⟨a, hTracks⟩, rfl⟩, r, hObject, rfl, rfl⟩
  | cons piece pieces ih =>
      obtain ⟨f, hApply, hRest⟩ := Impl.replay_cons_eq_ok.mp hReplay
      have hEnds : Impl.Ends cb a d (.data code .status piece) (d.apply cb (.data code .status piece)) :=
        Impl.apply_ends hTracks _
      rw [hApply] at hEnds
      have hTracks' := Impl.Accepts.tracks hTracks hEnds
      cases hEnds with
      | @status _ _ r' hInstalled hObject' =>
          obtain ⟨hBoth, hHolds⟩ := ih hTracks' rfl hRest
          refine ⟨hBoth, ?_⟩
          by_cases hLast : pieces = []
          · subst hLast
            simpa using hHolds
          · simpa [hLast] using hHolds

/-- The header lines announce nothing and leave the status alone. -/
theorem replay_lines {lines : List Callback} (hTracks : Tracks a d) (h : StatusIs code message d)
    (hLines : ∀ c ∈ lines, OfLine c) (hReplay : d.replay cb lines = .ok e) :
    ((∃ b, Tracks b e) ∧ announcements e.trace = announcements d.trace) ∧ StatusIs code message e := by
  have hStep : ∀ c ∈ lines, ∀ f g, Impl.Accepts cb f c g →
      StatusIs code message f ∧ announcements f.trace = announcements d.trace →
      StatusIs code message g ∧ announcements g.trace = announcements d.trace := by
    intro c hc f g hAccepts ⟨hStatus, hSilent⟩
    have hLine := hLines c hc
    have hOther : ∀ p, c ≠ .headersComplete p := by
      intro p hEq
      rw [hEq] at hLine
      exact hLine
    exact ⟨hStatus.line hAccepts hLine, (hAccepts.announcements_eq hOther).trans hSilent⟩
  obtain ⟨hTracked, hStatus, hSilent⟩ := replay_keeps hStep hTracks hReplay ⟨h, rfl⟩
  exact ⟨⟨hTracked, hSilent⟩, hStatus⟩

theorem replay_prefix {cs : List Callback} (hTracks : Tracks a d) (hReplay : d.replay cb cs = .ok e) :
    announcements d.trace <+: announcements e.trace := by
  have hStep : ∀ c ∈ cs, ∀ f g, Impl.Accepts cb f c g →
      announcements d.trace <+: announcements f.trace → announcements d.trace <+: announcements g.trace :=
    fun _ _ _ _ hAccepts hf => hf.trans hAccepts.announcements_prefix
  exact (replay_keeps hStep hTracks hReplay (List.prefix_refl _)).2

/-- A new message begins with the object that the owner installs. -/
theorem Impl.Accepts.installs {m : Message} (h : Impl.Accepts cb d (.notify p .messageBegin) e)
    (hNew : (cb.begin d.object d.user).1 = some m) : e.object = m ∧ e.status = d.status := by
  cases h with
  | messageBegin hBegin =>
      rw [hNew] at hBegin
      cases hBegin
      exact ⟨rfl, rfl⟩
  | messageBeginAgain hBegin =>
      rw [hNew] at hBegin
      cases hBegin
  | chunk hChunk => exact absurd rfl hChunk

/-- The first headers that are announced while the callbacks of one status line run. -/
theorem status_announced {q q' : Fields} {pieces : List ByteString} {lines more : List Callback}
    {r₀ : HttpResponse} (hTracks : Tracks a d) (hStatus : d.status = [])
    (hNew : (cb.begin d.object d.user).1 = some (.response r₀)) (hLines : ∀ c ∈ lines, OfLine c)
    (hReplay : d.replay cb (statusCallbacks q code pieces ++ (lines ++ .headersComplete q' :: more)) = .ok e) :
    ∃ r, (announcements e.trace)[(announcements d.trace).length]? = some (q', .response r) ∧
      r.statusCode = (if pieces = [] then r₀.statusCode else code) ∧
      r.statusMessage = if pieces = [] then r₀.statusMessage else pieces.flatten := by
  rw [statusCallbacks, List.cons_append] at hReplay
  obtain ⟨d₁, hBegin, hReplay⟩ := Impl.replay_cons_eq_ok.mp hReplay
  obtain ⟨d₂, hPieces, hReplay⟩ := Impl.replay_append_eq_ok.mp hReplay
  obtain ⟨d₃, hHeaders, hReplay⟩ := Impl.replay_append_eq_ok.mp hReplay
  obtain ⟨d₄, hComplete, hReplay⟩ := Impl.replay_cons_eq_ok.mp hReplay
  have hFirst : Impl.Ends cb a d _ (d.apply cb (.notify q .messageBegin)) := Impl.apply_ends hTracks _
  rw [hBegin] at hFirst
  obtain ⟨hObject, hStill⟩ := Impl.Accepts.installs hFirst hNew
  have hSilent₁ := Impl.Accepts.announcements_eq hFirst fun _ => nofun
  obtain ⟨⟨⟨b, hTracks₂⟩, hSilent₂⟩, hHolds⟩ :=
    replay_status (Impl.Accepts.tracks hTracks hFirst) hObject hPieces
  rw [hStill, hStatus, List.nil_append] at hHolds
  obtain ⟨⟨⟨b', hTracks₃⟩, hSilent₃⟩, hHolds₃⟩ := replay_lines hTracks₂ hHolds hLines hHeaders
  have hEnds : Impl.Ends cb b' d₃ _ (d₃.apply cb (.headersComplete q')) := Impl.apply_ends hTracks₃ _
  rw [hComplete] at hEnds
  obtain ⟨r, hAnnounced, hTold⟩ := hHolds₃.announced hEnds
  rw [hSilent₃, hSilent₂, hSilent₁] at hAnnounced
  obtain ⟨later, hLater⟩ := replay_prefix (Impl.Accepts.tracks hTracks₃ hEnds) hReplay
  refine ⟨r, ?_, hTold⟩
  rw [← hLater, hAnnounced]
  simp

end Replay

/-! ### On a connection -/

section Connection

variable {υ : Type} {cb : Callbacks υ} {object : Message} {user : υ} {c c' : HttpCodec υ}
  {line : StatusLine} {r₀ : HttpResponse} {p : Fields} {m : Message}

/-- What is announced for a status line. -/
theorem response_announced {pieces : List ByteString} {blank rest : ByteString} (hFatal : cb.Fatal)
    (hRunning : Running c) (hBetween : c.parser = fresh) (hAccepts : c.accepts cb pieces c')
    (hBytes : pieces.flatten = blank ++ (line.bytes ++ rest)) (hBlank : ∀ b ∈ blank, b = CR ∨ b = LF)
    (hNew : (cb.begin c.impl.object c.impl.user).1 = some (.response r₀))
    (hAnnounced : (announcements c'.impl.trace)[(announcements c.impl.trace).length]? = some (p, m)) :
    ∃ r, m = .response r ∧ r.statusCode = (if line.phrase = [] then r₀.statusCode else line.code) ∧
      r.statusMessage = if line.phrase = [] then r₀.statusMessage else line.phrase := by
  obtain ⟨q, cs, d, hEmit, hReplay, rfl⟩ :=
    (accepts_iff hFatal hRunning.targeted.ready hRunning.targeted.regular).mp hAccepts
  obtain ⟨a, ⟨hTracks, -⟩, -⟩ := hRunning.targeted.gathered
  have hStatus : c.impl.status = [] := by
    rw [← hRunning.reset hBetween]
    rfl
  have hStart : AtStatus line rest (pieces.flatten ++ []) (enter c.parser) [] := by
    rw [hBetween, List.append_nil, hBytes]
    exact .blank hBlank
  have hEnd := AtStatus.course.emitAll hRunning.targeted.regular hStart hEmit
  rw [List.nil_append] at hEnd
  rcases hEnd.said_cases with hNone | ⟨q₁, q₂, parts, lines, more, rfl, ⟨hParts, hEmpty⟩, hLines⟩
  · have hSilent : announcements d.trace = announcements c.impl.trace := by
      have hStep : ∀ x ∈ cs, ∀ f g, Impl.Accepts cb f x g →
          announcements f.trace = announcements c.impl.trace →
          announcements g.trace = announcements c.impl.trace :=
        fun x hx f g hOne hf => (hOne.announcements_eq (hNone x hx)).trans hf
      exact (replay_keeps hStep hTracks hReplay rfl).2
    have hNothing : (announcements d.trace)[(announcements c.impl.trace).length]? = none := by
      rw [hSilent]
      exact List.getElem?_eq_none le_rfl
    exact absurd (hAnnounced.symm.trans hNothing) nofun
  · obtain ⟨r, hFirst, hCode, hMessage⟩ := status_announced hTracks hStatus hNew hLines hReplay
    obtain ⟨rfl, rfl⟩ := Prod.mk.inj (Option.some.inj (hFirst.symm.trans hAnnounced))
    refine ⟨r, rfl, ?_, ?_⟩
    · rw [hCode]
      exact if_congr hEmpty rfl rfl
    · rw [hMessage, hParts]
      exact if_congr hEmpty rfl rfl

/-- The header callback finds the code and the reason phrase of a status line, wherever the
reads are cut and whatever came before, if and only if the phrase is not empty, or the new
response already has that code and no phrase. -/
theorem status_told_iff {front back : List ByteString} {last first blank rest : ByteString}
    (hFatal : cb.Fatal) (hBefore : (HttpCodec.init object user).accepts cb (front ++ [last]) c)
    (hBetween : c.parser = fresh)
    (hAccepts : (HttpCodec.init object user).accepts cb (front ++ (last ++ first) :: back) c')
    (hBytes : first ++ back.flatten = blank ++ (line.bytes ++ rest)) (hBlank : ∀ b ∈ blank, b = CR ∨ b = LF)
    (hNew : (cb.begin c.impl.object c.impl.user).1 = some (.response r₀))
    (hAnnounced : (announcements c'.impl.trace)[(announcements c.impl.trace).length]? = some (p, m)) :
    (∃ r, m = .response r ∧ line.Told r) ↔
      line.phrase ≠ [] ∨ r₀.statusCode = line.code ∧ r₀.statusMessage = [] := by
  have hInit : Running (HttpCodec.init object user) := Running.init object user
  have hNext : c.accepts cb (first :: back) c' := (hInit.accepts_together hFatal hBefore hBetween).mp hAccepts
  obtain ⟨r, rfl, hCode, hMessage⟩ := response_announced hFatal (hInit.accepts hFatal hBefore) hBetween hNext
    hBytes hBlank hNew hAnnounced
  have hTold : (∃ r', Message.response r = .response r' ∧ line.Told r') ↔ line.Told r := by
    constructor
    · intro ⟨r', hSame, hTold⟩
      cases hSame
      exact hTold
    · intro hTold
      exact ⟨r, rfl, hTold⟩
  rw [hTold, StatusLine.Told, hCode, hMessage]
  by_cases hPhrase : line.phrase = []
  · simp [hPhrase]
  · simp [hPhrase]

end Connection

/-! ### A response with a phrase and one without -/

/-- Callbacks that decode each message into a new response, whose memory held `garbage`. -/
def receiving (garbage : Nat) : Callbacks Unit :=
  { handing with begin := fun _ _ => (some (.response (.fresh garbage)), ()) }

theorem receiving_fatal (garbage : Nat) : (receiving garbage).Fatal := fun _ _ => rfl

/-- What `check` finds after a run is found of the codec that accepts the pieces. -/
theorem accepts_of_check {υ : Type} {cb : Callbacks υ} {c : HttpCodec υ} {pieces : List ByteString}
    {check : HttpCodec υ → Bool}
    (h : (match c.decodeAll cb pieces with
      | .error _ => false
      | .ok (c', oks) => oks.all id && check c') = true) :
    ∃ c', c.accepts cb pieces c' ∧ check c' = true := by
  rcases hAll : c.decodeAll cb pieces with f | ⟨c', oks⟩
  · rw [hAll] at h
    cases h
  · rw [hAll] at h
    simp only [Bool.and_eq_true, List.all_eq_true, id_eq] at h
    exact ⟨c', ⟨oks, hAll, h.1⟩, h.2⟩

/-- A status line of HTTP/1.1 with the code 200. -/
def line200 (reason : Option ByteString) (hReason : ∀ phrase ∈ reason, ∀ c ∈ phrase, c ≠ CR ∧ c ≠ LF) :
    StatusLine where
  minor := ofString "1"
  spaces := 0
  first := '2'.toUInt8
  second := '0'.toUInt8
  third := '0'.toUInt8
  reason := reason
  carriageReturn := true
  minor_digits := by decide +kernel
  code_digits := by decide +kernel
  reason_bytes := hReason

/-- `HTTP/1.1 200 OK`. -/
def ok200 : StatusLine := line200 (some (ofString "OK")) (by decide +kernel)

/-- The second read brings the end of an interim response and half of a phrase. -/
theorem status_told_iff_example :
    ∃ c p m, (HttpCodec.init (.response (.fresh 0)) ()).accepts (receiving 100)
        ([ofString "HTTP/1.1 100 Continue\r\n"] ++
          (ofString "\r\n" ++ ofString "HTTP/1.1 200 O") :: [ofString "K\r\n\r\n"]) c ∧
      (announcements c.impl.trace)[1]? = some (p, m) ∧ ∃ r, m = .response r ∧ ok200.Told r := by
  obtain ⟨c₁, hBefore, hFirst⟩ : ∃ c₁, (HttpCodec.init (.response (.fresh 0)) ()).accepts (receiving 100)
      ([ofString "HTTP/1.1 100 Continue\r\n"] ++ [ofString "\r\n"]) c₁ ∧
      (decide (c₁.parser = fresh) && decide ((announcements c₁.impl.trace).length = 1)) = true := by
    apply accepts_of_check
    decide +kernel
  obtain ⟨c, hAccepts, hSecond⟩ : ∃ c, (HttpCodec.init (.response (.fresh 0)) ()).accepts (receiving 100)
      ([ofString "HTTP/1.1 100 Continue\r\n"] ++
          (ofString "\r\n" ++ ofString "HTTP/1.1 200 O") :: [ofString "K\r\n\r\n"]) c ∧
      (announcements c.impl.trace)[1]?.isSome = true := by
    apply accepts_of_check
    decide +kernel
  simp only [Bool.and_eq_true, decide_eq_true_eq] at hFirst
  obtain ⟨⟨p, m⟩, hAnnounced⟩ := Option.isSome_iff_exists.mp hSecond
  have hPhrase : ok200.phrase ≠ [] := by decide +kernel
  have hAt : (announcements c.impl.trace)[(announcements c₁.impl.trace).length]? = some (p, m) := by
    rw [hFirst.2]
    exact hAnnounced
  have hBytes : ofString "HTTP/1.1 200 O" ++ [ofString "K\r\n\r\n"].flatten =
      [] ++ (ok200.bytes ++ ofString "\r\n") := by decide +kernel
  have hTold := (status_told_iff (receiving_fatal 100) hBefore hFirst.1 hAccepts hBytes
    (fun _ hb => absurd hb List.not_mem_nil) rfl hAt).mpr (.inl hPhrase)
  exact ⟨c, p, m, hAccepts, hAnnounced, hTold⟩

/-- `HTTP/1.1 200`, without a phrase. -/
def bare200 : StatusLine := line200 none nofun

/-- The codes of the responses that are announced. -/
def statusCodes (es : List Event) : List (Option Nat) :=
  (announcements es).map fun x => match x.2 with
    | .request _ => none
    | .response r => some r.statusCode

/-- A response 200 without a phrase is announced with the code that the memory of the new
object held. -/
theorem bare_status_unread :
    ∃ c p r, (HttpCodec.init (.response (.fresh 0)) ()).accepts (receiving 100)
        [bare200.bytes ++ ofString "\r\n"] c ∧
      announcements c.impl.trace = [(p, .response r)] ∧ ¬ bare200.Told r := by
  obtain ⟨c, hAccepts, hCodes⟩ : ∃ c, (HttpCodec.init (.response (.fresh 0)) ()).accepts (receiving 100)
      [bare200.bytes ++ ofString "\r\n"] c ∧ decide (statusCodes c.impl.trace = [some 100]) = true := by
    apply accepts_of_check
    decide +kernel
  obtain ⟨⟨p, m⟩, hAnnounced, hEq⟩ := List.map_eq_singleton_iff.mp (of_decide_eq_true hCodes)
  cases m with
  | request r => cases hEq
  | response r =>
      refine ⟨c, p, r, hAccepts, hAnnounced, ?_⟩
      intro hTold
      have hCode : r.statusCode = 100 := Option.some.inj hEq
      have hWanted := hTold.1
      rw [hCode] at hWanted
      revert hWanted
      decide +kernel

end Doormat.Http
