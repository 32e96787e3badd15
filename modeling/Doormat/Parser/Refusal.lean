import Doormat.Parser.Execute

/-! What the parser does not take: for every state, the bytes at which a call stops before it
has read anything, with the error it stops with. -/
namespace Doormat.Parser

open Bytes

/-- The error, unless the byte is taken. -/
def unlessTaken (taken : Bool) (e : Errno) : Option Errno := if taken then none else some e

/-- A further digit of a number of which `v` has been read so far. -/
def nextDigit (v : Nat) (ch : UInt8) : Bool := isNum ch && decide ((v * 10 + digitValue ch) % 2 ^ 16 ≤ 999)

/-- The end of the headers: not with a content length and chunks as well. -/
def endRefusal (p : Fields) : Option Errno :=
  unlessTaken (p.flags.trailing || !(p.flags.chunked && p.flags.contentlength)) .unexpectedContentLength

/-- The first byte of a header line. -/
def lineRefusal (p : Fields) (ch : UInt8) : Option Errno :=
  if ch = CR then none
  else if ch = LF then endRefusal p
  else unlessTaken (token ch ≠ 0) .invalidHeaderToken

/-- A further byte of a header name: not the last of a second `content-length`. -/
def nameRefusal (p : Fields) (ch : UInt8) : Option Errno :=
  if token ch = 0 then unlessTaken (ch = ':'.toUInt8) .invalidHeaderToken
  else
    unlessTaken (!(p.headerState = .matchingContentLength && p.index = 12 && token ch = 'h'.toUInt8 &&
      p.flags.contentlength)) .unexpectedContentLength

/-- The first byte of a header value. -/
def valueRefusal (p : Fields) (ch : UInt8) : Option Errno :=
  unlessTaken (p.headerState ≠ .contentLength || isNum ch) .invalidContentLength

/-- A further byte of a header value. -/
def nextValueRefusal (p : Fields) (ch : UInt8) : Option Errno :=
  if ch = CR ∨ ch = LF then none
  else if !isHeaderChar ch then some .invalidHeaderToken
  else
    unlessTaken (p.headerState ≠ .contentLength || ch = SP ||
      isNum ch && decide (p.contentLength ≤ (ullongMax - 10) / 10)) .invalidContentLength

/-- A byte of the method. -/
def methodRefusal (p : Fields) (ch : UInt8) : Option Errno :=
  let matcher := p.method.string[p.index]?
  unlessTaken (ch ≠ 0 && (ch = SP && matcher = none || matcher = some ch ||
    isAlpha ch && (methodSwitch p.method p.index ch).isSome ||
    ch = '-'.toUInt8 && p.index = 1 && p.method = .MKCOL)) .invalidMethod

/-- A byte of the target. -/
def urlRefusal (s : State) (ch : UInt8) : Option Errno := unlessTaken (parseUrlChar s ch ≠ .dead) .invalidUrl

/-- The bytes that a state does not take. Where an assertion of the source fails, there is no
error. -/
def refusalAt (p : Fields) (nread : Nat) (ch : UInt8) : Option Errno :=
  match p.state with
  | .dead => unlessTaken (ch = CR ∨ ch = LF) .closedConnection
  | .startReqOrRes | .startReq =>
      unlessTaken (ch = CR ∨ ch = LF ∨ (methodOfFirst ch).isSome) .invalidMethod
  | .resOrRespH => unlessTaken (ch = 'T'.toUInt8 ∨ ch = 'E'.toUInt8) .invalidConstant
  | .startRes => unlessTaken (ch = 'H'.toUInt8 ∨ ch = CR ∨ ch = LF) .invalidConstant
  | .resH | .resHT | .reqHttpH | .reqHttpHT => unlessTaken (ch = 'T'.toUInt8) .strict
  | .resHTT | .reqHttpHTT => unlessTaken (ch = 'P'.toUInt8) .strict
  | .resHTTP | .reqHttpHTTP => unlessTaken (ch = '/'.toUInt8) .strict
  | .resFirstHttpMajor | .resFirstHttpMinor | .reqFirstHttpMinor => unlessTaken (isNum ch) .invalidVersion
  | .reqFirstHttpMajor => unlessTaken ('1'.toUInt8 ≤ ch ∧ ch ≤ '9'.toUInt8) .invalidVersion
  | .resHttpMajor | .reqHttpMajor =>
      unlessTaken (ch = '.'.toUInt8 || nextDigit p.httpMajor ch) .invalidVersion
  | .resHttpMinor => unlessTaken (ch = SP || nextDigit p.httpMinor ch) .invalidVersion
  | .reqHttpMinor => unlessTaken (ch = CR || ch = LF || nextDigit p.httpMinor ch) .invalidVersion
  | .resFirstStatusCode => unlessTaken (ch = SP || isNum ch) .invalidStatus
  | .resStatusCode =>
      unlessTaken (ch = SP || ch = CR || ch = LF || nextDigit p.statusCode ch) .invalidStatus
  | .resStatusStart | .resStatus | .chunkParameters | .chunkData | .bodyIdentity | .bodyIdentityEof
  | .messageDone => none
  | .reqMethod => methodRefusal p ch
  | .reqSpacesBeforeUrl =>
      if ch = SP then none
      else urlRefusal (if p.method = .CONNECT then .reqServerStart else .reqSpacesBeforeUrl) ch
  | .reqSchema | .reqSchemaSlash | .reqSchemaSlashSlash | .reqServerStart =>
      if ch = SP ∨ ch = CR ∨ ch = LF then some .invalidUrl else urlRefusal p.state ch
  | .reqServer | .reqServerWithAt | .reqPath | .reqQueryStringStart | .reqQueryString
  | .reqFragmentStart | .reqFragment =>
      if ch = SP ∨ ch = CR ∨ ch = LF then none else urlRefusal p.state ch
  | .reqHttpStart => unlessTaken (ch = 'H'.toUInt8 ∨ ch = SP) .invalidConstant
  | .resLineAlmostDone | .headerValueDiscardWsAlmostDone | .headersDone => unlessTaken (ch = LF) .strict
  | .reqLineAlmostDone | .headerAlmostDone => unlessTaken (ch = LF) .lfExpected
  | .headersAlmostDone => if ch = LF then endRefusal p else some .strict
  | .headerFieldStart => lineRefusal p ch
  | .headerField => nameRefusal p ch
  | .headerValueDiscardWs =>
      if ch = SP ∨ ch = HT ∨ ch = CR ∨ ch = LF then none else valueRefusal p ch
  | .headerValueStart => valueRefusal p ch
  | .headerValueDiscardLws => if ch = SP ∨ ch = HT then none else lineRefusal (finishHeader p) ch
  | .headerValueLws =>
      if ch = SP ∨ ch = HT then valueRefusal p ch else lineRefusal (finishHeader p) ch
  | .headerValue => nextValueRefusal p ch
  | .chunkSizeStart =>
      if nread ≠ 0 ∨ !p.flags.chunked then none
      else unlessTaken (unhex ch).isSome .invalidChunkSize
  | .chunkSize =>
      if !p.flags.chunked ∨ ch = CR then none
      else match unhex ch with
        | none => unlessTaken (ch = ';'.toUInt8 ∨ ch = SP) .invalidChunkSize
        | some _ => unlessTaken (p.contentLength ≤ (ullongMax - 16) / 16) .invalidContentLength
  | .chunkSizeAlmostDone | .chunkDataDone => if !p.flags.chunked then none else unlessTaken (ch = LF) .strict
  | .chunkDataAlmostDone =>
      if !p.flags.chunked ∨ p.contentLength ≠ 0 then none else unlessTaken (ch = CR) .strict

/-- The error with which the parser stops at the first byte of a buffer without taking it. -/
def refusal (p : HttpParser) (ch : UInt8) : Option Errno :=
  if p.state.parsingHeader ∧ p.nread + 1 > httpMaxHeaderSize then some .headerOverflow
  else refusalAt p.toFields p.nread ch

/-- The error with which a switch stops. -/
def Switch.error? {α : Type} : Switch α → Option Errno
  | .error _ e => some e
  | _ => none

/-! ### What a step comes to -/

/-- What a step comes to before it calls back: it refuses the byte, or it takes the byte or
ends the process. -/
inductive Verdict
  | takes
  | refuses (e : Errno)
  | unclear
deriving DecidableEq

/-- After a callback only a step that takes its byte is clear. -/
def Verdict.after : Verdict → Verdict
  | .takes => .takes
  | _ => .unclear

/-- The verdict on a step, for callbacks that succeed except for the target. -/
@[simp] def Prog.verdict : Prog → Nat → Verdict
  | .next _ _, _ | .leave _, _ | .abort, _ => .takes
  | .fail _ e, _ => .refuses e
  | .mark _ k, n => k.verdict n
  | .data _ m _ advance k, n =>
      if m = .headerValue then k.verdict n
      else if m = .url ∧ advance = false then .unclear
      else (k.verdict n).after
  | .count _ v k, n => if n + v > httpMaxHeaderSize then .refuses .headerOverflow else k.verdict (n + v)
  | .clearNread k, _ => k.verdict 0
  | .assertNread v k, n => if n = v then k.verdict n else .takes
  | .notify _ _ _ k, n => (k.verdict n).after
  | .headersComplete _ k, n => ((k 0).verdict n).after
  | .messageComplete _ k, _ => ((k (HttpParser.init .both).toFields).verdict 0).after

/-- The verdict that an error, or none, stands for. -/
def verdictOf : Option Errno → Verdict
  | none => .takes
  | some e => .refuses e

section Verdicts

variable {p : Fields} {ch : UInt8} {n : Nat}

theorem verdictOf_unlessTaken (taken : Bool) (e : Errno) :
    verdictOf (unlessTaken taken e) = if taken then .takes else .refuses e := by
  cases taken <;> rfl

theorem messageDone_verdict (p : Fields) (n : Nat) : (messageDone p).verdict n = .takes := rfl

theorem headersDone_verdict (p : Fields) (n : Nat) : (headersDone p LF).verdict n = .takes := by
  have hFinished : ∀ q : Fields, (Prog.messageComplete q fun r => .leave r).verdict 0 = .takes := fun _ => rfl
  have hGoesOn : ∀ q : Fields, (Prog.messageComplete q Fields.advance).verdict 0 = .takes := fun _ => rfl
  have hNext : ∀ q : Fields, q.advance.verdict 0 = .takes := fun _ => rfl
  simp only [headersDone, Fields.strictCheck, ne_eq, not_true_eq_false, if_false, Prog.verdict]
  split_ifs <;> first | exact hFinished _ | exact hGoesOn _ | exact hNext _

theorem headersAlmostDone_verdict (p : Fields) (n : Nat) :
    (headersAlmostDone p LF).verdict n = verdictOf (endRefusal p) := by
  rw [endRefusal, verdictOf_unlessTaken]
  cases hTrailing : p.flags.trailing with
  | true =>
      simp [headersAlmostDone, Fields.strictCheck, hTrailing, Prog.verdict, messageDone_verdict, Verdict.after]
  | false =>
      by_cases hBoth : (p.flags.chunked && p.flags.contentlength) = true
      · simp [headersAlmostDone, Fields.strictCheck, hTrailing, hBoth, Prog.verdict, Fields.fail]
      · simp [headersAlmostDone, Fields.strictCheck, hTrailing, hBoth, Prog.verdict, headersDone_verdict,
          Verdict.after]

theorem headerFieldStart_verdict (p : Fields) (ch : UInt8) (n : Nat) :
    (headerFieldStart p ch).verdict n = verdictOf (lineRefusal p ch) := by
  unfold headerFieldStart lineRefusal
  split
  · rfl
  split
  case isTrue hEnd =>
    rw [hEnd]
    exact headersAlmostDone_verdict _ n
  · dsimp only
    rw [verdictOf_unlessTaken]
    by_cases hToken : token ch = 0
    · simp [hToken, Fields.fail, Prog.verdict]
    · simp [hToken, Fields.advance, Prog.verdict]

theorem headerValueStart_verdict (p : Fields) (ch : UInt8) (n : Nat) :
    (headerValueStart p ch).verdict n = verdictOf (valueRefusal p ch) := by
  rw [valueRefusal, verdictOf_unlessTaken]
  cases hh : p.headerState
  case contentLength =>
    cases hDigit : isNum ch with
    | true => simp [headerValueStart, valueStartSwitch, hh, hDigit, Prog.verdict, Fields.advance]
    | false => simp [headerValueStart, valueStartSwitch, hh, hDigit, Prog.verdict, Fields.fail]
  all_goals simp [headerValueStart, valueStartSwitch, hh, Prog.verdict, Fields.advance]

/-- The last character of `content-length`. -/
theorem contentLength_end {i : Nat} {c : UInt8} :
    (ofString "content-length")[i + 1]? = some c ∧ i + 1 + 1 = (ofString "content-length").length ↔
      i = 12 ∧ c = 'h'.toUInt8 := by
  have hLength : (ofString "content-length").length = 14 := by decide +kernel
  have hLast : (ofString "content-length")[13]? = some 'h'.toUInt8 := by decide +kernel
  rw [hLength]
  constructor
  · intro ⟨hAt, hIndex⟩
    obtain rfl : i = 12 := by omega
    rw [hLast] at hAt
    exact ⟨rfl, (Option.some.inj hAt).symm⟩
  · intro ⟨hIndex, hChar⟩
    subst hIndex hChar
    exact ⟨hLast, rfl⟩

theorem fieldSwitch_error? (p : Fields) (ch c : UInt8) :
    (fieldSwitch p ch c).error? =
      unlessTaken (!(p.headerState = .matchingContentLength && p.index = 12 && c = 'h'.toUInt8 &&
        p.flags.contentlength)) .unexpectedContentLength := by
  cases hh : p.headerState
  case matchingContentLength =>
    by_cases hNext : (ofString "content-length")[p.index + 1]? = some c
    · by_cases hLast : p.index + 1 + 1 = (ofString "content-length").length
      · obtain ⟨hIndex, hChar⟩ := contentLength_end.mp ⟨hNext, hLast⟩
        have hSwitch : fieldSwitch p ch c =
            if p.flags.contentlength then .error { p with index := p.index + 1 } .unexpectedContentLength
            else .go { p with
              index := p.index + 1, headerState := .contentLength
              flags := { p.flags with contentlength := true } } := by
          simp only [fieldSwitch, hh, matchNext, hNext, hLast, ne_eq, not_true_eq_false, if_false, if_true]
        rw [hSwitch]
        cases hFlag : p.flags.contentlength <;> simp [hIndex, hChar, unlessTaken, Switch.error?]
      · have hNot : ¬ (p.index = 12 ∧ c = 'h'.toUInt8) := fun h => hLast (contentLength_end.mpr h).2
        have hSwitch : (fieldSwitch p ch c).error? = none := by
          simp only [fieldSwitch, hh, matchNext, hNext, hLast, ne_eq, not_true_eq_false, if_false]
          rfl
        rw [hSwitch]
        simp [unlessTaken]
        tauto
    · have hNot : ¬ (p.index = 12 ∧ c = 'h'.toUInt8) := fun h => hNext (contentLength_end.mpr h).1
      have hSwitch : (fieldSwitch p ch c).error? = none := by
        simp only [fieldSwitch, hh, matchNext, hNext, ne_eq, not_false_eq_true, if_true]
        rfl
      rw [hSwitch]
      simp [unlessTaken]
      tauto
  case connection | contentLength | transferEncoding | upgrade =>
    by_cases hSpace : ch = SP <;> simp [fieldSwitch, hh, hSpace, Switch.error?, unlessTaken]
  all_goals simp [fieldSwitch, hh, Switch.error?, unlessTaken]

theorem headerField_verdict (p : Fields) (ch : UInt8) (n : Nat) (hn : n ≤ httpMaxHeaderSize) :
    (headerField p ch 0).verdict n = verdictOf (nameRefusal p ch) := by
  have hFits : ¬ n + 0 > httpMaxHeaderSize := Nat.not_lt.mpr hn
  unfold headerField nameRefusal
  dsimp only
  split
  · rw [Prog.verdict, if_neg hFits, verdictOf_unlessTaken]
    by_cases hColon : ch = ':'.toUInt8
    · simp [hColon, Prog.verdict, Fields.advance, Verdict.after]
    · simp [hColon, Prog.verdict, Fields.fail]
  · rw [← fieldSwitch_error? p ch]
    cases fieldSwitch p ch (token ch) <;> rfl

theorem valueSwitch_error? (p : Fields) (h : HeaderState) (ch c : UInt8) :
    (valueSwitch p h ch c).error? =
      unlessTaken (h ≠ .contentLength || ch = SP ||
        isNum ch && decide (p.contentLength ≤ (ullongMax - 10) / 10)) .invalidContentLength := by
  cases h
  case contentLength =>
    by_cases hSpace : ch = SP
    · simp [valueSwitch, hSpace, Switch.error?, unlessTaken]
    by_cases hDigit : isNum ch = true
    · by_cases hLarge : (ullongMax - 10) / 10 < p.contentLength
      · simp [valueSwitch, hSpace, hDigit, hLarge, Switch.error?, unlessTaken]
      · simp [valueSwitch, hSpace, hDigit, hLarge, Nat.not_lt.mp hLarge, Switch.error?, unlessTaken]
    · simp [valueSwitch, hSpace, hDigit, Switch.error?, unlessTaken]
  all_goals
    simp only [valueSwitch, unlessTaken]
    split_ifs <;> simp_all [Switch.error?]

theorem headerValue_verdict (p : Fields) (ch : UInt8) (n : Nat) (hn : n ≤ httpMaxHeaderSize) :
    (headerValue p ch 0 p.headerState).verdict n = verdictOf (nextValueRefusal p ch) := by
  have hFits : ¬ n + 0 > httpMaxHeaderSize := Nat.not_lt.mpr hn
  unfold headerValue nextValueRefusal
  by_cases hReturn : ch = CR
  · simp [hReturn, Prog.verdict, Nat.not_lt.mpr hn, Fields.advance, verdictOf]
  by_cases hFeed : ch = LF
  · have hOther : LF ≠ CR := by decide
    simp [hFeed, hOther, Prog.verdict, Nat.not_lt.mpr hn, Fields.advance, verdictOf, headerAlmostDone]
  rw [if_neg hReturn, if_neg hFeed, if_neg (not_or.mpr ⟨hReturn, hFeed⟩)]
  split
  · rfl
  · rw [← valueSwitch_error? p p.headerState ch (LOWER ch)]
    cases valueSwitch p p.headerState ch (LOWER ch) <;> rfl

theorem reqMethod_verdict (p : Fields) (ch : UInt8) (n : Nat) :
    (reqMethod p ch).verdict n = verdictOf (methodRefusal p ch) := by
  have hHyphen : isAlpha '-'.toUInt8 = false := by decide
  unfold reqMethod methodRefusal
  rw [verdictOf_unlessTaken]
  by_cases hZero : ch = 0
  · simp [hZero, Fields.fail, Prog.verdict]
  rw [if_neg hZero]
  dsimp only
  by_cases hEnd : ch = SP ∧ p.method.string[p.index]? = none
  · obtain ⟨rfl, hNone⟩ := hEnd
    simp [hNone, hZero, Fields.advance, Prog.verdict]
  rw [if_neg hEnd]
  by_cases hMatch : p.method.string[p.index]? = some ch
  · simp [hMatch, hZero, Fields.advance, Prog.verdict]
  rw [if_neg hMatch]
  have hNotEnd : (decide (ch = SP) && decide (p.method.string[p.index]? = none)) = false := by
    simpa using hEnd
  by_cases hAlpha : isAlpha ch = true
  · have hOther : ch ≠ '-'.toUInt8 := by
      rintro rfl
      rw [hHyphen] at hAlpha
      cases hAlpha
    rw [if_pos hAlpha, hNotEnd]
    cases methodSwitch p.method p.index ch with
    | none => simp [hMatch, hOther, Fields.fail, Prog.verdict]
    | some m => simp [hAlpha, hZero, Fields.advance, Prog.verdict]
  · rw [if_neg hAlpha, hNotEnd]
    by_cases hSearch : ch = '-'.toUInt8 ∧ p.index = 1 ∧ p.method = .MKCOL
    · rw [if_pos hSearch]
      have hNonzero : '-'.toUInt8 ≠ 0 := by decide
      simp [hSearch, hNonzero, Fields.advance, Prog.verdict]
    · rw [if_neg hSearch]
      have hNot : (decide (ch = '-'.toUInt8) && decide (p.index = 1) && decide (p.method = .MKCOL)) = false := by
        simpa [and_assoc] using hSearch
      rw [hNot]
      simp [hAlpha, hMatch, Fields.fail, Prog.verdict]

theorem urlByte_verdict (p : Fields) (ch : UInt8) (n : Nat) :
    (urlByte p ch).verdict n = verdictOf (urlRefusal p.state ch) := by
  rw [urlRefusal, verdictOf_unlessTaken, urlByte]
  by_cases hDead : parseUrlChar p.state ch = .dead
  · simp [hDead, Fields.updateState, Fields.fail, Prog.verdict]
  · simp [hDead, Fields.updateState, Fields.advance, Prog.verdict]

theorem urlRest_verdict (p : Fields) (ch : UInt8) (n : Nat) :
    (urlRest p ch).verdict n =
      verdictOf (if ch = SP ∨ ch = CR ∨ ch = LF then none else urlRefusal p.state ch) := by
  unfold urlRest
  by_cases hSpace : ch = SP
  · have hAny : ch = SP ∨ ch = CR ∨ ch = LF := .inl hSpace
    rw [if_pos hSpace, if_pos hAny]
    rfl
  rw [if_neg hSpace]
  by_cases hEnds : ch = CR ∨ ch = LF
  · have hAny : ch = SP ∨ ch = CR ∨ ch = LF := .inr hEnds
    rw [if_pos hEnds, if_pos hAny]
    rfl
  · have hNone : ¬ (ch = SP ∨ ch = CR ∨ ch = LF) := not_or.mpr ⟨hSpace, hEnds⟩
    rw [if_neg hEnds, if_neg hNone, urlByte_verdict]

/-- A further digit, or an error. -/
theorem digit_verdict (v : Nat) (q : Fields) (e : Errno) (ch : UInt8) (n : Nat) (d : Fields) :
    (if !isNum ch then d.fail e
      else if (v * 10 + digitValue ch) % 2 ^ 16 > 999 then q.fail e else q.advance).verdict n =
      if nextDigit v ch then .takes else .refuses e := by
  cases hDigit : isNum ch with
  | false => simp [nextDigit, hDigit, Fields.fail, Prog.verdict]
  | true =>
      by_cases hLarge : (v * 10 + digitValue ch) % 2 ^ 16 > 999
      · have hNot : ¬ (v * 10 + digitValue ch) % 2 ^ 16 ≤ 999 := Nat.not_le.mpr hLarge
        simp only [nextDigit, hDigit, hNot, hLarge, Bool.not_true, Bool.false_eq_true, if_false, if_true,
          Bool.true_and, decide_false]
        rfl
      · have hFits : (v * 10 + digitValue ch) % 2 ^ 16 ≤ 999 := Nat.not_lt.mp hLarge
        simp only [nextDigit, hDigit, hFits, hLarge, Bool.not_true, Bool.false_eq_true, if_false, if_true,
          Bool.true_and, decide_true]
        rfl

theorem isAlpha_of_methodOfFirst : ∀ ch : UInt8, (methodOfFirst ch).isSome = true → isAlpha ch = true := by
  apply forall_byte
  decide +kernel

theorem startReq_verdict (p : Fields) (ch : UInt8) (n : Nat) :
    (startReq p ch).verdict n =
      verdictOf (unlessTaken (ch = CR ∨ ch = LF ∨ (methodOfFirst ch).isSome) .invalidMethod) := by
  rw [verdictOf_unlessTaken]
  unfold startReq
  by_cases hEnds : ch = CR ∨ ch = LF
  · rw [if_pos hEnds, if_pos (decide_eq_true (hEnds.imp_right .inl))]
    rfl
  rw [if_neg hEnds]
  obtain ⟨hReturn, hFeed⟩ := not_or.mp hEnds
  cases hFirst : methodOfFirst ch with
  | some m =>
      have hAlpha := isAlpha_of_methodOfFirst ch (by rw [hFirst]; rfl)
      simp [hAlpha, Fields.advance, Prog.verdict, Verdict.after]
  | none =>
      cases hAlpha : isAlpha ch <;> simp [hReturn, hFeed, Fields.fail, Prog.verdict]

theorem startReqOrRes_verdict (p : Fields) (ch : UInt8) (n : Nat) :
    (startReqOrRes p ch).verdict n =
      verdictOf (unlessTaken (ch = CR ∨ ch = LF ∨ (methodOfFirst ch).isSome) .invalidMethod) := by
  have hResponse : (methodOfFirst 'H'.toUInt8).isSome = true := by decide
  unfold startReqOrRes
  by_cases hEnds : ch = CR ∨ ch = LF
  · rw [if_pos hEnds, verdictOf_unlessTaken, if_pos (decide_eq_true (hEnds.imp_right .inl))]
    rfl
  rw [if_neg hEnds]
  dsimp only
  by_cases hH : ch = 'H'.toUInt8
  · rw [if_pos hH, verdictOf_unlessTaken, hH]
    simp [hResponse, Fields.advance, Prog.verdict, Verdict.after]
  · rw [if_neg hH]
    exact startReq_verdict _ ch n

theorem literal_verdict (p : Fields) (ch expected : UInt8) (s : State) (n : Nat) :
    (literal p ch expected s).verdict n = verdictOf (unlessTaken (ch = expected) .strict) := by
  rw [verdictOf_unlessTaken, literal, Fields.strictCheck]
  by_cases hSame : ch = expected
  · simp [hSame, Fields.advance, Prog.verdict]
  · simp [hSame, Fields.fail, Prog.verdict]

theorem resStatusCode_verdict (p : Fields) (ch : UInt8) (n : Nat) :
    (resStatusCode p ch).verdict n =
      verdictOf (unlessTaken (ch = SP || ch = CR || ch = LF || nextDigit p.statusCode ch) .invalidStatus) := by
  have hNone : isNum SP = false ∧ isNum CR = false ∧ isNum LF = false := by decide
  rw [verdictOf_unlessTaken, resStatusCode]
  cases hDigit : isNum ch with
  | true =>
      have hOther : ch ≠ SP ∧ ch ≠ CR ∧ ch ≠ LF := by
        refine ⟨?_, ?_, ?_⟩
        all_goals
          intro hEq
          rw [hEq] at hDigit
          simp [hNone] at hDigit
      have hNext := digit_verdict p.statusCode
        { p with statusCode := (p.statusCode * 10 + digitValue ch) % 2 ^ 16 } .invalidStatus ch n p
      simp only [hDigit, Bool.not_true, Bool.false_eq_true, if_false] at hNext ⊢
      simp only [hOther, decide_false, Bool.false_or]
      exact hNext
  | false =>
      have hNot : nextDigit p.statusCode ch = false := by simp [nextDigit, hDigit]
      by_cases hSpace : ch = SP
      · simp [hSpace, Fields.advance, Prog.verdict]
      by_cases hReturn : ch = CR
      · rw [hReturn] at hSpace
        simp [hReturn, hSpace, Fields.advance, Prog.verdict]
      by_cases hFeed : ch = LF
      · rw [hFeed] at hSpace hReturn
        simp [hFeed, hSpace, hReturn, Fields.advance, Prog.verdict]
      · simp [hSpace, hReturn, hFeed, hNot, Fields.fail, Prog.verdict]

theorem between_iff (a b c : UInt8) :
    (decide (a ≤ c) && decide (c ≤ b)) = !decide (c < a ∨ c > b) := by
  rw [Bool.eq_iff_iff]
  simp

theorem firstHttpMajor_verdict (p : Fields) {ch lowest : UInt8} (s : State) {taken : Bool}
    (hTaken : taken = !decide (ch < lowest ∨ ch > '9'.toUInt8)) (n : Nat) :
    (firstHttpMajor p ch lowest s).verdict n = verdictOf (unlessTaken taken .invalidVersion) := by
  rw [verdictOf_unlessTaken, hTaken, firstHttpMajor]
  by_cases hOut : ch < lowest ∨ ch > '9'.toUInt8
  · simp [hOut, Fields.fail, Prog.verdict]
  · simp [hOut, Fields.advance, Prog.verdict]

/-- What a state makes of a byte. -/
theorem dispatch_verdict (p : Fields) (ch : UInt8) (n : Nat)
    (hCount : p.state.parsingHeader = true → n + 1 ≤ httpMaxHeaderSize) :
    (dispatch p ch).verdict (if p.state.parsingHeader then n + 1 else n) = verdictOf (refusalAt p n ch) := by
  cases hs : p.state
  all_goals
    simp only [dispatch, refusalAt, hs, State.parsingHeader, if_true]
  case startReqOrRes => exact startReqOrRes_verdict p ch _
  case startReq => exact startReq_verdict p ch _
  case resH | resHT | resHTT | resHTTP | resLineAlmostDone | reqHttpH | reqHttpHT | reqHttpHTT |
      reqHttpHTTP | headerValueDiscardWsAlmostDone => exact literal_verdict p ch _ _ _
  case reqMethod => exact reqMethod_verdict p ch _
  case headerFieldStart => exact headerFieldStart_verdict p ch _
  case headerValueStart => exact headerValueStart_verdict p ch _
  case headerField => exact headerField_verdict p ch _ (hCount (by rw [hs]; rfl))
  case headerValue => exact headerValue_verdict p ch _ (hCount (by rw [hs]; rfl))
  case resStatusStart => 
    unfold resStatusStart
    split_ifs <;> rfl
  case resStatus =>
    unfold resStatus
    split_ifs <;> rfl
  case chunkParameters =>
    unfold chunkParameters assert
    split_ifs <;> rfl
  case chunkData =>
    unfold chunkData assert
    dsimp only
    split_ifs <;> rfl
  case bodyIdentity =>
    unfold bodyIdentity assert
    dsimp only
    split_ifs <;> rfl
  case bodyIdentityEof | messageDone => rfl
  case reqSpacesBeforeUrl =>
    unfold reqSpacesBeforeUrl
    split
    · rfl
    · rw [Prog.verdict, urlByte_verdict]
      split <;> simp [hs, Fields.updateState]
  case reqSchema | reqSchemaSlash | reqSchemaSlashSlash | reqServerStart =>
    unfold urlStart
    split
    · rfl
    · rw [urlByte_verdict, hs]
  case reqServer | reqServerWithAt | reqPath | reqQueryStringStart | reqQueryString | reqFragmentStart |
      reqFragment =>
    rw [← hs]
    exact urlRest_verdict p ch _
  case headersAlmostDone =>
    by_cases hEnd : ch = LF
    · rw [if_pos hEnd, hEnd]
      exact headersAlmostDone_verdict p _
    · simp [headersAlmostDone, Fields.strictCheck, hEnd, Fields.fail, Prog.verdict, verdictOf]
  case headersDone =>
    rw [verdictOf_unlessTaken]
    by_cases hEnd : ch = LF
    · subst hEnd
      simp [headersDone_verdict]
    · simp [headersDone, Fields.strictCheck, hEnd, Fields.fail, Prog.verdict]
  case headerValueDiscardWs =>
    unfold headerValueDiscardWs
    by_cases hBlank : ch = SP ∨ ch = HT
    · have hAny : ch = SP ∨ ch = HT ∨ ch = CR ∨ ch = LF := hBlank.elim .inl fun h => .inr (.inl h)
      rw [if_pos hBlank, if_pos hAny]
      rfl
    by_cases hReturn : ch = CR
    · have hAny : ch = SP ∨ ch = HT ∨ ch = CR ∨ ch = LF := .inr (.inr (.inl hReturn))
      rw [if_neg hBlank, if_pos hReturn, if_pos hAny]
      rfl
    by_cases hFeed : ch = LF
    · have hAny : ch = SP ∨ ch = HT ∨ ch = CR ∨ ch = LF := .inr (.inr (.inr hFeed))
      rw [if_neg hBlank, if_neg hReturn, if_pos hFeed, if_pos hAny]
      rfl
    · have hNone : ¬ (ch = SP ∨ ch = HT ∨ ch = CR ∨ ch = LF) := by tauto
      rw [if_neg hBlank, if_neg hReturn, if_neg hFeed, if_neg hNone]
      exact headerValueStart_verdict p ch _
  case headerValueDiscardLws =>
    unfold headerValueDiscardLws
    split
    · rfl
    · dsimp only
      rw [Prog.verdict, Prog.verdict, if_pos rfl]
      exact headerFieldStart_verdict _ ch _
  case headerValueLws =>
    unfold headerValueLws
    split
    · exact headerValueStart_verdict _ ch _
    · exact headerFieldStart_verdict _ ch _
  case chunkSizeStart =>
    unfold chunkSizeStart assert
    rw [Prog.verdict]
    by_cases hFirst : n = 0
    · cases hChunked : p.flags.chunked with
      | false => simp [hFirst, Prog.verdict, verdictOf]
      | true =>
          cases hHex : unhex ch <;> simp [hFirst, Prog.verdict, verdictOf, unlessTaken, Fields.fail, Fields.advance]
    · simp [hFirst, verdictOf]
  case chunkSize =>
    unfold chunkSize assert
    cases hChunked : p.flags.chunked with
    | false => simp [Prog.verdict, verdictOf]
    | true =>
        by_cases hReturn : ch = CR
        · simp [hReturn, Prog.verdict, verdictOf, Fields.advance]
        cases hHex : unhex ch with
        | none =>
            by_cases hEnds : ch = ';'.toUInt8 ∨ ch = SP <;>
              simp [hReturn, hEnds, Prog.verdict, verdictOf, unlessTaken, Fields.fail, Fields.advance]
        | some v =>
            by_cases hLarge : (ullongMax - 16) / 16 < p.contentLength
            · simp [hReturn, hLarge, Nat.not_le.mpr hLarge, Prog.verdict, verdictOf, unlessTaken, Fields.fail]
            · simp [hReturn, hLarge, Nat.not_lt.mp hLarge, Prog.verdict, verdictOf, unlessTaken, Fields.advance]
  case chunkSizeAlmostDone =>
    unfold chunkSizeAlmostDone assert Fields.strictCheck
    cases hChunked : p.flags.chunked with
    | false => simp [Prog.verdict, verdictOf]
    | true =>
        by_cases hEnd : ch = LF <;>
          simp [hEnd, Prog.verdict, verdictOf, unlessTaken, Fields.fail, Fields.advance, Verdict.after]
  case chunkDataDone =>
    unfold chunkDataDone assert Fields.strictCheck
    cases hChunked : p.flags.chunked with
    | false => simp [Prog.verdict, verdictOf]
    | true =>
        by_cases hEnd : ch = LF <;>
          simp [hEnd, Prog.verdict, verdictOf, unlessTaken, Fields.fail, Fields.advance, Verdict.after]
  case chunkDataAlmostDone =>
    unfold chunkDataAlmostDone assert Fields.strictCheck
    cases hChunked : p.flags.chunked with
    | false => simp [Prog.verdict, verdictOf]
    | true =>
        by_cases hLength : p.contentLength = 0
        · by_cases hEnd : ch = CR <;>
            simp [hLength, hEnd, Prog.verdict, verdictOf, unlessTaken, Fields.fail, Fields.advance, Verdict.after]
        · simp [hLength, Prog.verdict, verdictOf]
  case resHttpMajor | reqHttpMajor =>
    rw [verdictOf_unlessTaken]
    unfold httpMajor
    by_cases hDot : ch = '.'.toUInt8
    · simp [hDot, Prog.verdict, Fields.advance]
    · rw [if_neg hDot]
      simp only [hDot, decide_false, Bool.false_or]
      exact digit_verdict p.httpMajor _ .invalidVersion ch _ p
  case resHttpMinor =>
    rw [verdictOf_unlessTaken]
    unfold resHttpMinor
    by_cases hSpace : ch = SP
    · simp [hSpace, Prog.verdict, Fields.advance]
    · rw [if_neg hSpace]
      simp only [hSpace, decide_false, Bool.false_or]
      exact digit_verdict p.httpMinor _ .invalidVersion ch _ p
  case reqHttpMinor =>
    rw [verdictOf_unlessTaken]
    unfold reqHttpMinor
    by_cases hReturn : ch = CR
    · simp [hReturn, Prog.verdict, Fields.advance]
    by_cases hFeed : ch = LF
    · rw [if_neg hReturn]
      simp [hFeed, Prog.verdict, Fields.advance]
    · rw [if_neg hReturn, if_neg hFeed]
      simp only [hReturn, hFeed, decide_false, Bool.false_or]
      exact digit_verdict p.httpMinor _ .invalidVersion ch _ p
  case resFirstStatusCode =>
    rw [verdictOf_unlessTaken]
    unfold resFirstStatusCode
    by_cases hSpace : ch = SP
    · have hDigit : isNum SP = false := by decide
      simp [hSpace, hDigit, Prog.verdict, Fields.advance]
    · cases hDigit : isNum ch <;> simp [hSpace, Prog.verdict, Fields.advance, Fields.fail]
  case resStatusCode => exact resStatusCode_verdict p ch _
  case resFirstHttpMajor =>
    exact firstHttpMajor_verdict p _ (between_iff '0'.toUInt8 '9'.toUInt8 ch) _
  case reqFirstHttpMajor =>
    have hTaken := between_iff '1'.toUInt8 '9'.toUInt8 ch
    rw [← Bool.decide_and] at hTaken
    exact firstHttpMajor_verdict p _ hTaken _
  case resFirstHttpMinor | reqFirstHttpMinor =>
    rw [verdictOf_unlessTaken]
    unfold firstHttpMinor
    cases hDigit : isNum ch <;> simp [Prog.verdict, Fields.advance, Fields.fail]
  case dead =>
    rw [verdictOf_unlessTaken]
    by_cases hEnds : ch = CR ∨ ch = LF <;> simp [hEnds, Prog.verdict, Fields.advance, Fields.fail]
  case resOrRespH =>
    rw [verdictOf_unlessTaken]
    unfold resOrRespH
    by_cases hT : ch = 'T'.toUInt8
    · simp [hT, Prog.verdict, Fields.advance]
    · rw [if_neg hT]
      by_cases hE : ch = 'E'.toUInt8 <;> simp [hT, hE, Prog.verdict, Fields.advance, Fields.fail]
  case startRes =>
    rw [verdictOf_unlessTaken]
    unfold startRes
    by_cases hH : ch = 'H'.toUInt8
    · simp [hH, Prog.verdict, Fields.advance, Verdict.after]
    · dsimp only
      rw [if_neg hH]
      by_cases hEnds : ch = CR ∨ ch = LF <;>
        simp [hH, hEnds, Prog.verdict, Fields.advance, Fields.fail, Verdict.after]
  case reqHttpStart =>
    rw [verdictOf_unlessTaken]
    unfold reqHttpStart
    by_cases hH : ch = 'H'.toUInt8
    · simp [hH, Prog.verdict, Fields.advance]
    · rw [if_neg hH]
      by_cases hSpace : ch = SP <;> simp [hH, hSpace, Prog.verdict, Fields.advance, Fields.fail]
  case reqLineAlmostDone =>
    rw [verdictOf_unlessTaken]
    unfold reqLineAlmostDone
    by_cases hEnd : ch = LF <;> simp [hEnd, Prog.verdict, Fields.advance, Fields.fail]
  case headerAlmostDone =>
    rw [verdictOf_unlessTaken]
    unfold headerAlmostDone
    by_cases hEnd : ch = LF <;> simp [hEnd, Prog.verdict, Fields.advance, Fields.fail]

/-- The first byte of a buffer is refused or taken as the state says. -/
theorem step_verdict (p : HttpParser) (ch : UInt8) :
    (step p.toFields .outer ch).verdict p.nread = verdictOf (refusal p ch) := by
  rw [refusal, step]
  cases hParsing : p.state.parsingHeader with
  | true =>
      by_cases hOver : p.nread + 1 > httpMaxHeaderSize
      · rw [if_pos rfl, Prog.verdict, if_pos hOver, if_pos ⟨rfl, hOver⟩]
        rfl
      · have hWithin := dispatch_verdict p.toFields ch p.nread fun _ => Nat.not_lt.mp hOver
        rw [hParsing, if_pos rfl] at hWithin
        rw [if_pos rfl, Prog.verdict, if_neg hOver, if_neg fun h => hOver h.2]
        exact hWithin
  | false =>
      have hPlain := dispatch_verdict p.toFields ch p.nread fun h => absurd h (by rw [hParsing]; nofun)
      rw [hParsing] at hPlain
      simpa using hPlain

end Verdicts

end Doormat.Parser
