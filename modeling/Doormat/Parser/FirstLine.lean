import Doormat.Parser.Budget
import Doormat.Parser.Chunks
import Doormat.Parser.Restart

/-! The first line of a message: a run of the switch over the bytes that are only looked at, and
with it the callbacks for a status line and for a request line. A line that is read to its end
has been read in this way, and fits. -/
namespace Doormat.Parser

open Bytes

variable {p p' q : Fields} {n : Nat} {ch : UInt8} {front bytes rest : ByteString}

/-! ### Bytes that are only looked at -/

/-- The switch over bytes of the header section that are only looked at. -/
def lookRun (p : Fields) : ByteString → Option Fields
  | [] => some p
  | ch :: rest =>
      if p.state.parsingHeader then
        match dispatch p ch with
        | .next p' .outer => lookRun p' rest
        | _ => none
      else none

theorem lookRun_cons (hParsing : p.state.parsingHeader = true) (hDispatch : dispatch p ch = p'.advance)
    (rest : ByteString) : lookRun p (ch :: rest) = lookRun p' rest := by
  rw [lookRun, if_pos hParsing, hDispatch]
  rfl

theorem lookRun_append (p : Fields) (front rest : ByteString) :
    lookRun p (front ++ rest) = (lookRun p front).bind fun q => lookRun q rest := by
  induction front generalizing p with
  | nil => rfl
  | cons ch front ih =>
      rw [List.cons_append, lookRun, lookRun]
      split
      · split
        case h_1 p' hDispatch => exact ih p'
        case h_2 => rfl
      · rfl

/-- Bytes under which the parser stays as it is. -/
theorem lookRun_stay (hParsing : p.state.parsingHeader = true) (hStay : ∀ c ∈ bytes, dispatch p c = p.advance) :
    lookRun p bytes = some p := by
  induction bytes with
  | nil => rfl
  | cons c bytes ih =>
      rw [lookRun_cons hParsing (hStay c List.mem_cons_self)]
      exact ih fun d hd => hStay d (List.mem_cons_of_mem c hd)

/-- Such bytes are counted, and they lengthen the mark. -/
theorem reads_lookRun (marked : Option (Mark × ByteString)) (hRun : lookRun p bytes = some p')
    (hRoom : n + bytes.length ≤ httpMaxHeaderSize) :
    (Locals.mk p n marked .outer).reads bytes =
      some (⟨p', n + bytes.length, marked.map fun m => (m.1, m.2 ++ bytes), .outer⟩, []) := by
  induction bytes generalizing p n marked with
  | nil =>
      cases hRun
      cases marked with
      | none => rfl
      | some m => simp [Locals.reads, Transducer.reads]
  | cons ch rest ih =>
      rw [lookRun] at hRun
      split at hRun
      case isFalse => cases hRun
      case isTrue hParsing =>
        split at hRun
        case h_2 => cases hRun
        case h_1 q hDispatch =>
          rw [List.length_cons] at hRoom ⊢
          have hCount : ¬ n + 1 > httpMaxHeaderSize := by omega
          have hRead : (Locals.mk p n marked .outer).read ch =
              some (⟨q, n + 1, marked.map fun m => (m.1, m.2 ++ [ch]), .outer⟩, []) := by
            simp [Locals.read, step, hParsing, hDispatch, Prog.emit, hCount, Flow.locals]
          have hRest := ih (n := n + 1) (marked.map fun m => (m.1, m.2 ++ [ch])) hRun (by omega)
          rw [Locals.reads_cons hRead hRest]
          have hMarks : (marked.map fun m => (m.1, m.2 ++ [ch])).map (fun m => (m.1, m.2 ++ rest)) =
              marked.map fun m => (m.1, m.2 ++ ch :: rest) := by
            cases marked with
            | none => rfl
            | some m => simp
          rw [hMarks]
          congr 3
          omega

/-- Bytes that have been read have fitted. -/
theorem reads_lookRun_forced {marked : Option (Mark × ByteString)} {after : ByteString}
    {r : Locals × List Callback} (hRun : lookRun p bytes = some p')
    (hReads : (Locals.mk p n marked .outer).reads (bytes ++ after) = some r) :
    (Locals.mk p' (n + bytes.length) (marked.map fun m => (m.1, m.2 ++ bytes)) .outer).reads after = some r ∧
      (bytes ≠ [] → n + bytes.length ≤ httpMaxHeaderSize) := by
  induction bytes generalizing p n marked r with
  | nil =>
      cases hRun
      refine ⟨?_, fun hNot => absurd rfl hNot⟩
      cases marked with
      | none => exact hReads
      | some m =>
          rw [Option.map_some, List.append_nil]
          exact hReads
  | cons ch rest ih =>
      rw [lookRun] at hRun
      split at hRun
      case isFalse => cases hRun
      case isTrue hParsing =>
        split at hRun
        case h_2 => cases hRun
        case h_1 q hDispatch =>
          obtain ⟨l, out, out', hRead, hRest, hOut⟩ := Transducer.reads_cons_eq_some.mp hReads
          have hRoom := le_of_read hParsing hRead
          have hCount : ¬ n + 1 > httpMaxHeaderSize := by omega
          have hSame : (Locals.mk p n marked .outer).read ch =
              some (⟨q, n + 1, marked.map fun m => (m.1, m.2 ++ [ch]), .outer⟩, []) := by
            simp [Locals.read, step, hParsing, hDispatch, Prog.emit, hCount, Flow.locals]
          rw [hSame] at hRead
          cases hRead
          obtain ⟨hAfter, hLonger⟩ := ih hRun hRest
          have hMarks : (marked.map fun m => (m.1, m.2 ++ [ch])).map (fun m => (m.1, m.2 ++ rest)) =
              marked.map fun m => (m.1, m.2 ++ ch :: rest) := by
            cases marked with
            | none => rfl
            | some m => simp
          have hLength : n + 1 + rest.length = n + (ch :: rest).length := by
            rw [List.length_cons]
            omega
          rw [hMarks, hLength] at hAfter
          refine ⟨hAfter.trans (by rw [← Prod.mk.eta (p := r), hOut]; rfl), fun _ => ?_⟩
          cases rest with
          | nil => exact hRoom
          | cons next rest => exact hLength ▸ hLonger (List.cons_ne_nil _ _)

/-! ### The status line -/

/-- The parser behind `HTTP/1.` with this minor version, and the space. -/
def statusFields (minor : Nat) : Fields :=
  { fresh.toFields with
    type := .response, state := .resFirstStatusCode, contentLength := ullongMax, httpMajor := 1, httpMinor := minor }

/-- The parser that begins a message with the letter H. -/
def afterLetterH : Fields := { fresh.toFields with contentLength := ullongMax, state := .resOrRespH }

theorem reads_http11 : (enter fresh).reads (ofString "HTTP/1.1 ") =
    some (⟨statusFields 1, 9, none, .outer⟩, [.notify afterLetterH .messageBegin]) := by
  decide +kernel

theorem reads_http10 : (enter fresh).reads (ofString "HTTP/1.0 ") =
    some (⟨statusFields 0, 9, none, .outer⟩, [.notify afterLetterH .messageBegin]) := by
  decide +kernel

/-- The further digits of a status code. -/
theorem lookRun_codeDigits {digits : ByteString} (hState : p.state = .resStatusCode)
    (hDigits : ∀ c ∈ digits, isNum c = true)
    (hFits : digits.foldl (fun acc c => acc * 10 + digitValue c) p.statusCode ≤ 999) :
    lookRun p digits =
      some { p with statusCode := digits.foldl (fun acc c => acc * 10 + digitValue c) p.statusCode } := by
  induction digits generalizing p with
  | nil => rfl
  | cons c digits ih =>
      have hc := hDigits c List.mem_cons_self
      have hLe : p.statusCode * 10 + digitValue c ≤ 999 := (foldl_decimal_le _ digits).trans hFits
      have hExact : (p.statusCode * 10 + digitValue c) % 2 ^ 16 = p.statusCode * 10 + digitValue c := by omega
      have hDispatch : dispatch p c = ({ p with statusCode := p.statusCode * 10 + digitValue c } : Fields).advance := by
        rw [dispatch, hState]
        simp only [resStatusCode, hc, Bool.not_true, Bool.false_eq_true, if_false, hExact]
        rw [if_neg (by omega), hState]
      rw [lookRun_cons (by rw [hState]; rfl) hDispatch]
      exact ih hState (fun d hd => hDigits d (List.mem_cons_of_mem c hd)) hFits

/-- A status code, and the space behind it. -/
theorem lookRun_code {code : Nat} (hCode : code ≤ 999) (minor : Nat) :
    lookRun (statusFields minor) (numeral code ++ [SP]) =
      some { statusFields minor with state := .resStatusStart, statusCode := code } := by
  obtain ⟨hDigits, hDecimal⟩ := numeral_digits code
  rw [lookRun_append]
  cases hNumeral : numeral code with
  | nil => exact absurd hNumeral (numeral_ne_nil code)
  | cons c digits =>
      rw [hNumeral] at hDigits hDecimal
      have hc : isNum c = true := hDigits c List.mem_cons_self
      have hFold : digits.foldl (fun acc c => acc * 10 + digitValue c) (digitValue c) = code := by
        simpa [decimal] using hDecimal
      have hFirst : dispatch (statusFields minor) c =
          ({ statusFields minor with statusCode := digitValue c, state := .resStatusCode } : Fields).advance := by
        rw [dispatch]
        simp [statusFields, resFirstStatusCode, hc]
      have hRest := lookRun_codeDigits
        (p := { statusFields minor with statusCode := digitValue c, state := .resStatusCode }) rfl
        (fun d hd => hDigits d (List.mem_cons_of_mem c hd)) (by dsimp only; omega)
      rw [lookRun_cons rfl hFirst, hRest]
      dsimp only
      rw [hFold]
      rfl

/-- What the parser calls for a reason phrase. -/
def phraseCallbacks (code : Nat) (phrase : ByteString) : List Callback :=
  if phrase = [] then [] else [.data code .status phrase]

/-- The parser within a reason phrase. -/
def inPhrase (p : Fields) : Fields := { p with state := .resStatus, index := 0 }

theorem read_phraseStart (hState : p.state = .resStatusStart) (hPlain : ch ≠ CR ∧ ch ≠ LF)
    (hRoom : n + 1 ≤ httpMaxHeaderSize) :
    (Locals.mk p n none .outer).read ch = some (⟨inPhrase p, n + 1, some (.status, [ch]), .outer⟩, []) := by
  have hCount : ¬ n + 1 > httpMaxHeaderSize := by omega
  simp [Locals.read, step, hState, State.parsingHeader, Prog.emit, hCount, dispatch, resStatusStart, hPlain,
    Fields.advance, Flow.locals, inPhrase]

theorem lookRun_phrase (p : Fields) (hEnds : ∀ c ∈ rest, c ≠ CR ∧ c ≠ LF) : lookRun (inPhrase p) rest = some (inPhrase p) := by
  apply lookRun_stay rfl
  intro c hc
  obtain ⟨hNotCR, hNotLF⟩ := hEnds c hc
  simp [dispatch, resStatus, inPhrase, hNotCR, hNotLF]

theorem read_phraseEnd (phrase : ByteString) (hRoom : n + 1 ≤ httpMaxHeaderSize) :
    (Locals.mk (inPhrase p) n (some (.status, phrase)) .outer).read CR =
      some (⟨{ p with state := .resLineAlmostDone, index := 0 }, n + 1, none, .outer⟩,
        [.data p.statusCode .status phrase]) := by
  have hCount : ¬ n + 1 > httpMaxHeaderSize := by omega
  simp [Locals.read, step, State.parsingHeader, Prog.emit, hCount, dispatch, resStatus, Fields.advance,
    Flow.locals, Mark.code, Fields.updateState, inPhrase]

theorem lookRun_phraseFeed (p : Fields) : lookRun { p with state := .resLineAlmostDone, index := 0 } [LF] =
    some { p with state := .headerFieldStart, index := 0 } :=
  lookRun_cons rfl rfl []

/-- The reason phrase, up to the end of its line. -/
theorem reads_phrase {phrase : ByteString} (hState : p.state = .resStatusStart) (hIndex : p.index = 0)
    (hEnds : ∀ c ∈ phrase, c ≠ CR ∧ c ≠ LF) (hRoom : n + phrase.length + 2 ≤ httpMaxHeaderSize) :
    (Locals.mk p n none .outer).reads (phrase ++ [CR, LF]) =
      some (⟨{ p with state := .headerFieldStart, index := 0 }, n + phrase.length + 2, none, .outer⟩,
        phraseCallbacks p.statusCode phrase) := by
  cases phrase with
  | nil =>
      have hEnd : lookRun p [CR, LF] = some { p with state := .headerFieldStart, index := 0 } := by
        cases p
        cases hState
        cases hIndex
        rfl
      exact reads_lookRun (n := n) none hEnd hRoom
  | cons ch rest =>
      obtain ⟨hCR, hLF⟩ := hEnds ch List.mem_cons_self
      rw [List.length_cons] at hRoom ⊢
      have hFirst := read_phraseStart (n := n) hState ⟨hCR, hLF⟩ (by omega)
      have hMore := reads_lookRun (n := n + 1) (some (.status, [ch]))
        (lookRun_phrase p fun c hc => hEnds c (List.mem_cons_of_mem ch hc)) (by omega)
      have hEnd := read_phraseEnd (p := p) (n := n + 1 + rest.length) (ch :: rest) (by omega)
      have hLast := reads_lookRun (n := n + 1 + rest.length + 1) none (lookRun_phraseFeed p) (by simp; omega)
      have hAll := Locals.reads_cons hFirst (Locals.reads_trans hMore (Locals.reads_cons hEnd hLast))
      rw [List.cons_append, hAll]
      congr 3
      simp
      omega

/-- A reason phrase that has been read has fitted. -/
theorem phrase_forced {phrase after : ByteString} {r : Locals × List Callback} (hState : p.state = .resStatusStart)
    (hEnds : ∀ c ∈ phrase, c ≠ CR ∧ c ≠ LF)
    (hReads : (Locals.mk p n none .outer).reads (phrase ++ CR :: LF :: after) = some r) :
    n + phrase.length + 2 ≤ httpMaxHeaderSize := by
  have hParsing : p.state.parsingHeader = true := by
    rw [hState]
    rfl
  cases phrase with
  | nil =>
      have hEnd : lookRun p [CR, LF] = some { p with state := .headerFieldStart } := by
        cases p
        cases hState
        rfl
      have hBytes : [] ++ CR :: LF :: after = [CR, LF] ++ after := rfl
      rw [hBytes] at hReads
      exact (reads_lookRun_forced hEnd hReads).2 (List.cons_ne_nil _ _)
  | cons ch rest =>
      rw [List.cons_append] at hReads
      obtain ⟨l, out, out', hFirst, hMore, -⟩ := Transducer.reads_cons_eq_some.mp hReads
      have hStart := read_phraseStart (n := n) hState (hEnds ch List.mem_cons_self) (le_of_read hParsing hFirst)
      rw [hStart] at hFirst
      cases hFirst
      have hEnd := (reads_lookRun_forced (lookRun_phrase p fun c hc => hEnds c (List.mem_cons_of_mem ch hc)) hMore).1
      obtain ⟨l', out₁, out₂, hCR, hFeed, -⟩ := Transducer.reads_cons_eq_some.mp hEnd
      have hRoom := le_of_read rfl hCR
      have hClose := read_phraseEnd (p := p) (n := n + 1 + rest.length) (ch :: rest) hRoom
      rw [show (some (Mark.status, [ch])).map (fun m => (m.1, m.2 ++ rest)) = some (.status, ch :: rest) from rfl,
        hClose] at hCR
      cases hCR
      obtain ⟨l'', out₃, out₄, hLF, -, -⟩ := Transducer.reads_cons_eq_some.mp hFeed
      have hLast := le_of_read rfl hLF
      rw [List.length_cons]
      omega

/-- A whole status line. -/
theorem reads_statusLine {minor code : Nat} {proto phrase : ByteString}
    (hProto : (enter fresh).reads (proto ++ [SP]) =
      some (⟨statusFields minor, 9, none, .outer⟩, [.notify afterLetterH .messageBegin]))
    (hCode : code ≤ 999) (hEnds : ∀ c ∈ phrase, c ≠ CR ∧ c ≠ LF)
    (hRoom : 9 + (numeral code).length + 1 + phrase.length + 2 ≤ httpMaxHeaderSize) :
    (enter fresh).reads (proto ++ [SP] ++ (numeral code ++ [SP] ++ (phrase ++ [CR, LF]))) =
      some (⟨{ statusFields minor with state := .headerFieldStart, statusCode := code, index := 0 },
          9 + (numeral code).length + 1 + phrase.length + 2, none, .outer⟩,
        .notify afterLetterH .messageBegin :: phraseCallbacks code phrase) := by
  have hDigits := reads_lookRun (n := 9) none (lookRun_code hCode minor) (by simp; omega)
  have hRest := @reads_phrase { statusFields minor with state := .resStatusStart, statusCode := code }
    (9 + (numeral code ++ [SP]).length) phrase rfl rfl hEnds (by simp; omega)
  have hAll := Locals.reads_trans hProto (Locals.reads_trans hDigits hRest)
  rw [hAll]
  congr 3
  simp
  omega

/-! ### The request line -/

/-- The parser behind a method and its space. -/
def methodFields (m : HttpMethod) : Fields :=
  { fresh.toFields with
    type := .request, state := .reqSpacesBeforeUrl, contentLength := ullongMax, method := m
    index := m.string.length + 1 }

/-- The parser when the message begins: a method with the letter H could still be a version. -/
def afterLetter (m : HttpMethod) : Fields :=
  if m = .HEAD then afterLetterH
  else { fresh.toFields with
    type := .request, state := .reqMethod, contentLength := ullongMax, index := 1
    method := (m.string.head?.bind methodOfFirst).getD .DELETE }

/-- A method, and the space behind it. -/
theorem reads_method {m : HttpMethod} (hMethod : m ≠ .END) :
    (enter fresh).reads (m.string ++ [SP]) =
      some (⟨methodFields m, m.string.length + 1, none, .outer⟩, [.notify (afterLetter m) .messageBegin]) := by
  revert hMethod
  cases m <;> decide +kernel

/-- A byte of a target in origin form. -/
def isTargetChar (c : UInt8) : Bool := isUrlChar c || c = '?'.toUInt8 || c = '#'.toUInt8

/-- The states within a target in origin form. -/
def State.inTarget : State → Bool
  | .reqPath | .reqQueryStringStart | .reqQueryString | .reqFragmentStart | .reqFragment => true
  | _ => false

theorem parsingHeader_of_inTarget {s : State} (hs : s.inTarget = true) : s.parsingHeader = true := by
  cases s
  case reqPath | reqQueryStringStart | reqQueryString | reqFragmentStart | reqFragment => rfl
  all_goals cases hs

theorem parseUrlChar_inTarget {s : State} (hs : s.inTarget = true) {c : UInt8} (hc : isTargetChar c = true) :
    (parseUrlChar s c).inTarget = true := by
  revert hc
  cases s
  case reqPath | reqQueryStringStart | reqQueryString | reqFragmentStart | reqFragment =>
    exact forall_byte (P := fun c => isTargetChar c = true → (parseUrlChar _ c).inTarget = true)
      (by decide +kernel) c
  all_goals cases hs

/-- The bytes of a target, up to the space behind it. -/
theorem lookRun_target (hState : p.state.inTarget = true) {target : ByteString}
    (hChars : ∀ c ∈ target, isTargetChar c = true) :
    ∃ s : State, s.inTarget = true ∧ lookRun p target = some { p with state := s } := by
  induction target generalizing p with
  | nil => exact ⟨p.state, hState, rfl⟩
  | cons c target ih =>
      have hc := hChars c List.mem_cons_self
      have hNext := parseUrlChar_inTarget hState hc
      have hPlain : c ≠ SP ∧ c ≠ CR ∧ c ≠ LF := by
        revert hc
        exact forall_byte (P := fun c => isTargetChar c = true → c ≠ SP ∧ c ≠ CR ∧ c ≠ LF) (by decide +kernel) c
      have hAlive : parseUrlChar p.state c ≠ .dead := by
        intro hDead
        rw [hDead] at hNext
        cases hNext
      have hDispatch : dispatch p c = ({ p with state := parseUrlChar p.state c } : Fields).advance := by
        have hRest : dispatch p c = urlRest p c := by
          rw [dispatch]
          revert hState
          cases p.state
          case reqPath | reqQueryStringStart | reqQueryString | reqFragmentStart | reqFragment => exact fun _ => rfl
          all_goals exact fun h => (by cases h)
        rw [hRest, urlRest, if_neg hPlain.1, if_neg (not_or.mpr hPlain.2)]
        simp [urlByte, Fields.updateState, hAlive]
      have hParsing := parsingHeader_of_inTarget hState
      obtain ⟨s, hs, hRun⟩ := ih (p := { p with state := parseUrlChar p.state c }) hNext
        fun d hd => hChars d (List.mem_cons_of_mem c hd)
      exact ⟨s, hs, (lookRun_cons hParsing hDispatch target).trans hRun⟩

/-- The slash of a target in origin form starts a path, also behind a `CONNECT`. -/
theorem read_slash (hState : p.state = .reqSpacesBeforeUrl) (hRoom : n + 1 ≤ httpMaxHeaderSize) :
    (Locals.mk p n none .outer).read '/'.toUInt8 =
      some (⟨{ p with state := .reqPath }, n + 1, some (.url, ['/'.toUInt8]), .outer⟩, []) := by
  have hCount : ¬ n + 1 > httpMaxHeaderSize := by omega
  have hSlash : '/'.toUInt8 ≠ SP := by decide
  have hPath : parseUrlChar .reqSpacesBeforeUrl '/'.toUInt8 = .reqPath := by decide
  have hServer : parseUrlChar .reqServerStart '/'.toUInt8 = .reqPath := by decide
  by_cases hMethod : p.method = .CONNECT
  · simp [Locals.read, step, hState, State.parsingHeader, Prog.emit, hCount, dispatch, reqSpacesBeforeUrl, hSlash,
      hMethod, urlByte, Fields.updateState, hServer, Fields.advance, Flow.locals]
  · simp [Locals.read, step, hState, State.parsingHeader, Prog.emit, hCount, dispatch, reqSpacesBeforeUrl, hSlash,
      hMethod, urlByte, Fields.updateState, hPath, Fields.advance, Flow.locals]

theorem read_targetEnd {s : State} (hs : s.inTarget = true) (target : ByteString) (hRoom : n + 1 ≤ httpMaxHeaderSize) :
    (Locals.mk { p with state := s } n (some (.url, target)) .outer).read SP =
      some (⟨{ p with state := .reqHttpStart }, n + 1, none, .outer⟩, [.data 0 .url target]) := by
  have hCount : ¬ n + 1 > httpMaxHeaderSize := by omega
  cases s
  case reqPath | reqQueryStringStart | reqQueryString | reqFragmentStart | reqFragment =>
    simp [Locals.read, step, State.parsingHeader, Prog.emit, hCount, dispatch, urlRest, Fields.updateState,
      Fields.advance, Flow.locals, Mark.code]
  all_goals cases hs

/-- A target, and the space behind it. -/
theorem reads_target (hState : p.state = .reqSpacesBeforeUrl) {target : ByteString}
    (hChars : ∀ c ∈ target, isTargetChar c = true) (hRoom : n + target.length + 2 ≤ httpMaxHeaderSize) :
    (Locals.mk p n none .outer).reads ('/'.toUInt8 :: target ++ [SP]) =
      some (⟨{ p with state := .reqHttpStart }, n + target.length + 2, none, .outer⟩,
        [.data 0 .url ('/'.toUInt8 :: target)]) := by
  have hFirst := read_slash (n := n) hState (by omega)
  obtain ⟨s, hs, hRun⟩ := lookRun_target (p := { p with state := .reqPath }) rfl hChars
  have hMore := reads_lookRun (n := n + 1) (some (.url, ['/'.toUInt8])) hRun (by omega)
  have hEnd := read_targetEnd (p := p) (n := n + 1 + target.length) hs ('/'.toUInt8 :: target) (by omega)
  have hAll := Locals.reads_cons hFirst (Locals.reads_trans hMore (Locals.reads_cons hEnd (Locals.reads_nil _)))
  rw [List.cons_append, hAll]
  congr 3
  omega

/-- A target that has been read has fitted. -/
theorem target_forced {target after : ByteString} {r : Locals × List Callback}
    (hState : p.state = .reqSpacesBeforeUrl) (hChars : ∀ c ∈ target, isTargetChar c = true)
    (hReads : (Locals.mk p n none .outer).reads ('/'.toUInt8 :: (target ++ SP :: after)) = some r) :
    n + target.length + 2 ≤ httpMaxHeaderSize := by
  have hParsing : p.state.parsingHeader = true := by
    rw [hState]
    rfl
  obtain ⟨l, out, out', hFirst, hMore, -⟩ := Transducer.reads_cons_eq_some.mp hReads
  rw [read_slash hState (le_of_read hParsing hFirst)] at hFirst
  cases hFirst
  obtain ⟨s, hs, hRun⟩ := lookRun_target (p := { p with state := .reqPath }) rfl hChars
  have hEnd := (reads_lookRun_forced hRun hMore).1
  obtain ⟨l', out₁, out₂, hSpace, -, -⟩ := Transducer.reads_cons_eq_some.mp hEnd
  have hRoom := le_of_read (parsingHeader_of_inTarget hs) hSpace
  omega

theorem lookRun_http11 (hState : p.state = .reqHttpStart) : lookRun p (ofString "HTTP/1.1" ++ [CR, LF]) =
    some { p with state := .headerFieldStart, httpMajor := 1, httpMinor := 1 } := by
  cases p
  cases hState
  rfl

theorem lookRun_http10 (hState : p.state = .reqHttpStart) : lookRun p (ofString "HTTP/1.0" ++ [CR, LF]) =
    some { p with state := .headerFieldStart, httpMajor := 1, httpMinor := 0 } := by
  cases p
  cases hState
  rfl

end Doormat.Parser
