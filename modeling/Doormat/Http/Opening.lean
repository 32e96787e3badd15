import Doormat.Parser.FirstLine
import Doormat.Http.RoundTrip
import Doormat.Http.StatusLine
import Doormat.Http2.RequestPath

/-! First lines that open a message: a request line with a target in origin form, and a status
line. They are read as they are written, and one that is read to its end fits. -/
namespace Doormat.Http

open Bytes Doormat.Parser HttpCodec

variable {υ : Type} {cb : Callbacks υ} {version : ProtoVersion}

/-- A new message is installed. -/
theorem Impl.apply_messageBegin {d : Impl υ} {m : Message} (hBegin : (cb.begin d.object d.user).1 = some m) (p : Fields) :
    d.apply cb (.notify p .messageBegin) = .ok { d.record .begin with
      user := (cb.begin d.object d.user).2, installed := true, object := m } := by
  simp [apply, settings, Settings.notification, accept, onMessageBegin, hBegin, record]

/-! ### Status lines -/

/-- Callbacks that decode every message into a new response. -/
def Callbacks.OpensResponses (cb : Callbacks υ) : Prop :=
  ∀ m user, ∃ garbage, (cb.begin m user).1 = some (.response (.fresh garbage))

/-- The status line is one of the grammar. -/
structure HttpResponse.WellFormed (r : HttpResponse) : Prop where
  code : r.statusCode ≤ 999
  ends : ∀ c ∈ r.statusMessage, c ≠ CR ∧ c ≠ LF

/-- Both versions of HTTP/1 are read as they are written. -/
theorem reads_proto (hOne : version = .HTTP11 ∨ version = .HTTP10) :
    ∃ minor, ownVersion (statusFields minor) = version ∧ (protoToString version).length = 8 ∧
      (enter fresh).reads (protoToString version ++ [SP]) =
        some (⟨statusFields minor, 9, none, .outer⟩, [.notify afterLetterH .messageBegin]) := by
  rcases hOne with rfl | rfl
  · exact ⟨1, rfl, by decide +kernel, reads_http11⟩
  · exact ⟨0, rfl, by decide +kernel, reads_http10⟩

theorem ofString_toString (n : Nat) : ofString (toString n) = numeral n := by
  show (Nat.repr n).toList.map _ = _
  rw [Nat.repr, String.toList_ofList]
  rfl

namespace HttpResponse.WellFormed

variable {r : HttpResponse}

/-- The status line in its parts. -/
theorem startLine_eq (r : HttpResponse) : r.startLine ++ crlf = protoToString r.protocolVersion ++ [SP] ++
    (numeral r.statusCode ++ [SP] ++ (r.statusMessage ++ [CR, LF])) := by
  rw [startLine, ofString_toString]
  simp only [List.append_assoc]
  rfl

/-- The status line is read as it is written. -/
theorem reads_startLine (h : r.WellFormed) (hStates : r.protocolVersion = version)
    (hOne : version = .HTTP11 ∨ version = .HTTP10) (hRoom : (r.startLine ++ crlf).length ≤ httpMaxHeaderSize) :
    ∃ p, Starts version p ∧ p.method = .DELETE ∧ (enter Parser.fresh).reads (r.startLine ++ crlf) =
      some (⟨p, (r.startLine ++ crlf).length, none, .outer⟩,
        .notify afterLetterH .messageBegin :: phraseCallbacks r.statusCode r.statusMessage) := by
  obtain ⟨minor, hOwn, hLength, hProto⟩ := reads_proto hOne
  have hLine := startLine_eq r
  rw [hStates] at hLine
  have hCount : (r.startLine ++ crlf).length =
      9 + (numeral r.statusCode).length + 1 + r.statusMessage.length + 2 := by
    rw [hLine]
    simp only [List.length_append, List.length_cons, List.length_nil, hLength]
    omega
  have hReads := reads_statusLine hProto h.code h.ends (by omega)
  rw [← hLine, ← hCount] at hReads
  exact ⟨{ statusFields minor with state := .headerFieldStart, statusCode := r.statusCode, index := 0 },
    ⟨rfl, rfl, rfl, rfl, hOwn⟩, rfl, hReads⟩

/-- A status line that is read to its end fits. -/
theorem startLine_forced (h : r.WellFormed) (hStates : r.protocolVersion = version)
    (hOne : version = .HTTP11 ∨ version = .HTTP10) {after : ByteString} {l : Locals} {cs : List Callback}
    (hReads : (enter Parser.fresh).reads (r.startLine ++ crlf ++ after) = some (l, cs)) :
    (r.startLine ++ crlf).length ≤ httpMaxHeaderSize := by
  obtain ⟨minor, hOwn, hLength, hProto⟩ := reads_proto hOne
  have hLine := startLine_eq r
  rw [hStates] at hLine
  have hBytes : r.startLine ++ crlf ++ after = protoToString version ++ [SP] ++
      ((numeral r.statusCode ++ [SP]) ++ (r.statusMessage ++ CR :: LF :: after)) := by
    rw [hLine]
    simp
  rw [hBytes] at hReads
  obtain ⟨l₁, out, out', hFront, hRest, -⟩ := Transducer.reads_append_eq_some.mp hReads
  rw [Locals.reads, hFront] at hProto
  cases hProto
  have hPhrase := (reads_lookRun_forced (lookRun_code h.code minor) hRest).1
  have hFits := phrase_forced (p := { statusFields minor with state := .resStatusStart, statusCode := r.statusCode })
    rfl h.ends hPhrase
  rw [hLine]
  simp only [List.length_append, List.length_cons, List.length_nil, hLength] at hFits ⊢
  omega

/-- The response at hand takes the status in, if there is a reason phrase. -/
theorem opening (h : r.WellFormed) (hStates : r.protocolVersion = version)
    (hOne : version = .HTTP11 ∨ version = .HTTP10) (hRoom : (r.startLine ++ crlf).length ≤ httpMaxHeaderSize)
    {d : Impl υ} {blank : HttpResponse} (hBegin : (cb.begin d.object d.user).1 = some (.response blank))
    (hReset : d.reset = d) :
    ∃ p e, Opening cb (r.startLine ++ crlf) version d p e ∧ p.method = .DELETE ∧
      e.object.data = blank.toStructuredData ∧ (r.statusMessage ≠ [] → e.object =
        .response { blank with statusCode := r.statusCode, statusMessage := r.statusMessage }) := by
  obtain ⟨p, hStarts, hMethod, hReads⟩ := h.reads_startLine hStates hOne hRoom
  generalize hb : ({ d.record .begin with
    user := (cb.begin d.object d.user).2, installed := true, object := .response blank } : Impl υ) = b
  have hFirst : d.apply cb (.notify afterLetterH .messageBegin) = .ok b := by
    rw [← hb]
    exact Impl.apply_messageBegin hBegin afterLetterH
  have hStatus : b.status = [] := by rw [← hb, ← hReset]; rfl
  have hInstalled : b.deref = .ok (.response blank) := by rw [← hb]; rfl
  have hSecond : ∃ e, b.replay cb (phraseCallbacks r.statusCode r.statusMessage) = .ok e ∧
      e = { b with object := e.object, status := e.status } ∧ e.object.data = blank.toStructuredData ∧
      (r.statusMessage ≠ [] → e.object =
        .response { blank with statusCode := r.statusCode, statusMessage := r.statusMessage }) := by
    by_cases hPhrase : r.statusMessage = []
    · refine ⟨b, by simp [phraseCallbacks, hPhrase], rfl, ?_, fun hNot => absurd hPhrase hNot⟩
      rw [← hb]
      rfl
    · refine ⟨{ b with status := r.statusMessage, object := .response { blank with
        statusCode := r.statusCode, statusMessage := r.statusMessage } }, ?_, rfl, rfl, fun _ => rfl⟩
      simp [Impl.replay, List.foldlM, Impl.apply, settings, Settings.data, accept, Impl.onStatus, phraseCallbacks,
        hPhrase, hInstalled, hStatus, bind, Except.bind, pure, Except.pure]
  obtain ⟨e, hPhrase, hFrame, hData, hObject⟩ := hSecond
  have hReplay := Impl.replay_cons_eq_ok.mpr ⟨b, hFirst, hPhrase⟩
  refine ⟨p, e, ⟨⟨_, hReads, hReplay⟩, hStarts, ?_, ?_, ?_, ?_⟩, hMethod, hData, hObject⟩
  all_goals rw [hFrame, ← hb]
  · rw [← hReset]
    exact ⟨rfl, rfl, rfl, rfl, rfl⟩
  · rw [← hReset]
    rfl
  all_goals rfl

end HttpResponse.WellFormed

/-! ### Request lines -/

/-- Callbacks that decode every message into a new request. -/
def Callbacks.OpensRequests (cb : Callbacks υ) : Prop := ∀ m user, (cb.begin m user).1 = some (.request .fresh)

/-- The target as it is written. -/
def HttpRequest.target (r : HttpRequest) : ByteString :=
  (if r.path ≠ [] then r.path else slash) ++ (if r.query ≠ [] then questionmark ++ r.query else [])
    ++ (if r.fragment ≠ [] then hash ++ r.fragment else [])

/-- The target is in origin form. -/
structure HttpRequest.WellFormed (r : HttpRequest) : Prop where
  path : ∀ c ∈ r.path.head?, c = '/'.toUInt8
  pathChars : ∀ c ∈ r.path, isUrlChar c = true
  query : ∀ c ∈ r.query, isUrlChar c = true ∨ c = '?'.toUInt8
  fragment : ∀ c ∈ r.fragment, isUrlChar c = true ∨ c = '?'.toUInt8 ∨ c = '#'.toUInt8

/-- Of the codec `on_url` changes what it keeps of the target. -/
theorem onUrl_frame {d d' : Impl υ} {bytes : ByteString} (h : Impl.onUrl bytes d = .ok (0, d')) :
    d' = { d with urline := d'.urline, url := d'.url, object := d'.object, connected := d'.connected } := by
  unfold Impl.onUrl at h
  dsimp only at h
  split at h
  · cases h
  · obtain ⟨m, -, h⟩ := bind_eq_ok.mp h
    cases m with
    | response r => cases h
    | request r =>
        dsimp only at h
        split at h
        · obtain ⟨r', -, h⟩ := bind_eq_ok.mp h
          cases h
          rfl
        · cases h
          rfl

theorem dropWhile_hash_eq_iff {text : ByteString} :
    text.dropWhile (· = '#'.toUInt8) = text ↔ ∀ c ∈ text.head?, c ≠ '#'.toUInt8 := by
  cases text with
  | nil => simp
  | cons c text =>
      by_cases hc : c = '#'.toUInt8
      · subst hc
        refine iff_of_false (fun hSame => ?_) (by simp)
        have hShorter := (List.dropWhile_suffix (· = '#'.toUInt8) (l := text)).length_le
        rw [List.dropWhile_cons_of_pos (by simp)] at hSame
        rw [hSame, List.length_cons] at hShorter
        omega
      · simp [hc]

namespace HttpRequest.WellFormed

variable {r : HttpRequest}

/-- The target in its parts. -/
def form (h : r.WellFormed) : OriginForm where
  path := r.path.tail
  query := if r.query ≠ [] then some r.query else none
  fragment := if r.fragment ≠ [] then some r.fragment else none
  path_chars c hc := h.pathChars c (List.mem_of_mem_tail hc)
  query_chars q hq := by
    split at hq
    · cases hq
      exact h.query
    · cases hq
  fragment_chars f hf := by
    split at hf
    · cases hf
      exact h.fragment
    · cases hf

theorem path_eq (h : r.WellFormed) :
    '/'.toUInt8 :: h.form.path = if r.path ≠ [] then r.path else slash := by
  have hHead := h.path
  show '/'.toUInt8 :: r.path.tail = _
  cases hPath : r.path with
  | nil => decide
  | cons c path =>
      rw [hPath] at hHead
      rw [hHead c rfl]
      simp

theorem form_bytes (h : r.WellFormed) : h.form.bytes = r.target := by
  rw [OriginForm.bytes, h.path_eq, target]
  congr 1
  · congr 1
    rw [OriginForm.queryPart]
    show ((if r.query ≠ [] then some r.query else none).map _).getD [] = _
    split
    · rfl
    · rfl
  · rw [OriginForm.fragmentPart]
    show ((if r.fragment ≠ [] then some r.fragment else none).map _).getD [] = _
    split
    · rfl
    · rfl

theorem form_query (h : r.WellFormed) : h.form.query.getD [] = r.query := by
  show (if r.query ≠ [] then some r.query else none).getD [] = _
  by_cases hQuery : r.query = []
  · simp [hQuery]
  · simp [hQuery]

theorem form_fragmentText_eq (h : r.WellFormed) :
    h.form.fragmentText = r.fragment.dropWhile (· = '#'.toUInt8) := by
  have hFragment : h.form.fragment.getD [] = r.fragment := by
    show (if r.fragment ≠ [] then some r.fragment else none).getD [] = _
    by_cases hEmpty : r.fragment = []
    · simp [hEmpty]
    · simp [hEmpty]
  rw [OriginForm.fragmentText, hFragment]

theorem form_fragmentText (h : r.WellFormed) (hUnhashed : ∀ c ∈ r.fragment.head?, c ≠ '#'.toUInt8) :
    h.form.fragmentText = r.fragment :=
  h.form_fragmentText_eq.trans (dropWhile_hash_eq_iff.mpr hUnhashed)

/-- The target behind its slash. -/
theorem target_eq (h : r.WellFormed) :
    ∃ rest, r.target = '/'.toUInt8 :: rest ∧ ∀ c ∈ rest, isTargetChar c = true := by
  refine ⟨h.form.path ++ h.form.queryPart ++ h.form.fragmentPart, ?_, ?_⟩
  · rw [← h.form_bytes]
    rfl
  · intro c hc
    rw [List.mem_append, List.mem_append] at hc
    rcases hc with (hPath | hQuery) | hFragment
    · simp [isTargetChar, h.form.path_chars c hPath]
    · cases hCase : h.form.query with
      | none => simp [OriginForm.queryPart, hCase] at hQuery
      | some q =>
          have hChars := h.form.query_chars q hCase
          simp only [OriginForm.queryPart, hCase, Option.map_some, Option.getD_some, List.mem_cons] at hQuery
          rcases hQuery with rfl | hc
          · decide
          · rcases hChars c hc with hUrl | rfl
            · simp [isTargetChar, hUrl]
            · decide
    · cases hCase : h.form.fragment with
      | none => simp [OriginForm.fragmentPart, hCase] at hFragment
      | some f =>
          have hChars := h.form.fragment_chars f hCase
          simp only [OriginForm.fragmentPart, hCase, Option.map_some, Option.getD_some, List.mem_cons] at hFragment
          rcases hFragment with rfl | hc
          · decide
          · rcases hChars c hc with hUrl | rfl | rfl
            · simp [isTargetChar, hUrl]
            · decide
            · decide

theorem lookRun_proto {p : Fields} (hState : p.state = .reqHttpStart) (hOne : version = .HTTP11 ∨ version = .HTTP10) :
    ∃ minor, ownVersion { p with httpMinor := minor } = version ∧ (protoToString version).length = 8 ∧
      lookRun p (protoToString version ++ [CR, LF]) =
        some { p with state := .headerFieldStart, httpMajor := 1, httpMinor := minor } := by
  rcases hOne with rfl | rfl
  · exact ⟨1, rfl, by decide +kernel, lookRun_http11 hState⟩
  · exact ⟨0, rfl, by decide +kernel, lookRun_http10 hState⟩

/-- The request line in its parts. -/
theorem startLine_eq (hStates : r.protocolVersion = version) (hMethod : r.method ≠ .MSEARCH ∧ r.method ≠ .END) :
    r.startLine ++ crlf =
      (r.method.string ++ [SP]) ++ (r.target ++ [SP] ++ (protoToString version ++ [CR, LF])) := by
  have hMapper : methodMapper r.method = r.method.string := by
    cases hCase : r.method
    case MSEARCH => exact absurd hCase hMethod.1
    case END => exact absurd hCase hMethod.2
    all_goals rfl
  rw [startLine, hMapper, hStates, target]
  simp only [List.append_assoc]
  rfl

/-- The request line is read as it is written. -/
theorem reads_startLine (h : r.WellFormed) (hStates : r.protocolVersion = version)
    (hOne : version = .HTTP11 ∨ version = .HTTP10) (hMethod : r.method ≠ .MSEARCH ∧ r.method ≠ .END)
    (hRoom : (r.startLine ++ crlf).length ≤ httpMaxHeaderSize) :
    ∃ p, Starts version p ∧ p.method = r.method ∧ (enter Parser.fresh).reads (r.startLine ++ crlf) =
      some (⟨p, (r.startLine ++ crlf).length, none, .outer⟩,
        [.notify (afterLetter r.method) .messageBegin, .data 0 .url r.target]) := by
  obtain ⟨rest, hTarget, hChars⟩ := h.target_eq
  obtain ⟨minor, hOwn, hLength, hProto⟩ :=
    lookRun_proto (p := { methodFields r.method with state := .reqHttpStart }) rfl hOne
  have hLine := startLine_eq hStates hMethod
  have hCount : (r.startLine ++ crlf).length = r.method.string.length + 1 + (rest.length + 2) + 10 := by
    rw [hLine, hTarget]
    simp only [List.length_append, List.length_cons, List.length_nil, hLength]
    omega
  have hFront := reads_method hMethod.2
  have hMiddle := @reads_target (methodFields r.method) (r.method.string.length + 1) rfl rest hChars (by omega)
  have hBack := reads_lookRun (n := r.method.string.length + 1 + rest.length + 2) none hProto
    (by simp only [List.length_append, List.length_cons, List.length_nil, hLength]; omega)
  have hAll := Locals.reads_trans hFront (Locals.reads_trans hMiddle hBack)
  rw [← hTarget, ← hLine] at hAll
  refine ⟨{ methodFields r.method with state := .headerFieldStart, httpMajor := 1, httpMinor := minor },
    ⟨rfl, rfl, rfl, rfl, hOwn⟩, rfl, ?_⟩
  rw [hAll, hCount]
  congr 3
  simp only [List.length_append, List.length_cons, List.length_nil, hLength]
  omega

/-- A request line that is read to its end is one of a method that the parser knows by the name
that is written, and fits. -/
theorem startLine_forced (h : r.WellFormed) (hStates : r.protocolVersion = version)
    (hOne : version = .HTTP11 ∨ version = .HTTP10) {after : ByteString} {l : Locals} {cs : List Callback}
    (hReads : (enter Parser.fresh).reads (r.startLine ++ crlf ++ after) = some (l, cs)) :
    (r.method ≠ .MSEARCH ∧ r.method ≠ .END) ∧ (r.startLine ++ crlf).length ≤ httpMaxHeaderSize := by
  have hMethod : r.method ≠ .MSEARCH ∧ r.method ≠ .END := by
    constructor
    · intro hSearch
      have hFront : r.startLine ++ crlf ++ after = ofString "MS" ++ (r.startLine.drop 2 ++ crlf ++ after) := by
        rw [startLine, hSearch]
        rfl
      obtain ⟨l₁, out, out', hLetters, -⟩ := Transducer.reads_append_eq_some.mp (hFront ▸ hReads)
      have hNone : (enter Parser.fresh).reads (ofString "MS") = none := by decide +kernel
      rw [Locals.reads] at hNone
      rw [hNone] at hLetters
      cases hLetters
    · intro hEnd
      have hFront : r.startLine ++ crlf ++ after = ofString "NON" ++ (r.startLine.drop 3 ++ crlf ++ after) := by
        rw [startLine, hEnd]
        rfl
      obtain ⟨l₁, out, out', hLetters, -⟩ := Transducer.reads_append_eq_some.mp (hFront ▸ hReads)
      have hNone : (enter Parser.fresh).reads (ofString "NON") = none := by decide +kernel
      rw [Locals.reads] at hNone
      rw [hNone] at hLetters
      cases hLetters
  refine ⟨hMethod, ?_⟩
  obtain ⟨rest, hTarget, hChars⟩ := h.target_eq
  obtain ⟨minor, hOwn, hLength, hProto⟩ :=
    lookRun_proto (p := { methodFields r.method with state := .reqHttpStart }) rfl hOne
  have hLine := startLine_eq hStates hMethod
  have hBytes : r.startLine ++ crlf ++ after =
      (r.method.string ++ [SP]) ++ ('/'.toUInt8 :: (rest ++ SP :: (protoToString version ++ [CR, LF] ++ after))) := by
    rw [hLine, hTarget]
    simp
  rw [hBytes] at hReads
  obtain ⟨l₁, out, out', hFront, hRest, -⟩ := Transducer.reads_append_eq_some.mp hReads
  have hKnown := reads_method hMethod.2
  rw [Locals.reads, hFront] at hKnown
  cases hKnown
  have hFits := target_forced (p := methodFields r.method) rfl hChars hRest
  have hSplit : '/'.toUInt8 :: (rest ++ SP :: (protoToString version ++ [CR, LF] ++ after)) =
      ('/'.toUInt8 :: rest ++ [SP]) ++ (protoToString version ++ [CR, LF] ++ after) := by simp
  rw [hSplit] at hRest
  obtain ⟨l₂, out₁, out₂, hMiddle, hBack, -⟩ := Transducer.reads_append_eq_some.mp hRest
  have hTold := @reads_target (methodFields r.method) (r.method.string.length + 1) rfl rest hChars hFits
  rw [Locals.reads, hMiddle] at hTold
  cases hTold
  have hLast := (reads_lookRun_forced hProto hBack).2 (by simp)
  rw [hLine, hTarget]
  simp only [List.length_append, List.length_cons, List.length_nil, hLength] at hLast ⊢
  omega

/-- A target that is taken in is not too long. -/
theorem short_of_replay {d d' : Impl υ} (hReset : d.reset = d) {m : Message}
    (hBegin : (cb.begin d.object d.user).1 = some m) {p : Fields} {cs : List Callback}
    (hReplay : d.replay cb (.notify p .messageBegin :: .data 0 .url r.target :: cs) = .ok d') :
    r.target.length ≤ Impl.maxUriLen := by
  obtain ⟨b, hFirst, hRest⟩ := Impl.replay_cons_eq_ok.mp hReplay
  obtain ⟨e, hUrl, -⟩ := Impl.replay_cons_eq_ok.mp hRest
  rw [Impl.apply_messageBegin hBegin p] at hFirst
  cases hFirst
  have hEmpty : d.urline = [] := by
    rw [← hReset]
    rfl
  have hTaken := Impl.accept_eq_ok.mp hUrl
  by_contra hLong
  simp only [settings, Settings.data, Impl.onUrl, Impl.record, hEmpty, List.nil_append] at hTaken
  rw [if_pos (by omega)] at hTaken
  cases hTaken

/-- The request at hand takes the target in. -/
theorem opening (h : r.WellFormed) (hStates : r.protocolVersion = version)
    (hOne : version = .HTTP11 ∨ version = .HTTP10) (hMethod : r.method ≠ .MSEARCH ∧ r.method ≠ .END)
    (hShort : r.target.length ≤ Impl.maxUriLen) (hRoom : (r.startLine ++ crlf).length ≤ httpMaxHeaderSize)
    {d : Impl υ} {blank : HttpRequest} (hBegin : (cb.begin d.object d.user).1 = some (.request blank))
    (hReset : d.reset = d) :
    ∃ p e, Opening cb (r.startLine ++ crlf) version d p e ∧ p.method = r.method ∧
      e.object = .request (Http2.targeted h.form blank) := by
  obtain ⟨p, hStarts, hSame, hReads⟩ := h.reads_startLine hStates hOne hMethod hRoom
  generalize hb : ({ d.record .begin with
    user := (cb.begin d.object d.user).2, installed := true, object := .request blank } : Impl υ) = b
  have hFirst : d.apply cb (.notify (afterLetter r.method) .messageBegin) = .ok b := by
    rw [← hb]
    exact Impl.apply_messageBegin hBegin (afterLetter r.method)
  have hAt : Http2.AtTarget b blank := by
    rw [← hb, ← hReset]
    exact ⟨rfl, rfl, rfl, rfl, rfl⟩
  have hFits : h.form.bytes.length ≤ Impl.maxUriLen := by
    rw [h.form_bytes]
    exact hShort
  obtain ⟨e, hUrl, hObject⟩ := Http2.onUrl_bytes hAt hFits
  rw [h.form_bytes] at hUrl
  have hFrame := onUrl_frame hUrl
  have hSecond : b.apply cb (.data 0 .url r.target) = .ok e := Impl.accept_eq_ok.mpr hUrl
  have hReplay : d.replay cb [.notify (afterLetter r.method) .messageBegin, .data 0 .url r.target] = .ok e :=
    Impl.replay_cons_eq_ok.mpr ⟨b, hFirst, Impl.replay_cons_eq_ok.mpr ⟨e, hSecond, rfl⟩⟩
  refine ⟨p, e, ⟨⟨_, hReads, hReplay⟩, hStarts, ?_, ?_, ?_, ?_⟩, hSame, hObject⟩
  · rw [hFrame, ← hb, ← hReset]
    exact ⟨rfl, rfl, rfl, rfl, rfl⟩
  · rw [hFrame, ← hb, ← hReset]
    rfl
  · rw [hFrame, ← hb]
    rfl
  · rw [hFrame, ← hb]
    rfl

end HttpRequest.WellFormed

end Doormat.Http
