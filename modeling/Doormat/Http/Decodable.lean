import Doormat.Parser.Gathering
import Doormat.Http.Reuse

/-! What is spelled decides whether a codec takes the callbacks that spell it. -/
namespace Doormat.Http

open Bytes Doormat.Parser

variable {υ : Type} {cb : Callbacks υ} {isRequest : Bool} {a : Assembly} {d e : Impl υ} {c : Callback}

/-! ### What is spelled -/

/-- What is spelled does not depend on the splitting of data. -/
theorem assembler_splits : assembler.Splits := by
  intro m bytes bytes' a
  -- what is out of place is so for every piece
  have hTwo : ∀ x y z : Bool, (x || y || z || y || z) = (x || y || z) := by decide
  have hFour : ∀ x y z u v : Bool, (x || y || z || u || v || y || z || u || v) = (x || y || z || u || v) := by
    decide
  cases m with
  | url => simp [Assembly.data_url, hTwo]
  | status => simp [Assembly.data_status, hTwo]
  | headerField =>
      have hIdle : ({ a.flush with
          key := a.flush.key ++ bytes, misplaced := a.misplaced || !a.begun } : Assembly).pending = false :=
        (flush_frame a).1
      rw [Assembly.data_headerField, Assembly.data_headerField, Impl.flush_idle hIdle, Assembly.data_headerField]
      simp [(flush_frame a).2.1]
  | headerValue => simp [Assembly.data_headerValue]
  | body => simp [Assembly.data_body, hFour]

/-- The callbacks of a parser whose callbacks have come in their places so far. -/
theorem reads_placed {l l' : Locals} {bytes : ByteString} {cs : List Callback} (hl : l.Regular)
    (h : Placed l.fields (assembler.ahead a l.mark)) (hReads : l.reads bytes = some (l', cs)) :
    Placed l'.fields (assembler.ahead (assembler.gather a cs) l'.mark) := by
  induction bytes generalizing l a cs with
  | nil =>
      obtain ⟨rfl, rfl⟩ := by simpa [Locals.reads, Transducer.reads] using hReads
      exact h
  | cons ch rest ih =>
      obtain ⟨lt, out, out', hRead, hRest, rfl⟩ := Transducer.reads_cons_eq_some.mp hReads
      obtain ⟨flow, hEmit, rfl⟩ := Locals.read_eq_some.mp hRead
      have hArrives := Prog.emit_arrives (step_placing hl h) hEmit
      rw [Gatherer.gather_append]
      refine ih (read_regular hl hRead) ?_ hRest
      cases flow with
      | next lt => exact hArrives
      | ret p consumed =>
          obtain ⟨rfl, -⟩ := step_ret hl hEmit
          exact hArrives

/-! ### What can be decoded -/

/-- The codec has no reason to refuse the message. -/
structure Decodable (isRequest : Bool) (s : Spelled) : Prop where
  target : s.target.isSome = true → isRequest = true
  reason : s.reason.isSome = true → isRequest = false
  length : (s.target.getD []).length ≤ Impl.maxUriLen
  major : ∀ p, s.framing = some p → p.httpMajor = 1
  lengths : ∀ line ∈ s.headers, lower line.1 = hfContentLen → ∃ n, stoull line.2 = .ok n

/-- The message `t` is `s` with more of it spelled. -/
structure Grows (s t : Spelled) : Prop where
  target : s.target = none ∨ t.target.isSome = true ∧ s.target.getD [] <+: t.target.getD []
  reason : s.reason.isSome = true → t.reason.isSome = true
  headers : s.headers <+: t.headers
  framing : s.framing = none ∨ s.framing = t.framing

theorem Grows.refl (s : Spelled) : Grows s s where
  target := by
    cases s.target with
    | none => exact .inl rfl
    | some bytes => exact .inr ⟨rfl, List.prefix_refl _⟩
  reason := id
  headers := List.prefix_refl _
  framing := .inr rfl

theorem Decodable.of_grows {s t : Spelled} (h : Decodable isRequest t) (hGrows : Grows s t) :
    Decodable isRequest s where
  target hSome := by
    cases hGrows.target with
    | inl hNone =>
        rw [hNone] at hSome
        cases hSome
    | inr hLonger => exact h.target hLonger.1
  reason hSome := h.reason (hGrows.reason hSome)
  length := by
    cases hGrows.target with
    | inl hNone =>
        rw [hNone]
        exact Nat.zero_le _
    | inr hLonger => exact hLonger.2.length_le.trans h.length
  major p hFraming := by
    cases hGrows.framing with
    | inl hNone =>
        rw [hNone] at hFraming
        cases hFraming
    | inr hSame => exact h.major p (hSame.symm.trans hFraming)
  lengths line hMem := h.lengths line (hGrows.headers.subset hMem)

theorem flush_grows (a : Assembly) : Grows a.toSpelled a.flush.toSpelled := by
  unfold Assembly.flush
  split
  · exact .refl _
  split
  · exact { Grows.refl a.toSpelled with }
  · exact { Grows.refl a.toSpelled with headers := List.prefix_append _ _ }

/-- What is out of place stays so. -/
theorem unmisplaced_of_next (h : (assembler.next a c).misplaced = false) : a.misplaced = false := by
  cases c with
  | notify p c =>
      cases c with
      | messageBegin => exact (Bool.or_eq_false_iff.mp h).1
      | chunkHeader | chunkComplete => exact h
  | data code m bytes =>
      cases m with
      | url =>
          rw [Gatherer.next, Assembly.data_url] at h
          exact (Bool.or_eq_false_iff.mp (Bool.or_eq_false_iff.mp h).1).1
      | status =>
          rw [Gatherer.next, Assembly.data_status] at h
          exact (Bool.or_eq_false_iff.mp (Bool.or_eq_false_iff.mp h).1).1
      | headerField =>
          rw [Gatherer.next, Assembly.data_headerField] at h
          exact (Bool.or_eq_false_iff.mp h).1
      | headerValue =>
          rw [Gatherer.next, Assembly.data_headerValue] at h
          exact (Bool.or_eq_false_iff.mp h).1
      | body =>
          rw [Gatherer.next, Assembly.data_body] at h
          simp only [Bool.or_eq_false_iff] at h
          exact h.1.1.1.1
  | headersComplete p => exact (Bool.or_eq_false_iff.mp (Bool.or_eq_false_iff.mp h).1).1
  | messageComplete => exact (Bool.or_eq_false_iff.mp h).1

theorem unmisplaced_of_gather {cs : List Callback} (h : (assembler.gather a cs).misplaced = false) :
    a.misplaced = false := by
  induction cs generalizing a with
  | nil => exact h
  | cons c cs ih => exact unmisplaced_of_next (ih h)

/-- A callback in its place adds to the message at hand, or it is the end of the message. -/
theorem next_grows (h : (assembler.next a c).misplaced = false) :
    (assembler.next a c).done = a.done ∧ Grows a.toSpelled (assembler.next a c).toSpelled ∨
      c = .messageComplete := by
  obtain ⟨-, -, -, -, -, -, hDone⟩ := flush_frame a
  cases c with
  | notify p c =>
      left
      cases c with
      | messageBegin => exact ⟨rfl, { Grows.refl a.toSpelled with }⟩
      | chunkHeader | chunkComplete => exact ⟨rfl, { Grows.refl a.toSpelled with }⟩
  | data code m bytes =>
      left
      cases m with
      | url =>
          rw [Gatherer.next, Assembly.data_url]
          exact ⟨rfl, { Grows.refl a.toSpelled with target := .inr ⟨rfl, List.prefix_append _ _⟩ }⟩
      | status =>
          rw [Gatherer.next, Assembly.data_status]
          exact ⟨rfl, { Grows.refl a.toSpelled with reason := fun _ => rfl }⟩
      | headerField =>
          rw [Gatherer.next, Assembly.data_headerField]
          exact ⟨hDone, { flush_grows a with }⟩
      | headerValue =>
          rw [Gatherer.next, Assembly.data_headerValue]
          exact ⟨rfl, { Grows.refl a.toSpelled with }⟩
      | body =>
          rw [Gatherer.next, Assembly.data_body]
          exact ⟨rfl, { Grows.refl a.toSpelled with }⟩
  | headersComplete p =>
      have hFraming : a.framing = none := by
        have hFramed := (Bool.or_eq_false_iff.mp h).2
        simpa using hFramed
      exact .inl ⟨hDone, { flush_grows a with framing := .inl hFraming }⟩
  | messageComplete => exact .inr rfl

/-- Every message that is spelled, the one at hand included, can be decoded. -/
structure AllDecodable (isRequest : Bool) (a : Assembly) : Prop where
  done : ∀ s ∈ a.done, Decodable isRequest s
  current : Decodable isRequest a.toSpelled

theorem AllDecodable.of_next (h : AllDecodable isRequest (assembler.next a c))
    (hPlace : (assembler.next a c).misplaced = false) : AllDecodable isRequest a := by
  cases next_grows hPlace with
  | inl hSame => exact ⟨hSame.1 ▸ h.done, h.current.of_grows hSame.2⟩
  | inr hLast =>
      subst hLast
      have hDone : ∀ s ∈ a.done ++ [a.flush.toSpelled], Decodable isRequest s := h.done
      exact ⟨fun s hMem => hDone s (List.mem_append_left _ hMem),
        (hDone _ (List.mem_append_right _ (List.mem_singleton.mpr rfl))).of_grows (flush_grows a)⟩

theorem AllDecodable.of_gather {cs : List Callback} (h : AllDecodable isRequest (assembler.gather a cs))
    (hPlace : (assembler.gather a cs).misplaced = false) : AllDecodable isRequest a := by
  induction cs generalizing a with
  | nil => exact h
  | cons c cs ih => exact (ih h hPlace).of_next (unmisplaced_of_gather hPlace)

/-! ### What is decoded -/

/-- The callbacks of an owner that decodes messages of one kind only. -/
structure Installs (cb : Callbacks υ) (isRequest : Bool) : Prop where
  begin : ∀ m user, ∃ n, (cb.begin m user).1 = some n ∧ n.isRequest = isRequest
  header : ∀ m user, (cb.header m user).1.isRequest = m.isRequest

/-- The codec has taken in what is spelled. -/
structure Takes (isRequest : Bool) (a : Assembly) (d : Impl υ) : Prop where
  tracks : Tracks a d
  kind : a.begun = true → d.object.isRequest = isRequest
  decodable : AllDecodable isRequest a

theorem completeHeaders_isRequest (p : Fields) (m : Message) :
    (Impl.completeHeaders p m).isRequest = m.isRequest := by
  cases m with
  | request r => rfl
  | response r => rfl

/-- The kind of the object stays. -/
theorem accepts_kind (hInstalls : Installs cb isRequest) (h : a.begun = true → d.object.isRequest = isRequest)
    (hPlace : (assembler.next a c).misplaced = false) (hAccepts : Impl.Accepts cb d c e) :
    (assembler.next a c).begun = true → e.object.isRequest = isRequest := by
  have hBegun : a.flush.begun = a.begun := (flush_frame a).2.1
  have hAnnounced : ∀ p (f : Impl υ), (f.announceHeaders cb p).object.isRequest = f.object.isRequest := by
    intro p f
    exact (hInstalls.header _ f.user).trans (completeHeaders_isRequest p f.object)
  cases hAccepts with
  | messageBegin hBegin =>
      intro _
      obtain ⟨n, hNew, hKind⟩ := hInstalls.begin d.object d.user
      rw [hBegin] at hNew
      cases hNew
      exact hKind
  | messageBeginAgain hBegin =>
      obtain ⟨n, hNew, -⟩ := hInstalls.begin d.object d.user
      rw [hBegin] at hNew
      cases hNew
  | @chunk p c hChunk =>
      cases c with
      | messageBegin => exact absurd rfl hChunk
      | chunkHeader | chunkComplete => exact h
  | url hInstalled hObject =>
      rw [Gatherer.next, Assembly.data_url]
      intro hSet
      rw [← h hSet, hObject]
      rfl
  | status hInstalled hObject =>
      rw [Gatherer.next, Assembly.data_status]
      intro hSet
      rw [← h hSet, hObject]
      rfl
  | field =>
      rw [Gatherer.next, Assembly.data_headerField]
      exact fun hSet => h (hBegun.symm.trans hSet)
  | nextField =>
      rw [Gatherer.next, Assembly.data_headerField]
      intro hSet
      rw [← h (hBegun.symm.trans hSet)]
      exact Message.isRequest_setData _ _
  | trailerField =>
      rw [Gatherer.next, Assembly.data_headerField]
      intro hSet
      rw [← h (hBegun.symm.trans hSet)]
      exact congrArg Message.isRequest (flushTrailer_object cb d).1
  | value =>
      rw [Gatherer.next, Assembly.data_headerValue]
      exact h
  | ignored | body =>
      rw [Gatherer.next, Assembly.data_body]
      exact h
  | @headersComplete p =>
      intro hSet
      rw [hAnnounced, ← h (hBegun.symm.trans hSet)]
      exact Message.isRequest_setData _ _
  | @lastHeader p =>
      intro hSet
      rw [hAnnounced, ← h (hBegun.symm.trans hSet)]
      exact (Message.isRequest_setData _ _).trans (Message.isRequest_setData _ _)
  | messageComplete =>
      intro hSet
      cases hSet

theorem header_reads {data data' : StructuredData} {key value : ByteString}
    (h : data.header key value = .ok data') (hName : lower key = hfContentLen) : ∃ n, stoull value = .ok n := by
  apply (data.header_isSome_iff key value).mp _ hName
  rw [h]
  rfl

/-- The line at hand can be handed over. -/
theorem Decodable.flush (h : Decodable isRequest a.toSpelled)
    (hLine : a.framing = none → a.pending = true → lower a.key = hfContentLen → ∃ n, stoull a.value = .ok n) :
    Decodable isRequest a.flush.toSpelled := by
  unfold Assembly.flush
  split
  · exact h
  case isFalse hPending =>
    split
    · exact { h with }
    case isFalse hFraming =>
      refine { h with lengths := fun line hMem => ?_ }
      rcases List.mem_append.mp hMem with hOld | hNew
      · exact h.lengths line hOld
      · obtain rfl := List.mem_singleton.mp hNew
        exact hLine (by simpa using hFraming) (by simpa using hPending)

theorem Takes.accepts (hInstalls : Installs cb isRequest) (h : Takes isRequest a d)
    (hPlace : (assembler.next a c).misplaced = false) (hAccepts : Impl.Accepts cb d c e) :
    Takes isRequest (assembler.next a c) e := by
  refine ⟨hAccepts.tracks h.tracks, accepts_kind hInstalls h.kind hPlace hAccepts, ?_⟩
  obtain ⟨-, -, hFraming, -, -, -, hDone⟩ := flush_frame a
  have hCompleted := h.tracks.headersCompleted
  have hGotHeader := h.tracks.gotHeader
  have hKey := h.tracks.key
  have hValue := h.tracks.value
  have hPast := h.decodable.done
  have hNow := h.decodable.current
  have hIdle : d.gotHeader = false → Decodable isRequest a.flush.toSpelled := by
    intro hGot
    refine hNow.flush fun _ hPending => ?_
    rw [← hGotHeader, hGot] at hPending
    cases hPending
  have hHeader : ∀ {data data' : StructuredData}, data.header d.key d.value = .ok data' →
      Decodable isRequest a.flush.toSpelled := by
    intro data data' hTaken
    refine hNow.flush fun _ _ hName => ?_
    rw [← hKey] at hName
    rw [← hValue]
    exact header_reads hTaken hName
  have hTrailer : a.framing.isSome = true → Decodable isRequest a.flush.toSpelled := by
    intro hSome
    refine hNow.flush fun hNone => ?_
    rw [hNone] at hSome
    cases hSome
  cases hAccepts with
  | messageBegin | messageBeginAgain => exact ⟨hPast, { hNow with }⟩
  | @chunk p c hChunk =>
      cases c with
      | messageBegin => exact absurd rfl hChunk
      | chunkHeader | chunkComplete => exact ⟨hPast, { hNow with }⟩
  | url hInstalled hObject hData hUrl hLength =>
      rw [Gatherer.next, Assembly.data_url] at hPlace ⊢
      simp only [Bool.or_eq_false_iff, Bool.not_eq_false'] at hPlace
      have hKind := h.kind hPlace.1.2
      rw [hObject] at hKind
      refine ⟨hPast, { hNow with target := fun _ => hKind.symm, length := ?_ }⟩
      rw [h.tracks.urline] at hLength
      exact hLength
  | status hInstalled hObject =>
      rw [Gatherer.next, Assembly.data_status] at hPlace ⊢
      simp only [Bool.or_eq_false_iff, Bool.not_eq_false'] at hPlace
      have hKind := h.kind hPlace.1.2
      rw [hObject] at hKind
      exact ⟨hPast, { hNow with reason := fun _ => hKind.symm }⟩
  | field hHeaders hGot =>
      rw [Gatherer.next, Assembly.data_headerField]
      exact ⟨hDone.symm ▸ hPast, { hIdle hGot with }⟩
  | nextField hHeaders hGot hInstalled hTaken =>
      rw [Gatherer.next, Assembly.data_headerField]
      exact ⟨hDone.symm ▸ hPast, { hHeader hTaken with }⟩
  | trailerField hHeaders =>
      rw [Gatherer.next, Assembly.data_headerField]
      exact ⟨hDone.symm ▸ hPast, { hTrailer (hCompleted.symm.trans hHeaders) with }⟩
  | value =>
      rw [Gatherer.next, Assembly.data_headerValue]
      exact ⟨hPast, { hNow with }⟩
  | ignored | body =>
      rw [Gatherer.next, Assembly.data_body]
      exact ⟨hPast, { hNow with }⟩
  | headersComplete hMajor hInstalled hGot =>
      refine ⟨hDone.symm ▸ hPast, { hIdle hGot with major := fun p hp => ?_ }⟩
      cases hp
      exact hMajor
  | lastHeader hMajor hInstalled hGot hTaken =>
      refine ⟨hDone.symm ▸ hPast, { hHeader hTaken with major := fun p hp => ?_ }⟩
      cases hp
      exact hMajor
  | messageComplete =>
      have hFramed : a.framing.isSome = true := by
        have hNone := (Bool.or_eq_false_iff.mp hPlace).2
        cases hSome : a.framing with
        | none =>
            rw [hSome] at hNone
            cases hNone
        | some p => rfl
      constructor
      · intro s hMem
        rcases List.mem_append.mp hMem with hOld | hNew
        · exact hPast s hOld
        · obtain rfl := List.mem_singleton.mp hNew
          exact hTrailer hFramed
      · exact
          { target := fun hSome => by cases hSome
            reason := fun hSome => by cases hSome
            length := Nat.zero_le _
            major := fun p hp => by cases hp
            lengths := fun line hMem => by cases hMem }

/-- From the same callbacks. -/
theorem Takes.replay (hInstalls : Installs cb isRequest) {cs : List Callback} (h : Takes isRequest a d)
    (hPlace : (assembler.gather a cs).misplaced = false) (hReplay : d.replay cb cs = .ok e) :
    Takes isRequest (assembler.gather a cs) e := by
  induction cs generalizing a d with
  | nil =>
      cases hReplay
      exact h
  | cons c cs ih =>
      obtain ⟨f, hApply, hRest⟩ := Impl.replay_cons_eq_ok.mp hReplay
      have hEnds : Impl.Ends cb a d c (d.apply cb c) := Impl.apply_ends h.tracks c
      rw [hApply] at hEnds
      exact ih (h.accepts hInstalls (unmisplaced_of_gather hPlace) hEnds) hPlace hRest

/-- A codec finds no fault with a message that can be decoded. -/
theorem Decodable.unexplained {s : Assembly} (hInstalls : Installs cb isRequest)
    (h : Decodable isRequest s.toSpelled) (f : Fault) : ¬ Explains cb isRequest s f := by
  intro hExplains
  cases f with
  | noData =>
      obtain ⟨m, user, hNone⟩ := hExplains
      obtain ⟨n, hNew, -⟩ := hInstalls.begin m user
      rw [hNone] at hNew
      cases hNew
  | notRequest =>
      have hKind := h.target hExplains.1
      rw [hExplains.2] at hKind
      cases hKind
  | notResponse =>
      have hKind := h.reason hExplains.1
      rw [hExplains.2] at hKind
      cases hKind
  | httpMajor =>
      obtain ⟨p, hFraming, hMajor⟩ := hExplains
      exact hMajor (h.major p hFraming)
  | contentLength err =>
      obtain ⟨line, hMem, hName, hError⟩ := hExplains
      obtain ⟨n, hReads⟩ := h.lengths line hMem hName
      rw [hError] at hReads
      cases hReads
  | parserAssertion | headersCompleted | outOfRange | decodeLoop => exact hExplains

/-- Where no message has begun, a callback in its place succeeds. -/
theorem begun_or_applies (hInstalls : Installs cb isRequest) (d : Impl υ)
    (hPlace : (assembler.next a c).misplaced = false) : a.begun = true ∨ ∃ e, d.apply cb c = .ok e := by
  cases c with
  | notify p c =>
      right
      cases c with
      | messageBegin =>
          obtain ⟨n, hNew, -⟩ := hInstalls.begin d.object d.user
          exact ⟨_, by simp [Impl.apply, accept, settings, Settings.notification, Impl.onMessageBegin, hNew]; rfl⟩
      | chunkHeader | chunkComplete => exact ⟨_, rfl⟩
  | data code m bytes =>
      cases m with
      | url =>
          rw [Gatherer.next, Assembly.data_url] at hPlace
          simp only [Bool.or_eq_false_iff, Bool.not_eq_false'] at hPlace
          exact .inl hPlace.1.2
      | status =>
          rw [Gatherer.next, Assembly.data_status] at hPlace
          simp only [Bool.or_eq_false_iff, Bool.not_eq_false'] at hPlace
          exact .inl hPlace.1.2
      | headerField =>
          rw [Gatherer.next, Assembly.data_headerField] at hPlace
          simp only [Bool.or_eq_false_iff, Bool.not_eq_false'] at hPlace
          exact .inl hPlace.2
      | headerValue =>
          rw [Gatherer.next, Assembly.data_headerValue] at hPlace
          simp only [Bool.or_eq_false_iff, Bool.not_eq_false'] at hPlace
          exact .inl hPlace.2
      | body =>
          right
          cases hIgnore : d.ignore with
          | true => exact ⟨d, by simp [Impl.apply, accept, Settings.data, settings, Impl.onBody, hIgnore]⟩
          | false => exact ⟨_, by simp [Impl.apply, accept, Settings.data, settings, Impl.onBody, hIgnore]; rfl⟩
  | headersComplete p =>
      have hBoth := (Bool.or_eq_false_iff.mp hPlace).1
      simp only [Bool.or_eq_false_iff, Bool.not_eq_false'] at hBoth
      exact .inl hBoth.2
  | messageComplete => exact .inr ⟨_, rfl⟩

/-- A codec takes every callback of a message that can be decoded. -/
theorem Takes.apply (hInstalls : Installs cb isRequest) (h : Takes isRequest a d)
    (hDecodable : AllDecodable isRequest (assembler.next a c))
    (hPlace : (assembler.next a c).misplaced = false) : ∃ e, d.apply cb c = .ok e := by
  refine (begun_or_applies hInstalls d hPlace).elim (fun hBegun => ?_) id
  have hEnds : Impl.Ends cb a d c (d.apply cb c) := Impl.apply_ends h.tracks c
  cases hApply : d.apply cb c with
  | ok e => exact ⟨e, rfl⟩
  | error halt =>
      rw [hApply] at hEnds
      cases halt with
      | failed err e => exact absurd hEnds.1 (Nat.not_lt.mpr hDecodable.current.length)
      | fault f =>
          have hExplains := hEnds.resolve_left (by rw [hPlace]; exact Bool.false_ne_true)
          rw [h.kind hBegun] at hExplains
          exact absurd hExplains (hDecodable.current.unexplained hInstalls f)

theorem Takes.replays (hInstalls : Installs cb isRequest) {cs : List Callback} (h : Takes isRequest a d)
    (hDecodable : AllDecodable isRequest (assembler.gather a cs))
    (hPlace : (assembler.gather a cs).misplaced = false) : ∃ e, d.replay cb cs = .ok e := by
  induction cs generalizing a d with
  | nil => exact ⟨d, rfl⟩
  | cons c cs ih =>
      have hNext := unmisplaced_of_gather (a := assembler.next a c) hPlace
      have hLater : AllDecodable isRequest (assembler.gather (assembler.next a c) cs) := hDecodable
      obtain ⟨f, hApply⟩ := h.apply hInstalls (hLater.of_gather hPlace) hNext
      have hEnds : Impl.Ends cb a d c (d.apply cb c) := Impl.apply_ends h.tracks c
      rw [hApply] at hEnds
      obtain ⟨e, hRest⟩ := ih (h.accepts hInstalls hNext hEnds) hDecodable hPlace
      exact ⟨e, Impl.replay_cons_eq_ok.mpr ⟨f, hApply, hRest⟩⟩

end Doormat.Http
