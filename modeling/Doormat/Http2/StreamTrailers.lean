import Doormat.Http2.Stream

/-! The trailers of a response: whether the stream hands them to the library depends on
when the library pulls the end of the body. -/
namespace Doormat.Http2

open Bytes

/-- The calls of the application on a stream, and the reads of the library. -/
inductive ResponseOp
  | header (status : Nat)
  | body (data : ByteString)
  | trailer (key value : ByteString)
  | eom
  | read (length : Nat)
deriving DecidableEq

/-- A stream and the library. The library pulls from a `submit_response` or a
`resume_data` on until a read is deferred or reports the end of the body. -/
structure Exchange where
  stream : Stream
  pulling : Bool
  endReported : Bool
  submitted : List (Multimap ByteString ByteString)

namespace Exchange

/-- A stream whose response has not been given; `status` is what its member holds. -/
def init (status : Nat) : Exchange where
  stream := .init status
  pulling := false
  endReported := false
  submitted := []

/-- The library after a call of the application. -/
def settle (x : Exchange) (r : Stream × Option Effect) : Exchange :=
  let x := { x with stream := r.1 }
  match r.2 with
  | some .resumeData | some .submitResponse => { x with pulling := true }
  | some (.submitTrailer trailers) => { x with submitted := x.submitted ++ [trailers] }
  | some .submitHeaders | some .destroy | none => x

/-- One call, or one read if the library may read. -/
def step (x : Exchange) : ResponseOp → Option Exchange
  | .header status => some (x.settle (x.stream.onHeader status))
  | .body data => some (x.settle (x.stream.onBody data))
  | .trailer key value => some { x with stream := x.stream.onTrailer key value }
  | .eom => some (x.settle x.stream.onEom)
  | .read length =>
      if !x.pulling then none
      else
        let (r, stream) := x.stream.dataSourceReadCallback length
        some { x with
          stream := stream
          pulling := r ≠ .deferred && !r.eof
          endReported := x.endReported || r.eof }

def run (x : Exchange) : List ResponseOp → Option Exchange
  | [] => some x
  | op :: ops => (x.step op).bind fun x => x.run ops

end Exchange

/-- The trailers given in a run. -/
def trailersGiven : List ResponseOp → List (ByteString × ByteString)
  | [] => []
  | .trailer key value :: ops => (key, value) :: trailersGiven ops
  | _ :: ops => trailersGiven ops

/-- How far the application has come with its response. -/
inductive Phase
  | opening | body | trailers | ended
deriving DecidableEq

/-- The calls of the application come in order: the headers, the body, the trailers,
the end. -/
def InOrder : Phase → List ResponseOp → Bool
  | _, [] => true
  | phase, .read _ :: ops => InOrder phase ops
  | .opening, .header status :: ops => status ≠ 101 && InOrder .body ops
  | .body, .body _ :: ops => InOrder .body ops
  | .body, .trailer _ _ :: ops | .trailers, .trailer _ _ :: ops => InOrder .trailers ops
  | .body, .eom :: ops | .trailers, .eom :: ops => InOrder .ended ops
  | _, _ :: _ => false

/-- The trailers given have been handed over in one call, or in none if there are none. -/
def HandedOver (given : List (ByteString × ByteString))
    (submitted : List (Multimap ByteString ByteString)) : Prop :=
  if given = [] then submitted = []
  else ∃ trailers, submitted = [trailers] ∧ trailers.entries.Perm given

namespace Stream

/-! ### What a read and a flush do to the flags -/

theorem readFront_flags (s : Stream) (length : Nat) :
    ∃ body index, (s.readFront length).2 = { s with body := body, bodyIndex := index } := by
  unfold readFront takeFront
  split
  · exact ⟨s.body, s.bodyIndex, rfl⟩
  split
  · exact ⟨s.body, s.bodyIndex, rfl⟩
  dsimp only
  split
  · exact ⟨_, _, rfl⟩
  · exact ⟨s.body, _, rfl⟩

/-- A read is deferred, or leaves the flags but for `bodySent`; the end of the body is
reported only where the application has ended it. -/
theorem read_flags (s : Stream) (length : Nat) :
    s.dataSourceReadCallback length = (.deferred, { s with resumeNeeded := true }) ∨
      ∃ bytes eof noEnd body index,
        s.dataSourceReadCallback length =
            (.data bytes eof noEnd,
              { s with body := body, bodyIndex := index, bodySent := s.bodySent || eof }) ∧
          (eof = true → s.eof = true ∨ s.hasTrailers = true) := by
  unfold dataSourceReadCallback
  split
  · exact .inl rfl
  · right
    obtain ⟨body, index, hFront⟩ := readFront_flags s length
    rcases hRead : s.readFront length with ⟨bytes, t⟩
    rw [hRead] at hFront
    simp only at hFront
    subst hFront
    dsimp only
    split
    case isTrue hEnd =>
      refine ⟨bytes, true, s.hasTrailers, body, index, by simp, ?_⟩
      intro _
      simp only [bodyEof, isLastFrame, hasTrailers, Bool.or_eq_true, Bool.and_eq_true] at hEnd
      rcases hEnd with hEnd | hEnd
      · exact hEnd.2
      · exact .inl hEnd.1.1
    case isFalse =>
      exact ⟨bytes, false, s.hasTrailers, body, index, by simp, nofun⟩

end Stream

namespace Exchange

variable {x y : Exchange} {phase : Phase} {given : List (ByteString × ByteString)}

/-- Before the end of the response nothing has been handed over, and the library pulls
unless it is deferred or has seen the end. -/
structure Open (phase : Phase) (given : List (ByteString × ByteString)) (x : Exchange) : Prop where
  status : phase ≠ .opening → x.stream.status ≠ 101
  headersSent : x.stream.headersSent = decide (phase ≠ .opening)
  closed : x.stream.closed = false
  eof : x.stream.eof = false
  trailers : x.stream.trailers.entries.Perm given
  submitted : x.submitted = []
  reported : x.endReported = x.stream.bodySent
  sent : x.stream.bodySent = true →
    x.pulling = false ∧ x.stream.resumeNeeded = false ∧ given ≠ []
  resume : x.stream.resumeNeeded = true → x.pulling = false
  idle : phase = .opening → x.pulling = false ∧ x.stream.resumeNeeded = false ∧
    x.stream.bodySent = false
  untrailed : phase ≠ .trailers → given = []

/-- After the end of the response: `early` tells whether the end of the body had been
reported before. -/
structure Closing (given : List (ByteString × ByteString)) (early : Bool) (x : Exchange) : Prop where
  submitted : if early then given ≠ [] ∧ HandedOver given x.submitted else x.submitted = []

theorem open_init (status : Nat) : Open .opening [] (init status) where
  status := fun h => absurd rfl h
  headersSent := rfl
  closed := rfl
  eof := rfl
  trailers := List.Perm.refl _
  submitted := rfl
  reported := rfl
  sent := nofun
  resume := nofun
  idle := fun _ => ⟨rfl, rfl, rfl⟩
  untrailed := fun _ => rfl

theorem Open.read (h : Open phase given x) {length : Nat} (hStep : x.step (.read length) = some y) :
    Open phase given y := by
  simp only [step] at hStep
  split at hStep
  · cases hStep
  case isFalse hPulling =>
    have hPulling : x.pulling = true := by simpa using hPulling
    have hResume : x.stream.resumeNeeded = false := by
      cases hr : x.stream.resumeNeeded
      · rfl
      · rw [h.resume hr] at hPulling
        cases hPulling
    have hUnsent : x.stream.bodySent = false := by
      cases hb : x.stream.bodySent
      · rfl
      · rw [(h.sent hb).1] at hPulling
        cases hPulling
    have hStarted : phase ≠ .opening := by
      intro hPhase
      rw [(h.idle hPhase).1] at hPulling
      cases hPulling
    rcases Stream.read_flags x.stream length with hRead | ⟨bytes, eof, noEnd, body, index, hRead, hEnd⟩
    · rw [hRead] at hStep
      cases hStep
      exact
        { h with
          reported := by simp [ReadResult.eof, h.reported]
          sent := fun hSent => by
            rw [hUnsent] at hSent
            cases hSent
          resume := fun _ => by simp
          idle := fun hPhase => absurd hPhase hStarted }
    · rw [hRead] at hStep
      cases hStep
      exact
        { h with
          reported := by simp [ReadResult.eof, h.reported]
          sent := by
            intro hSent
            have hEof : eof = true := by simpa [hUnsent] using hSent
            refine ⟨by simp [ReadResult.eof, hEof], hResume, ?_⟩
            intro hGiven
            have hTrailers := h.trailers
            rw [hGiven, List.perm_nil] at hTrailers
            rcases hEnd hEof with hOver | hHas
            · rw [h.eof] at hOver
              cases hOver
            · simp [Stream.hasTrailers, hTrailers] at hHas
          resume := fun hr => by
            rw [hResume] at hr
            cases hr
          idle := fun hPhase => absurd hPhase hStarted }

theorem Open.header (h : Open .opening given x) {status : Nat} (hStatus : status ≠ 101) :
    Open .body given (x.settle (x.stream.onHeader status)) := by
  obtain ⟨hPulling, hResume, hSent⟩ := h.idle rfl
  have hHeaders : x.stream.headersSent = false := h.headersSent
  have hFlush : x.stream.onHeader status =
      ({ x.stream with status := status, headersSent := true }, some .submitResponse) := by
    simp [Stream.onHeader, Stream.flush, h.closed, hStatus, hResume, hHeaders]
  rw [hFlush]
  exact
    { h with
      status := fun _ => hStatus
      headersSent := rfl
      sent := fun hBody => Bool.noConfusion (hSent.symm.trans hBody)
      resume := fun hr => Bool.noConfusion (hResume.symm.trans hr)
      idle := nofun
      untrailed := fun _ => h.untrailed nofun }

theorem Open.body (h : Open .body given x) (data : ByteString) :
    Open .body given (x.settle (x.stream.onBody data)) := by
  have hStatus := h.status nofun
  have hHeaders : x.stream.headersSent = true := h.headersSent
  have hUnsent : x.stream.bodySent = false := by
    cases hb : x.stream.bodySent
    · rfl
    · exact absurd (h.untrailed nofun) (h.sent hb).2.2
  cases hResume : x.stream.resumeNeeded with
  | true =>
      have hFlush : x.stream.onBody data =
          ({ x.stream with body := x.stream.body ++ [data], resumeNeeded := false },
            some .resumeData) := by
        simp [Stream.onBody, Stream.flush, h.closed, hStatus, hResume]
      rw [hFlush]
      exact
        { h with
          sent := fun hBody => Bool.noConfusion (hUnsent.symm.trans hBody)
          resume := nofun
          idle := nofun }
  | false =>
      have hFlush : x.stream.onBody data =
          ({ x.stream with body := x.stream.body ++ [data] }, none) := by
        simp [Stream.onBody, Stream.flush, h.closed, hStatus, hResume, hHeaders, hUnsent]
      rw [hFlush]
      exact { h with }

theorem Open.trailer (h : Open phase given x) (hPhase : phase = .body ∨ phase = .trailers)
    (key value : ByteString) :
    Open .trailers (given ++ [(key, value)])
      { x with stream := x.stream.onTrailer key value } := by
  have hStarted : phase ≠ .opening := by rcases hPhase with rfl | rfl <;> decide
  exact
    { h with
      status := fun _ => h.status hStarted
      headersSent := by
        have hHeaders := h.headersSent
        simp only [hStarted, ne_eq, not_false_eq_true, decide_true] at hHeaders
        exact hHeaders
      trailers := by
        have hPerm := Multimap.insertEntries_perm key value x.stream.trailers.entries
        have hGiven : ((key, value) :: given).Perm (given ++ [(key, value)]) :=
          (List.perm_append_singleton _ _).symm
        exact (hPerm.trans (h.trailers.cons _)).trans hGiven
      sent := fun hBody => ⟨(h.sent hBody).1, (h.sent hBody).2.1, by simp⟩
      idle := nofun
      untrailed := fun hNot => absurd rfl hNot }

/-- The end of the response hands the trailers over if the end of the body has been
reported, and wakes up the library at most otherwise. -/
theorem Open.eom (h : Open phase given x) (hPhase : phase = .body ∨ phase = .trailers) :
    Closing given x.endReported (x.settle x.stream.onEom) := by
  have hStarted : phase ≠ .opening := by rcases hPhase with rfl | rfl <;> decide
  have hStatus := h.status hStarted
  have hHeaders : x.stream.headersSent = true := by
    have hHeaders := h.headersSent
    simp only [hStarted, ne_eq, not_false_eq_true, decide_true] at hHeaders
    exact hHeaders
  constructor
  rw [h.reported]
  cases hSent : x.stream.bodySent with
  | true =>
      obtain ⟨-, hResume, hGiven⟩ := h.sent hSent
      have hFlush : x.stream.onEom =
          ({ x.stream with eof := true }, some (.submitTrailer x.stream.trailers)) := by
        simp [Stream.onEom, Stream.flush, h.closed, hStatus, hResume, hHeaders, hSent]
      rw [hFlush]
      refine ⟨hGiven, ?_⟩
      rw [HandedOver, if_neg hGiven]
      exact ⟨x.stream.trailers, by simp [settle, h.submitted], h.trailers⟩
  | false =>
      cases hResume : x.stream.resumeNeeded with
      | true => simp [Stream.onEom, Stream.flush, h.closed, hStatus, hResume, settle, h.submitted]
      | false =>
          simp [Stream.onEom, Stream.flush, h.closed, hStatus, hResume, hHeaders, hSent, settle,
            h.submitted]

theorem run_cons {op : ResponseOp} {ops : List ResponseOp} :
    x.run (op :: ops) = some y ↔ ∃ z, x.step op = some z ∧ z.run ops = some y := by
  simp [run, Option.bind_eq_some_iff]

/-- After the end the library only reads. -/
theorem Closing.run {early : Bool} {ops : List ResponseOp} (h : Closing given early x)
    (hOrder : InOrder .ended ops = true) (hRun : x.run ops = some y) :
    Closing given early y ∧ trailersGiven ops = [] := by
  induction ops generalizing x with
  | nil =>
      cases hRun
      exact ⟨h, rfl⟩
  | cons op ops ih =>
      obtain ⟨z, hStep, hRest⟩ := run_cons.mp hRun
      cases op with
      | read length =>
          have hSame : z.submitted = x.submitted := by
            simp only [step] at hStep
            split at hStep
            · cases hStep
            · cases hStep
              rfl
          have hz : Closing given early z := ⟨by rw [hSame]; exact h.submitted⟩
          exact ih hz hOrder hRest
      | header | body | trailer | eom => cases hOrder

/-- A run up to and with its end: the trailers are handed over at once if the end of the
body has been reported by then, and not at all otherwise. -/
theorem Open.run {ops : List ResponseOp} (h : Open phase given x)
    (hOrder : InOrder phase ops = true) (hEom : .eom ∈ ops) (hRun : x.run ops = some y) :
    ∃ front rest z, ops = front ++ .eom :: rest ∧ x.run front = some z ∧ .eom ∉ front ∧
      Closing (given ++ trailersGiven ops) z.endReported y := by
  induction ops generalizing x phase given with
  | nil => cases hEom
  | cons op ops ih =>
      obtain ⟨z, hStep, hRest⟩ := run_cons.mp hRun
      by_cases hOp : op = .eom
      · subst hOp
        have hPhase : phase = .body ∨ phase = .trailers := by
          cases phase
          all_goals first | exact .inl rfl | exact .inr rfl | cases hOrder
        have hLater : InOrder .ended ops = true := by
          rcases hPhase with rfl | rfl <;> exact hOrder
        have hClosing := h.eom hPhase
        cases hStep
        obtain ⟨hEnd, hNone⟩ := hClosing.run hLater hRest
        refine ⟨[], ops, x, rfl, rfl, List.not_mem_nil, ?_⟩
        simpa [trailersGiven, hNone] using hEnd
      · have hMem : .eom ∈ ops := by
          rcases List.mem_cons.mp hEom with hEq | hMem
          · exact absurd hEq.symm hOp
          · exact hMem
        have hNext : ∀ {phase' : Phase} {given' : List (ByteString × ByteString)},
            Open phase' given' z → InOrder phase' ops = true →
              given' ++ trailersGiven ops = given ++ trailersGiven (op :: ops) →
                ∃ front rest w, op :: ops = front ++ .eom :: rest ∧ x.run front = some w ∧
                  .eom ∉ front ∧
                    Closing (given ++ trailersGiven (op :: ops)) w.endReported y := by
          intro phase' given' hz hLater hSame
          obtain ⟨front, rest, w, rfl, hFront, hNot, hEnd⟩ := ih hz hLater hMem hRest
          refine ⟨op :: front, rest, w, rfl, run_cons.mpr ⟨z, hStep, hFront⟩, ?_, hSame ▸ hEnd⟩
          intro hIn
          rcases List.mem_cons.mp hIn with hEq | hIn
          · exact hOp hEq.symm
          · exact hNot hIn
        cases op with
        | read length => exact hNext (h.read hStep) hOrder rfl
        | header status =>
            cases phase
            all_goals simp only [InOrder, Bool.and_eq_true, decide_eq_true_eq, Bool.false_eq_true] at hOrder
            cases hStep
            exact hNext (h.header hOrder.1) hOrder.2 rfl
        | body data =>
            cases phase
            all_goals simp only [InOrder, Bool.false_eq_true] at hOrder
            cases hStep
            exact hNext (h.body data) hOrder rfl
        | trailer key value =>
            have hPhase : phase = .body ∨ phase = .trailers := by
              cases phase
              all_goals first | exact .inl rfl | exact .inr rfl | cases hOrder
            have hLater : InOrder .trailers ops = true := by
              rcases hPhase with rfl | rfl <;> exact hOrder
            cases hStep
            exact hNext (h.trailer hPhase key value) hLater (by simp [trailersGiven])
        | eom => exact absurd rfl hOp

end Exchange

/-- Has the library seen the end of the body when the response ends? -/
def seenBeforeEnd (status : Nat) (ops : List ResponseOp) : Bool :=
  ((Exchange.init status).run (ops.takeWhile (· ≠ .eom))).any (·.endReported)

theorem takeWhile_ne_eom {front rest : List ResponseOp} (hNot : .eom ∉ front) :
    (front ++ .eom :: rest).takeWhile (· ≠ .eom) = front := by
  induction front with
  | nil => simp
  | cons op front ih =>
      rw [List.mem_cons, not_or] at hNot
      have hOp : op ≠ .eom := fun hEq => hNot.1 hEq.symm
      rw [List.cons_append, List.takeWhile_cons_of_pos (by simpa using hOp), ih hNot.2]

/-- Once the response has ended, whether or not the library has seen the end of its body
since, the trailers have been handed over as they must if and only if there are none or
the library had seen the end of the body before the response ended. -/
theorem trailers_handed_over_iff (status : Nat) (ops : List ResponseOp) {x : Exchange}
    (hOrder : InOrder .opening ops = true) (hRun : (Exchange.init status).run ops = some x)
    (hEom : .eom ∈ ops) :
    HandedOver (trailersGiven ops) x.submitted ↔
      trailersGiven ops = [] ∨ seenBeforeEnd status ops = true := by
  obtain ⟨front, rest, y, rfl, hFront, hNot, hClosing⟩ :=
    (Exchange.open_init status).run hOrder hEom hRun
  have hSeen : seenBeforeEnd status (front ++ .eom :: rest) = y.endReported := by
    rw [seenBeforeEnd, takeWhile_ne_eom hNot, hFront]
    rfl
  have hSubmitted := hClosing.submitted
  rw [List.nil_append] at hSubmitted
  rw [hSeen]
  cases hEarly : y.endReported with
  | true =>
      rw [hEarly, if_pos rfl] at hSubmitted
      exact ⟨fun _ => .inr rfl, fun _ => hSubmitted.2⟩
  | false =>
      rw [hEarly, if_neg Bool.false_ne_true] at hSubmitted
      rw [hSubmitted]
      by_cases hGiven : trailersGiven (front ++ .eom :: rest) = []
      · rw [HandedOver, if_pos hGiven]
        exact ⟨fun _ => .inl hGiven, fun _ => rfl⟩
      · rw [HandedOver, if_neg hGiven]
        constructor
        · rintro ⟨trailers, hNone, -⟩
          cases hNone
        · rintro (hNil | hSent)
          · exact absurd hNil hGiven
          · cases hSent

/-- A response of one chunk and one trailer, pulled after its end: the library sees the
end of the body, and the trailer is not handed over. -/
def lateRead : List ResponseOp :=
  [.header 200, .body (ofString "data"), .trailer (ofString "expires") (ofString "never"), .eom,
    .read 16]

theorem trailers_not_handed_over :
    InOrder .opening lateRead = true ∧
      ∃ x, (Exchange.init 0).run lateRead = some x ∧ .eom ∈ lateRead ∧ x.endReported = true ∧
        ¬ HandedOver (trailersGiven lateRead) x.submitted := by
  refine ⟨by decide, _, rfl, by decide, rfl, ?_⟩
  rintro ⟨trailers, hNone, -⟩
  cases hNone

/-- The same response, pulled before its end. -/
def earlyRead : List ResponseOp :=
  [.header 200, .body (ofString "data"), .trailer (ofString "expires") (ofString "never"),
    .read 16, .eom]

theorem trailers_handed_over_iff_early :
    ∃ x, (Exchange.init 0).run earlyRead = some x ∧
      (HandedOver (trailersGiven earlyRead) x.submitted ↔
        trailersGiven earlyRead = [] ∨ seenBeforeEnd 0 earlyRead = true) :=
  ⟨_, rfl, trailers_handed_over_iff 0 earlyRead (by decide) rfl (by decide)⟩

end Doormat.Http2
