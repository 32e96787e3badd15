import Doormat.Http2.Session
import Doormat.Http2.StreamTrailers

/-! A response is told of its end once, and of its success only when its END_STREAM frame has
been written, in every run whose events come in order for it; an event out of order can be
followed by events in order that break this. -/
namespace Doormat.Http2

open Runs

section Calls

variable {s : Stream}

theorem Stream.flush_flags (s : Stream) :
    s.flush.1.eof = s.eof ∧ s.flush.1.closed = s.closed ∧ s.flush.1.errored = s.errored ∧
      Effect.destroys s.flush.2 = false := by
  rw [flush]
  split
  · exact ⟨rfl, rfl, rfl, rfl⟩
  split
  · split
    · exact ⟨rfl, rfl, rfl, rfl⟩
    split
    · exact ⟨rfl, rfl, rfl, rfl⟩
    · split <;> exact ⟨rfl, rfl, rfl, rfl⟩
  · exact ⟨rfl, rfl, rfl, rfl⟩

theorem Stream.accept_flags (s : Stream) (part : ResponsePart) :
    (s.accept part).eof = s.eof ∧ (s.accept part).errored = s.errored := by
  cases part with
  | header status =>
      have hFlush := flush_flags { s with status := status }
      exact ⟨hFlush.1, hFlush.2.2.1⟩
  | body data =>
      have hFlush := flush_flags { s with body := s.body ++ [data] }
      exact ⟨hFlush.1, hFlush.2.2.1⟩
  | trailer key value => exact ⟨rfl, rfl⟩

theorem Stream.read_keeps (s : Stream) (length : Nat) :
    (s.dataSourceReadCallback length).2.eof = s.eof ∧
      (s.dataSourceReadCallback length).2.errored = s.errored := by
  rcases s.read_flags length with hRead | ⟨bytes, eof, noEnd, body, index, hRead, -⟩
  · rw [hRead]
    exact ⟨rfl, rfl⟩
  · rw [hRead]
    exact ⟨rfl, rfl⟩

theorem Stream.onEom_flags (s : Stream) :
    s.onEom.1.eof = true ∧ s.onEom.1.errored = s.errored ∧
      Effect.destroys s.onEom.2 = s.closed := by
  have hFlush := flush_flags { s with eof := true }
  cases hClosed : s.closed with
  | true => simp [onEom, die, hClosed, Effect.destroys]
  | false =>
      have hEom : s.onEom = { s with eof := true }.flush := by simp [onEom, hClosed]
      rw [hEom]
      exact ⟨hFlush.1, hFlush.2.2.1, hFlush.2.2.2⟩

theorem Stream.die_flags (s : Stream) :
    s.die.1.eof = s.eof ∧ s.die.1.errored = s.errored ∧
      Effect.destroys s.die.2 = (s.eof || s.errored) := by
  rw [die]
  split
  case isTrue hOver => exact ⟨rfl, rfl, hOver.symm⟩
  case isFalse hNot => exact ⟨rfl, rfl, (Bool.eq_false_iff.mpr hNot).symm⟩

theorem Served.notifyError_flags (t : Served) :
    t.notifyError.stream = t.stream ∧ t.notifyError.destroyed = t.destroyed ∧
      t.notifyError.endWritten = t.endWritten := by
  rw [notifyError]
  split <;> exact ⟨rfl, rfl, rfl⟩

end Calls

/-- Only a stream whose response has been ended is destroyed. -/
structure Served.WellFormed (t : Served) : Prop where
  errored : t.stream.errored = false
  destroyed : t.destroyed = true → t.stream.eof = true

namespace Session

variable {id : Nat} {s s' : Session}

/-! ### The reports of a response -/

/-- The reports of a response: those made, and those that wait on the event loop. -/
def reports (s : Session) (id : Nat) : List Outcome :=
  s.received id ++ (s.posted.filter (·.1 = id)).map (·.2)

/-- The feedback callbacks of a response that the session and the write in flight hold. -/
def held (s : Session) (id : Nat) : Nat :=
  s.pending.count id + s.writing.elim 0 fun w => w.feedbacks.count id

/-- The END_STREAM frame of the stream is ready, in flight, or written. -/
def Announced (s : Session) (id : Nat) : Prop :=
  .endStream id ∈ s.queue ∨ (∃ w, s.writing = some w ∧ .endStream id ∈ w.frames) ∨
    s.endWritten id = true

/-- With a connector there is one report of an ended response, made or to come, and none of
another; without, there is one of every response. -/
structure Sound (id : Nat) (s : Session) : Prop where
  wellFormed : ∀ t, s.streams id = some t → t.WellFormed
  connected : s.connected = true →
    (s.reports id).length + s.held id = if s.ended id then 1 else 0
  lost : s.connected = false → s.writing = none ∧
    (s.reports id).length = if (s.streams id).isSome then 1 else 0
  cleared : .cleared ∈ s.reports id → s.endWritten id = true
  early : s.ended id = false ∨ id ∈ s.pending → ¬ s.Announced id
  flying : ∀ w, s.writing = some w → id ∈ w.feedbacks → s.endWritten id = false

theorem sound_init (id : Nat) : Sound id init := by
  constructor
  · intro t ht
    cases ht
  · intro _
    rfl
  · intro hLost
    cases hLost
  · intro hMem
    cases hMem
  · intro _ hAnnounced
    rcases hAnnounced with hQueue | ⟨w, hw, -⟩ | hWritten
    · cases hQueue
    · cases hw
    · cases hWritten
  · intro w hw
    cases hw

/-- A sound response is told what it should be. -/
theorem Sound.reported (h : s.Sound id) : s.Reported id := by
  have hPart : (s.received id).length ≤ (s.reports id).length := by
    rw [reports, List.length_append]
    exact Nat.le_add_right _ _
  constructor
  · cases hConnected : s.connected with
    | true =>
        have hTotal := h.connected hConnected
        split at hTotal <;> omega
    | false =>
        have hTotal := (h.lost hConnected).2
        split at hTotal <;> omega
  · intro hMem
    exact h.cleared (List.mem_append_left _ hMem)
  · intro hOver hSome
    have hTotal := (h.lost hOver.1).2
    rw [reports, hOver.2, hSome] at hTotal
    simpa using hTotal

/-! ### Steps that leave a response alone -/

/-- Two states that are the same to a response, but for frames that are gone. -/
structure Alike (id : Nat) (s s' : Session) : Prop where
  received : s'.received id = s.received id
  ended : s'.ended id = s.ended id
  endWritten : s'.endWritten id = s.endWritten id
  handedOut : s.connected = false → (s'.streams id).isSome = (s.streams id).isSome
  pending : s'.pending.count id = s.pending.count id
  writing : s'.writing = s.writing
  posted : s'.posted = s.posted
  connected : s'.connected = s.connected
  queue : .endStream id ∈ s'.queue → .endStream id ∈ s.queue

theorem Alike.reports (h : Alike id s s') : s'.reports id = s.reports id := by
  rw [Session.reports, Session.reports, h.received, h.posted]

theorem Alike.mem_pending (h : Alike id s s') : id ∈ s'.pending ↔ id ∈ s.pending := by
  rw [← List.count_pos_iff, ← List.count_pos_iff, h.pending]

theorem Alike.announced (h : Alike id s s') (hAnnounced : s'.Announced id) : s.Announced id := by
  rw [Announced, h.writing, h.endWritten] at hAnnounced
  exact hAnnounced.imp_left h.queue

theorem Sound.alike (hSound : s.Sound id) (h : Alike id s s')
    (hWellFormed : ∀ t, s'.streams id = some t → t.WellFormed) : s'.Sound id := by
  constructor
  · exact hWellFormed
  · intro hConnected
    rw [h.connected] at hConnected
    rw [h.reports, h.ended, held, h.pending, h.writing]
    exact hSound.connected hConnected
  · intro hLost
    rw [h.connected] at hLost
    rw [h.reports, h.writing, h.handedOut hLost]
    exact hSound.lost hLost
  · rw [h.reports, h.endWritten]
    exact hSound.cleared
  · rw [h.ended, h.mem_pending]
    intro hEarly hAnnounced
    exact hSound.early hEarly (h.announced hAnnounced)
  · rw [h.writing, h.endWritten]
    exact hSound.flying

theorem set_same (s : Session) (i : Nat) (t : Option Served) : (s.set i t).streams i = t := by
  simp [Session.set]

theorem set_ne (s : Session) {i : Nat} (t : Option Served) (h : id ≠ i) :
    (s.set i t).streams id = s.streams id := by
  simp [Session.set, h]

/-- A stream may change where its response does not see it, and appear with a connector. -/
theorem alike_set {i : Nat} {u : Option Served}
    (hReceived : u.elim [] (·.received) = s.received i) (hEof : u.any (·.stream.eof) = s.ended i)
    (hWritten : u.any (·.endWritten) = s.endWritten i)
    (hSome : s.connected = false → u.isSome = (s.streams i).isSome) : Alike id s (s.set i u) := by
  by_cases hi : id = i
  · subst hi
    have hNew := set_same s id u
    refine ⟨?_, ?_, ?_, fun hLost => ?_, rfl, rfl, rfl, rfl, fun hMem => hMem⟩
    · rw [received, hNew, hReceived]
    · rw [ended, hNew, hEof]
    · rw [endWritten, hNew, hWritten]
    · rw [hNew, hSome hLost]
  · have hNew := set_ne s u hi
    refine ⟨?_, ?_, ?_, fun _ => ?_, rfl, rfl, rfl, rfl, fun hMem => hMem⟩
    · rw [received, received, hNew]
    · rw [ended, ended, hNew]
    · rw [endWritten, endWritten, hNew]
    · rw [hNew]

theorem Sound.wellFormed_set {i : Nat} {u : Served} (h : s.Sound id) (hNew : i = id → u.WellFormed)
    {v : Served} (hv : (s.set i (some u)).streams id = some v) : v.WellFormed := by
  by_cases hi : id = i
  · subst hi
    rw [set_same] at hv
    cases hv
    exact hNew rfl
  · rw [set_ne s _ hi] at hv
    exact h.wellFormed v hv

theorem Sound.set (h : s.Sound id) {i : Nat} {t u : Served} (ht : s.streams i = some t)
    (hReceived : u.received = t.received) (hWritten : u.endWritten = t.endWritten)
    (hEof : u.stream.eof = t.stream.eof) (hErrored : u.stream.errored = t.stream.errored)
    (hDestroyed : t.WellFormed → u.destroyed = true → t.stream.eof = true) :
    (s.set i (some u)).Sound id := by
  have hAlike : Alike id s (s.set i (some u)) := by
    apply alike_set
    · rw [received, ht]
      exact hReceived
    · rw [ended, ht]
      exact hEof
    · rw [endWritten, ht]
      exact hWritten
    · intro _
      rw [ht]
      rfl
  apply h.alike hAlike
  intro v hv
  apply h.wellFormed_set _ hv
  intro hi
  subst hi
  have hOld := h.wellFormed t ht
  exact ⟨hErrored.trans hOld.errored, fun hGone => hEof.trans (hDestroyed hOld hGone)⟩

theorem Sound.createStream (h : s.Sound id) {i : Nat} (hNone : s.streams i = none)
    (hConnected : s.connected = true) : (s.set i (some .fresh)).Sound id := by
  have hAlike : Alike id s (s.set i (some .fresh)) := by
    apply alike_set
    · rw [received, hNone]
      rfl
    · rw [ended, hNone]
      rfl
    · rw [endWritten, hNone]
      rfl
    · intro hLost
      rw [hConnected] at hLost
      cases hLost
  apply h.alike hAlike
  intro v hv
  exact h.wellFormed_set (fun _ => ⟨rfl, fun hGone => Bool.noConfusion hGone⟩) hv

theorem Sound.streamClose (h : s.Sound id) {i : Nat} {t : Served} (ht : s.streams i = some t) :
    Sound id { s.set i (some t.close) with queue := s.queue.filter (!·.isOf i) } := by
  obtain ⟨hEof, hErrored, hDestroys⟩ := Stream.die_flags t.stream
  have hSet : (s.set i (some t.close)).Sound id := by
    apply Sound.set (u := t.close) h ht rfl rfl hEof hErrored
    intro hOld hGone
    have hEither : (t.destroyed || Effect.destroys t.stream.die.2) = true := hGone
    rw [hDestroys, hOld.errored, Bool.or_false] at hEither
    rcases Bool.or_eq_true_iff.mp hEither with hBefore | hEnded
    · exact hOld.destroyed hBefore
    · exact hEnded
  exact hSet.alike
    ⟨rfl, rfl, rfl, fun _ => rfl, rfl, rfl, rfl, rfl, fun hMem => List.mem_of_mem_filter hMem⟩
    hSet.wellFormed

theorem Sound.stop (h : s.Sound id) : Sound id { s with stopped := true } :=
  h.alike ⟨rfl, rfl, rfl, fun _ => rfl, rfl, rfl, rfl, rfl, fun hMem => hMem⟩ h.wellFormed

/-! ### Steps that report -/

theorem onEom_eq (s : Session) (i : Nat) (t : Served) :
    s.onEom i t = { s.set i (some t.onEom) with
      pending := if t.stream.closed then s.pending else s.pending ++ [i] } := by
  rw [Session.onEom]
  split
  · rfl
  · rfl

/-- The end of another response. -/
theorem alike_onEom {i : Nat} (hi : id ≠ i) (t : Served) : Alike id s (s.onEom i t) := by
  have hNew := set_ne s (some t.onEom) hi
  rw [onEom_eq]
  refine ⟨?_, ?_, ?_, fun _ => ?_, ?_, rfl, rfl, rfl, fun hMem => hMem⟩
  · rw [received, received, ← hNew]
  · rw [ended, ended, ← hNew]
  · rw [endWritten, endWritten, ← hNew]
  · rw [← hNew]
  · show List.count id (if t.stream.closed then s.pending else s.pending ++ [i]) = _
    split
    · rfl
    · simp [List.count_append, Ne.symm hi]

theorem reports_onEom {i : Nat} {t : Served} (ht : s.streams i = some t) :
    (s.onEom i t).reports i = s.reports i := by
  rw [onEom_eq, reports, received, reports, received, ht]
  simp only [set_same]
  rfl

/-- The end of a response that has not been ended. -/
theorem Sound.onEom (h : s.Sound id) {i : Nat} {t : Served} (ht : s.streams i = some t)
    (hEof : t.stream.eof = false)
    (hOrder : i = id → s.connected = true → t.stream.closed = false) : (s.onEom i t).Sound id := by
  obtain ⟨hEnded, hErrored, hDestroys⟩ := Stream.onEom_flags t.stream
  by_cases hi : i = id
  · subst hi
    have hNew := set_same s i (some t.onEom)
    have hNotEnded : s.ended i = false := by
      rw [ended, ht]
      exact hEof
    have hQuiet := h.early (.inl hNotEnded)
    have hReports := reports_onEom ht
    have hWritten : (s.onEom i t).endWritten i = s.endWritten i := by
      rw [onEom_eq, endWritten, endWritten, ht]
      simp only [hNew]
      rfl
    have hNow : (s.onEom i t).ended i = true := by
      rw [onEom_eq, ended]
      simp only [hNew]
      exact hEnded
    constructor
    · intro u hu
      rw [onEom_eq] at hu
      cases Option.some.inj (hNew.symm.trans hu)
      exact ⟨hErrored.trans (h.wellFormed t ht).errored, fun _ => hEnded⟩
    · intro hConnected
      rw [onEom_eq] at hConnected
      have hTotal := h.connected hConnected
      have hHeld : (s.onEom i t).held i = s.held i + 1 := by
        rw [onEom_eq, hOrder rfl hConnected, held, held]
        simp only [Bool.false_eq_true, if_false, List.count_append, List.count_singleton_self]
        exact Nat.add_right_comm _ _ _
      rw [hNotEnded] at hTotal
      rw [hNow, hReports, hHeld, if_pos rfl]
      simp only [Bool.false_eq_true, if_false] at hTotal
      omega
    · intro hLost
      rw [onEom_eq] at hLost
      have hOld := h.lost hLost
      rw [ht] at hOld
      rw [hReports, onEom_eq]
      simp only [hNew]
      exact hOld
    · rw [hReports, hWritten]
      exact h.cleared
    · intro _ hAnnounced
      rw [Announced, hWritten, onEom_eq] at hAnnounced
      exact hQuiet hAnnounced
    · intro w _ _
      rw [hWritten]
      exact Bool.eq_false_iff.mpr fun hYes => hQuiet (.inr (.inr hYes))
  · have hAlike : Alike id s (s.onEom i t) := alike_onEom (Ne.symm hi) t
    apply h.alike hAlike
    intro v hv
    rw [onEom_eq] at hv
    exact h.wellFormed v ((set_ne s _ (Ne.symm hi)).symm.trans hv)

/-- The feedback of other responses changes nothing. -/
theorem reports_post (s : Session) (ids : List Nat) (o : Outcome) :
    (s.post ids o).reports id = s.reports id ++ List.replicate (ids.count id) o := by
  have hNew : ((ids.map (·, o)).filter (·.1 = id)).map (·.2) = List.replicate (ids.count id) o := by
    induction ids with
    | nil => rfl
    | cons i ids ih =>
        by_cases hi : i = id
        · simp [hi, List.replicate_succ] at ih ⊢
          exact ih
        · simp [hi] at ih ⊢
          exact ih
  rw [reports, post, List.filter_append, List.map_append, hNew, reports, List.append_assoc]
  rfl

/-- `do_write` leaves everything as it is, stops, or starts a write of the frames that the
library hands out. -/
theorem doWrite_cases (s : Session) (a : Answer) :
    s.doWrite a = s ∨
    (s.writing = none ∧ s.queue ++ a.ready = [] ∧ s.doWrite a = { s with queue := [] }) ∨
    (s.Finishes a ∧ s.doWrite a =
      { s with queue := [], pending := [], stopped := true }.post s.pending .cleared) ∨
    (s.writing = none ∧ s.connected = true ∧ ∃ out rest, s.queue ++ a.ready = out ++ rest ∧
      s.doWrite a = { s with queue := rest, writing := some ⟨out, s.pending⟩, pending := [] }) := by
  rw [doWrite]
  split
  case isFalse => exact .inl rfl
  case isTrue hConnected =>
    rw [connectorDoWrite]
    split
    case isTrue => exact .inl rfl
    case isFalse hIdle =>
      obtain ⟨hWriting, hStopped⟩ := Bool.or_eq_false_iff.mp (Bool.eq_false_iff.mpr hIdle)
      have hNone : s.writing = none := Option.isNone_iff_eq_none.mp (Option.isSome_eq_false_iff.mp hWriting)
      right
      simp only [onWrite, hConnected, if_true, memSend]
      split
      case isTrue hNothing =>
        have hReady : s.queue ++ a.ready = [] := by
          rcases List.take_eq_nil_iff.mp hNothing with hZero | hNil
          · cases hZero
          · exact hNil
        simp only [hReady, List.drop_nil]
        split
        case isTrue hDone => exact .inr (.inl ⟨⟨hConnected, hNone, hStopped, hReady, hDone⟩, rfl⟩)
        case isFalse => exact .inl ⟨hNone, trivial, rfl⟩
      case isFalse =>
        exact .inr (.inr ⟨hNone, trivial, _, _, (List.take_append_drop _ _).symm, rfl⟩)

theorem not_cleared_mem_error {os : List Outcome} (n : Nat) :
    .cleared ∈ os ++ List.replicate n .error ↔ .cleared ∈ os := by
  rw [List.mem_append]
  constructor
  · intro hMem
    cases hMem with
    | inl hOld => exact hOld
    | inr hNew => cases List.eq_of_mem_replicate hNew
  · exact .inl

theorem Sound.doWrite {a : Answer} (h : s.Sound id)
    (hReady : a.ready.all s.mayGetReady = true) (hOrder : s.Finishes a → id ∉ s.pending) :
    (s.doWrite a).Sound id := by
  rcases doWrite_cases s a with hSame | ⟨hNone, hNothing, hEq⟩ | ⟨hFinishes, hEq⟩ |
    ⟨hNone, hConnected, out, rest, hQueue, hEq⟩
  · rw [hSame]
    exact h
  · rw [hEq]
    exact h.alike ⟨rfl, rfl, rfl, fun _ => rfl, rfl, rfl, rfl, rfl, fun hMem => nomatch hMem⟩ h.wellFormed
  · -- the feedback of other responses is run
    rw [hEq]
    have hCount : s.pending.count id = 0 := List.count_eq_zero.mpr (hOrder hFinishes)
    have hReports : (Session.post { s with queue := [], pending := [], stopped := true } s.pending
        .cleared).reports id = s.reports id := by
      rw [reports_post, hCount]
      exact List.append_nil _
    constructor
    · exact h.wellFormed
    · intro hConnected
      have hTotal := h.connected hConnected
      rw [held, hCount] at hTotal
      rw [hReports]
      exact hTotal
    · intro hLost
      rw [hReports]
      exact h.lost hLost
    · rw [hReports]
      exact h.cleared
    · intro hEarly hAnnounced
      have hNotEnded : s.ended id = false := hEarly.resolve_right List.not_mem_nil
      exact h.early (.inl hNotEnded) (hAnnounced.imp_left fun hMem => nomatch hMem)
    · exact h.flying
  · -- a write takes all the feedback there is
    rw [hEq]
    constructor
    · exact h.wellFormed
    · intro _
      have hTotal := h.connected hConnected
      rw [held, hNone] at hTotal
      show (s.reports id).length + (0 + s.pending.count id) = if s.ended id then 1 else 0
      simp only [Option.elim_none] at hTotal
      omega
    · intro hLost
      cases hConnected.symm.trans hLost
    · exact h.cleared
    · intro hEarly hAnnounced
      have hNotEnded : s.ended id = false := hEarly.resolve_right List.not_mem_nil
      have hNotReady : .endStream id ∉ s.queue ++ a.ready := by
        intro hMem
        rcases List.mem_append.mp hMem with hOld | hNew
        · exact h.early (.inl hNotEnded) (.inl hOld)
        · have hMay : s.ended id = true := List.all_eq_true.mp hReady _ hNew
          cases hNotEnded.symm.trans hMay
      rw [hQueue] at hNotReady
      rcases hAnnounced with hRest | ⟨w, hw, hOut⟩ | hWritten
      · exact hNotReady (List.mem_append_right _ hRest)
      · cases hw
        exact hNotReady (List.mem_append_left _ hOut)
      · exact h.early (.inl hNotEnded) (.inr (.inr hWritten))
    · intro w hw hMem
      cases hw
      exact Bool.eq_false_iff.mpr fun hYes => h.early (.inr hMem) (.inr (.inr hYes))

theorem received_land (s : Session) (frames : List Frame) :
    (s.land frames).received id = s.received id := by
  cases hStream : s.streams id <;> simp [received, land, hStream]

theorem ended_land (s : Session) (frames : List Frame) : (s.land frames).ended id = s.ended id := by
  cases hStream : s.streams id <;> simp [ended, land, hStream]

theorem endWritten_land (s : Session) (frames : List Frame) :
    (s.land frames).endWritten id =
      (s.endWritten id || (s.streams id).isSome && frames.contains (.endStream id)) := by
  cases hStream : s.streams id <;> simp [endWritten, land, hStream]

/-- The handler of a write posts what it has to report. -/
theorem Sound.report {m : Session} {w : OutWrite} {o : Outcome} (h : s.Sound id)
    (hw : s.writing = some w) (hReceived : m.received id = s.received id)
    (hEnded : m.ended id = s.ended id) (hPending : m.pending = s.pending) (hNone : m.writing = none)
    (hPosted : m.posted = s.posted) (hConnected : m.connected = s.connected) (hQueue : m.queue = s.queue)
    (hWellFormed : ∀ t, m.streams id = some t → t.WellFormed)
    (hStays : s.endWritten id = true → m.endWritten id = true)
    (hNew : m.endWritten id = true → s.Announced id)
    (hOrder : o = .cleared → id ∈ w.feedbacks → m.endWritten id = true) :
    (m.post w.feedbacks o).Sound id := by
  have hThere : s.connected = true := by
    cases hLost : s.connected with
    | true => rfl
    | false => cases hw.symm.trans (h.lost hLost).1
  have hReports : (m.post w.feedbacks o).reports id =
      s.reports id ++ List.replicate (w.feedbacks.count id) o := by
    rw [reports_post, reports, hReceived, hPosted, reports]
  constructor
  · exact hWellFormed
  · intro _
    have hTotal := h.connected hThere
    have hEnded' : (m.post w.feedbacks o).ended id = s.ended id := hEnded
    have hHeld : (m.post w.feedbacks o).held id = s.pending.count id := by
      show m.pending.count id + m.writing.elim 0 _ = _
      rw [hNone, hPending]
      exact Nat.add_zero _
    rw [held, hw] at hTotal
    rw [hReports, hEnded', hHeld, List.length_append, List.length_replicate]
    simp only [Option.elim_some] at hTotal
    omega
  · intro hLost
    cases hThere.symm.trans (hConnected.symm.trans hLost)
  · intro hMem
    show m.endWritten id = true
    rw [hReports] at hMem
    rcases List.mem_append.mp hMem with hOld | hPost
    · exact hStays (h.cleared hOld)
    · have hCount : 0 < w.feedbacks.count id := by
        rw [List.mem_replicate] at hPost
        exact Nat.pos_of_ne_zero hPost.1
      exact hOrder (List.eq_of_mem_replicate hPost).symm (List.count_pos_iff.mp hCount)
  · intro hEarly
    have hOld : s.ended id = false ∨ id ∈ s.pending := by
      rw [← hEnded, ← hPending]
      exact hEarly
    intro hAnnounced
    rcases hAnnounced with hMem | ⟨v, hv, -⟩ | hWritten
    · exact h.early hOld (.inl (hQueue ▸ hMem))
    · cases hNone.symm.trans hv
    · exact h.early hOld (hNew hWritten)
  · intro v hv
    cases hNone.symm.trans hv

theorem Sound.wrote {w : OutWrite} (h : s.Sound id) (hw : s.writing = some w) {result : WriteEnd}
    (hOrder : result = .ok → id ∈ w.feedbacks → .endStream id ∈ w.frames) :
    (s.wrote w result).Sound id := by
  have hOld : s.endWritten id = true → s.Announced id := fun hWritten => .inr (.inr hWritten)
  cases result with
  | ok =>
      let m : Session := { s with writing := none }
      have hWritten : (m.land w.frames).endWritten id =
          (s.endWritten id || (s.streams id).isSome && w.frames.contains (.endStream id)) :=
        endWritten_land m w.frames
      apply h.report hw (received_land m w.frames) (ended_land m w.frames) rfl rfl rfl rfl rfl
      · intro t ht
        obtain ⟨u, hu, hEq⟩ := Option.map_eq_some_iff.mp ht
        have hOldWell := h.wellFormed u hu
        rw [← hEq]
        exact ⟨hOldWell.errored, hOldWell.destroyed⟩
      · intro hYes
        rw [hWritten, hYes]
        rfl
      · intro hYes
        rw [hWritten] at hYes
        rcases Bool.or_eq_true_iff.mp hYes with hBefore | hNow
        · exact hOld hBefore
        · have hMem := (Bool.and_eq_true_iff.mp hNow).2
          exact .inr (.inl ⟨w, hw, by simpa using hMem⟩)
      · intro _ hFeedback
        have hThere : (s.streams id).isSome = true := by
          cases hStream : s.streams id with
          | some t => rfl
          | none =>
              have hEnded : s.ended id = false := by rw [ended, hStream]; rfl
              have hQuiet := h.early (.inl hEnded)
              exact absurd (.inr (.inl ⟨w, hw, hOrder rfl hFeedback⟩)) hQuiet
        rw [hWritten, hThere]
        simp [hOrder rfl hFeedback]
  | failed => exact h.report hw rfl rfl rfl rfl rfl rfl rfl h.wellFormed (fun hYes => hYes) hOld nofun
  | canceled => exact h.report hw rfl rfl rfl rfl rfl rfl rfl h.wellFormed (fun hYes => hYes) hOld nofun

/-- How many errors the loss of the connector brings a response. -/
def lossReports (s : Session) (id : Nat) : Nat :=
  (s.streams id).elim 0 fun t => s.pending.count id + if t.destroyed then 0 else 1

theorem received_onConnectorNulled (s : Session) (id : Nat) :
    s.onConnectorNulled.received id = s.received id ++ List.replicate (s.lossReports id) .error := by
  cases hStream : s.streams id with
  | none => simp [received, lossReports, Session.onConnectorNulled, hStream]
  | some t =>
      cases hGone : t.destroyed with
      | true =>
          simp [received, lossReports, Session.onConnectorNulled, hStream, Served.notifyError, Served.tell,
            hGone]
      | false =>
          simp [received, lossReports, Session.onConnectorNulled, hStream, Served.notifyError, Served.tell,
            hGone, List.replicate_succ']

theorem ended_onConnectorNulled (s : Session) (id : Nat) : s.onConnectorNulled.ended id = s.ended id := by
  cases hStream : s.streams id with
  | none => simp [ended, Session.onConnectorNulled, hStream]
  | some t =>
      simp [ended, Session.onConnectorNulled, hStream, (Served.notifyError_flags _).1, Served.tell]

theorem endWritten_onConnectorNulled (s : Session) (id : Nat) :
    s.onConnectorNulled.endWritten id = s.endWritten id := by
  cases hStream : s.streams id with
  | none => simp [endWritten, Session.onConnectorNulled, hStream]
  | some t =>
      simp [endWritten, Session.onConnectorNulled, hStream, (Served.notifyError_flags _).2.2, Served.tell]

theorem length_reports_onConnectorNulled (s : Session) (id : Nat) :
    (s.onConnectorNulled.reports id).length = (s.reports id).length + s.lossReports id := by
  rw [reports, received_onConnectorNulled, reports]
  simp only [List.length_append, List.length_replicate]
  exact Nat.add_right_comm _ _ _

theorem held_of_idle (hNone : s.writing = none) (id : Nat) : s.held id = s.pending.count id := by
  rw [held, hNone]
  exact Nat.add_zero _

/-- The connector is lost before the response is ended, or after its stream is destroyed. -/
theorem Sound.onConnectorNulled (h : s.Sound id) (hConnected : s.connected = true)
    (hNone : s.writing = none)
    (hOrder : ∀ t, s.streams id = some t → t.destroyed = false → t.stream.eof = false) :
    s.onConnectorNulled.Sound id := by
  have hTotal := h.connected hConnected
  rw [held_of_idle hNone] at hTotal
  constructor
  · intro u hu
    obtain ⟨t, ht, hEq⟩ := Option.map_eq_some_iff.mp hu
    obtain ⟨hStream, hGone, -⟩ :=
      Served.notifyError_flags (t.tell (List.replicate (s.pending.count id) .error))
    have hOld := h.wellFormed t ht
    subst hEq
    refine ⟨?_, ?_⟩
    · rw [hStream]
      exact hOld.errored
    · rw [hStream, hGone]
      exact hOld.destroyed
  · intro hThere
    cases hThere
  · intro _
    refine ⟨hNone, ?_⟩
    have hSome : (s.onConnectorNulled.streams id).isSome = (s.streams id).isSome := Option.isSome_map
    rw [length_reports_onConnectorNulled, hSome]
    cases hStream : s.streams id with
    | none =>
        simp only [ended, lossReports, hStream, Option.any_none, Option.elim_none, Option.isSome_none,
          Bool.false_eq_true, if_false] at hTotal ⊢
        omega
    | some t =>
        simp only [ended, lossReports, hStream, Option.any_some, Option.elim_some, Option.isSome_some,
          if_true] at hTotal ⊢
        cases hGone : t.destroyed with
        | true =>
            rw [(h.wellFormed t hStream).destroyed hGone, if_pos rfl] at hTotal
            simp only [if_true]
            omega
        | false =>
            rw [hOrder t hStream hGone] at hTotal
            simp only [Bool.false_eq_true, if_false] at hTotal ⊢
            omega
  · rw [endWritten_onConnectorNulled]
    intro hMem
    apply h.cleared
    rw [reports, received_onConnectorNulled, List.mem_append, not_cleared_mem_error] at hMem
    exact List.mem_append.mpr hMem
  · rw [ended_onConnectorNulled, Announced, endWritten_onConnectorNulled]
    exact h.early
  · intro w hw
    cases hNone.symm.trans hw

/-- The state after the closure at the front of the event loop. -/
def afterReport (s : Session) (i : Nat) (o : Outcome) (rest : List (Nat × Outcome)) : Session :=
  { s.set i ((s.streams i).map (·.tell [o])) with posted := rest }

theorem runPosted_eq_some (hRun : s.runPosted = some s') :
    ∃ i o rest, s.posted = (i, o) :: rest ∧ s' = s.afterReport i o rest := by
  unfold Session.runPosted at hRun
  split at hRun
  · cases hRun
  case h_2 i o rest hPosted => exact ⟨i, o, rest, hPosted, (Option.some.inj hRun).symm⟩

section AfterReport

variable (s : Session) (i : Nat) (o : Outcome) (rest : List (Nat × Outcome))

theorem streams_afterReport :
    (s.afterReport i o rest).streams id =
      (s.streams id).map fun t => t.tell (if i = id then [o] else []) := by
  by_cases hi : i = id
  · subst hi
    have hSame := set_same s i ((s.streams i).map (·.tell [o]))
    rw [if_pos rfl]
    exact hSame
  · have hSame := set_ne s ((s.streams i).map (·.tell [o])) (Ne.symm hi)
    have hNothing : (fun t : Served => t.tell []) = fun t => t := by
      funext t
      simp [Served.tell]
    have hMap : (s.streams id).map (fun t => t) = s.streams id := by simp
    rw [if_neg hi, hNothing, hMap]
    exact hSame

theorem ended_afterReport : (s.afterReport i o rest).ended id = s.ended id := by
  rw [ended, streams_afterReport, Option.any_map]
  rfl

theorem endWritten_afterReport : (s.afterReport i o rest).endWritten id = s.endWritten id := by
  rw [endWritten, streams_afterReport, Option.any_map]
  rfl

theorem isSome_afterReport :
    ((s.afterReport i o rest).streams id).isSome = (s.streams id).isSome := by
  rw [streams_afterReport, Option.isSome_map]

/-- The reports of a response that has been handed out stay the same. -/
theorem reports_afterReport (hPosted : s.posted = (i, o) :: rest)
    (hSome : i = id → (s.streams id).isSome = true) :
    (s.afterReport i o rest).reports id = s.reports id := by
  rw [reports, received, streams_afterReport, reports, received, hPosted]
  cases hStream : s.streams id with
  | none =>
      have hi : i ≠ id := fun hi => by simp [hStream] at hSome; exact hSome hi
      simp [afterReport, hi]
  | some t =>
      by_cases hi : i = id
      · simp [afterReport, hi, Served.tell]
      · simp [afterReport, hi, Served.tell]

end AfterReport

/-- The closures of the event loop carry the reports out. -/
theorem Sound.runPosted (h : s.Sound id) (hRun : s.runPosted = some s') : s'.Sound id := by
  obtain ⟨i, o, rest, hPosted, rfl⟩ := runPosted_eq_some hRun
  have hSome : i = id → (s.streams id).isSome = true := by
    intro hi
    have hMem : o ∈ s.reports id := by
      rw [reports, hPosted, hi]
      simp
    have hPos := List.length_pos_of_mem hMem
    cases hStream : s.streams id with
    | some t => rfl
    | none =>
        have hEnded : s.ended id = false := by rw [ended, hStream]; rfl
        cases hConnected : s.connected with
        | true =>
            have hTotal := h.connected hConnected
            rw [hEnded] at hTotal
            simp only [Bool.false_eq_true, if_false] at hTotal
            omega
        | false =>
            have hTotal := (h.lost hConnected).2
            rw [hStream] at hTotal
            simp only [Option.isSome_none, Bool.false_eq_true, if_false] at hTotal
            omega
  have hReports := reports_afterReport s i o rest hPosted hSome
  constructor
  · intro u hu
    rw [streams_afterReport] at hu
    obtain ⟨t, ht, hEq⟩ := Option.map_eq_some_iff.mp hu
    have hOld := h.wellFormed t ht
    rw [← hEq]
    exact ⟨hOld.errored, hOld.destroyed⟩
  · rw [hReports, ended_afterReport]
    exact h.connected
  · rw [hReports, isSome_afterReport]
    exact h.lost
  · rw [hReports, endWritten_afterReport]
    exact h.cleared
  · rw [ended_afterReport, Announced, endWritten_afterReport]
    exact h.early
  · rw [endWritten_afterReport]
    exact h.flying

/-! ### Runs -/

/-- An event that comes in order keeps a response sound. -/
theorem Sound.step {e : SessionEvent} (h : s.Sound id) (hStep : s.step e = some s')
    (hOrder : s.InOrder id e) : s'.Sound id := by
  cases e with
  | createStream i =>
      simp only [Session.step] at hStep
      split at hStep
      case isFalse => cases hStep
      case isTrue hBoth =>
        obtain ⟨hConnected, hNone⟩ := Bool.and_eq_true_iff.mp hBoth
        cases hStep
        exact h.createStream (Option.isNone_iff_eq_none.mp hNone) hConnected
  | respond i part =>
      obtain ⟨t, ht, hThen⟩ := Option.bind_eq_some_iff.mp hStep
      obtain ⟨hEof, hErrored⟩ := t.stream.accept_flags part
      split at hThen
      · cases hThen
      · cases hThen
        exact h.set ht rfl rfl hEof hErrored fun hOld => hOld.destroyed
  | onEom i =>
      obtain ⟨t, ht, hThen⟩ := Option.bind_eq_some_iff.mp hStep
      split at hThen
      case isTrue => cases hThen
      case isFalse hEof =>
        cases hThen
        apply h.onEom ht (Bool.eq_false_iff.mpr hEof)
        intro hi hConnected
        subst hi
        exact hOrder rfl hConnected t ht
  | read i length =>
      obtain ⟨t, ht, hThen⟩ := Option.bind_eq_some_iff.mp hStep
      obtain ⟨hEof, hErrored⟩ := t.stream.read_keeps length
      split at hThen
      · cases hThen
        exact h.set ht rfl rfl hEof hErrored fun hOld => hOld.destroyed
      · cases hThen
  | streamClose i =>
      obtain ⟨t, ht, hThen⟩ := Option.bind_eq_some_iff.mp hStep
      split at hThen
      · cases hThen
        exact h.streamClose ht
      · cases hThen
  | doWrite a =>
      simp only [Session.step] at hStep
      split at hStep
      case isTrue hReady =>
        cases hStep
        exact h.doWrite hReady hOrder
      case isFalse => cases hStep
  | wrote result =>
      obtain ⟨w, hw, rfl⟩ := Option.map_eq_some_iff.mp hStep
      apply h.wrote hw
      intro hOk hMem
      subst hOk
      exact hOrder w hw hMem
  | stop =>
      cases hStep
      exact h.stop
  | connectorNulled =>
      simp only [Session.step] at hStep
      split at hStep
      case isFalse => cases hStep
      case isTrue hBoth =>
        obtain ⟨hConnected, hNone⟩ := Bool.and_eq_true_iff.mp hBoth
        cases hStep
        exact h.onConnectorNulled hConnected (Option.isNone_iff_eq_none.mp hNone) hOrder
  | runPosted => exact h.runPosted hStep

/-! ### Events out of order -/

/-- As many closures as wait on the event loop. -/
def drain (s : Session) : List SessionEvent := List.replicate s.posted.length .runPosted

theorem heeds_drain (id n : Nat) (s : Session) :
    Heeds step (InOrder id) s (List.replicate n .runPosted) := by
  induction n generalizing s with
  | zero => trivial
  | succ n ih =>
      intro t hStep
      exact ⟨trivial, ih t⟩

/-- When the event loop is empty, all reports of a response have been made. -/
theorem run_drain (s : Session) (id : Nat) (hSome : (s.streams id).isSome = true) :
    ∃ t, run step s s.drain = some t ∧ t.posted = [] ∧ t.connected = s.connected ∧
      (t.streams id).isSome = true ∧ t.endWritten id = s.endWritten id ∧
      t.received id = s.reports id := by
  generalize hLength : s.posted.length = n
  induction n generalizing s with
  | zero =>
      have hNil := List.eq_nil_of_length_eq_zero hLength
      refine ⟨s, ?_, hNil, rfl, hSome, rfl, ?_⟩
      · rw [drain, hLength]
        rfl
      · rw [reports, hNil]
        exact (List.append_nil _).symm
  | succ n ih =>
      obtain ⟨⟨i, o⟩, rest, hPosted⟩ := List.exists_cons_of_length_eq_add_one hLength
      have hStep : s.step .runPosted = some (s.afterReport i o rest) := by
        show s.runPosted = _
        rw [runPosted, hPosted]
        rfl
      have hRest : (s.afterReport i o rest).posted.length = n := by
        rw [hPosted] at hLength
        exact Nat.succ.inj hLength
      have hSome' : ((s.afterReport i o rest).streams id).isSome = true := by
        rw [isSome_afterReport]
        exact hSome
      obtain ⟨t, hRun, hNil, hConnected, hThere, hWritten, hReceived⟩ := ih _ hSome' hRest
      refine ⟨t, ?_, hNil, hConnected, hThere, ?_, ?_⟩
      · rw [drain, hLength, List.replicate_succ, run_cons_eq_some]
        refine ⟨_, hStep, ?_⟩
        rw [drain, hRest] at hRun
        exact hRun
      · rw [hWritten, endWritten_afterReport]
      · rw [hReceived, reports_afterReport s i o rest hPosted fun _ => hSome]

/-- In this state, and in all that come of it by events in order, the response is told what
it should be. -/
def Assured (id : Nat) (s : Session) : Prop :=
  ∀ more t, Heeds step (InOrder id) s more → run step s more = some t → t.Reported id

theorem Sound.assured (h : s.Sound id) : s.Assured id := by
  intro more t hHeeds hRun
  have hSound := Heeds.throughout (fun hOld hStep hOrder => hOld.step hStep hOrder) h hHeeds
  exact (hSound.last hRun).reported

theorem Assured.step {e : SessionEvent} (h : s.Assured id) (hStep : s.step e = some s')
    (hOrder : s.InOrder id e) : s'.Assured id := by
  intro more t hHeeds hRun
  apply h (e :: more) t
  · intro u hu
    cases hStep.symm.trans hu
    exact ⟨hOrder, hHeeds⟩
  · exact run_cons_eq_some.mpr ⟨s', hStep, hRun⟩

/-- Once the event loop is empty, an assured response has been told what it should be. -/
theorem Assured.reports (h : s.Assured id) (hSome : (s.streams id).isSome = true) :
    (s.reports id).length ≤ 1 ∧ (.cleared ∈ s.reports id → s.endWritten id = true) ∧
      (s.connected = false → (s.reports id).length = 1) := by
  obtain ⟨t, hRun, hNil, hConnected, hThere, hWritten, hReceived⟩ := run_drain s id hSome
  have hReported := h s.drain t (heeds_drain id _ s) hRun
  rw [← hReceived, ← hWritten]
  refine ⟨hReported.once, hReported.written, fun hLost => ?_⟩
  exact hReported.reported ⟨hConnected.trans hLost, hNil⟩ hThere

/-- A response that nothing will report is not assured, once its stream is destroyed. -/
theorem not_assured_of_silent {t : Served} (ht : s.streams id = some t) (hGone : t.destroyed = true)
    (hConnected : s.connected = true) (hNone : (s.reports id).length + s.held id = 0) :
    ¬ s.Assured id := by
  have hIdle : ∀ {m : Session}, m.streams id = some t → m.connected = true → m.writing = none →
      (m.reports id).length + m.held id = 0 → ¬ m.Assured id := by
    intro m hm hThere hWriting hSilent hAssured
    rw [held_of_idle hWriting] at hSilent
    have hStep : m.step .connectorNulled = some m.onConnectorNulled := by
      simp [Session.step, hThere, hWriting]
    have hOrder : m.InOrder id .connectorNulled := by
      intro u hu hKept
      cases hm.symm.trans hu
      cases hGone.symm.trans hKept
    have hSome : (m.onConnectorNulled.streams id).isSome = true := by
      simp [Session.onConnectorNulled, hm]
    have hOne := ((hAssured.step hStep hOrder).reports hSome).2.2 rfl
    rw [length_reports_onConnectorNulled, lossReports, hm] at hOne
    simp only [Option.elim_some, hGone, if_true] at hOne
    omega
  intro hAssured
  cases hWriting : s.writing with
  | none => exact hIdle ht hConnected hWriting hNone hAssured
  | some w =>
      rw [held, hWriting] at hNone
      simp only [Option.elim_some] at hNone
      have hStep : s.step (.wrote .canceled) = some (s.wrote w .canceled) := by
        simp [Session.step, hWriting]
      have hCount : w.feedbacks.count id = 0 := by omega
      have hReports : (s.wrote w .canceled).reports id = s.reports id := by
        rw [Session.wrote, reports_post, hCount]
        exact List.append_nil _
      have hNext : (s.wrote w .canceled).Assured id := hAssured.step hStep trivial
      apply hIdle (m := s.wrote w .canceled) ht hConnected rfl _ hNext
      rw [hReports, held_of_idle rfl]
      show (s.reports id).length + s.pending.count id = 0
      omega

theorem doWrite_of_finishes {a : Answer} (h : s.Finishes a) :
    s.doWrite a = { s with queue := [], pending := [], stopped := true }.post s.pending .cleared := by
  obtain ⟨hConnected, hWriting, hStopped, hReady, hDone⟩ := h
  simp [doWrite, connectorDoWrite, onWrite, memSend, hConnected, hWriting, hStopped, hReady, hDone]

/-- A response with a report, made or to come, has been handed out. -/
theorem Sound.handedOut (h : s.Sound id) (hConnected : s.connected = true)
    (hSome : 0 < (s.reports id).length + s.held id) : (s.streams id).isSome = true := by
  rw [h.connected hConnected] at hSome
  cases hStream : s.streams id with
  | some t => rfl
  | none =>
      rw [ended, hStream] at hSome
      cases hSome

/-- An event that comes out of order leaves the response without assurance. -/
theorem Sound.inOrder {e : SessionEvent} (h : s.Sound id) (hStep : s.step e = some s')
    (hAssured : s'.Assured id) : s.InOrder id e := by
  cases e with
  | createStream | respond | read | streamClose | stop | runPosted => trivial
  | onEom i =>
      intro hi hConnected t ht
      subst hi
      simp only [Session.step, ht, Option.bind_some] at hStep
      split at hStep
      case isTrue => cases hStep
      case isFalse hEof =>
        cases hStep
        apply Bool.eq_false_iff.mpr
        intro hClosed
        apply not_assured_of_silent (s := s.onEom i t) (t := t.onEom) _ _ _ _ hAssured
        · rw [onEom_eq]
          exact set_same s i _
        · have hDestroys := (Stream.onEom_flags t.stream).2.2
          simp [Served.onEom, hDestroys, hClosed]
        · rw [onEom_eq]
          exact hConnected
        · have hTotal := h.connected hConnected
          have hEnded : s.ended i = false := by
            rw [ended, ht]
            exact Bool.eq_false_iff.mpr hEof
          have hHeld : (s.onEom i t).held i = s.held i := by
            rw [onEom_eq, hClosed]
            rfl
          rw [hEnded] at hTotal
          rw [reports_onEom ht, hHeld]
          exact hTotal
  | doWrite a =>
      intro hFinishes hMem
      simp only [Session.step] at hStep
      split at hStep
      case isFalse => cases hStep
      case isTrue =>
        cases hStep
        have hPos := List.count_pos_iff.mpr hMem
        have hHanded := h.handedOut hFinishes.1 (by rw [held]; omega)
        have hUnwritten : s.endWritten id = false :=
          Bool.eq_false_iff.mpr fun hYes => h.early (.inr hMem) (.inr (.inr hYes))
        rw [doWrite_of_finishes hFinishes] at hAssured
        have hCleared := (hAssured.reports hHanded).2.1
        rw [reports_post] at hCleared
        have hYes : s.endWritten id = true :=
          hCleared (List.mem_append_right _ (List.mem_replicate.mpr ⟨by omega, rfl⟩))
        cases hUnwritten.symm.trans hYes
  | wrote result =>
      cases result with
      | failed | canceled => trivial
      | ok =>
          intro w hw hMem
          simp only [Session.step, hw, Option.map_some] at hStep
          cases hStep
          have hConnected : s.connected = true := by
            cases hThere : s.connected with
            | true => rfl
            | false => cases hw.symm.trans (h.lost hThere).1
          have hPos := List.count_pos_iff.mpr hMem
          have hHanded := h.handedOut hConnected (by rw [held, hw]; simp only [Option.elim_some]; omega)
          have hHanded' : ((s.wrote w .ok).streams id).isSome = true := by
            rw [← hHanded]
            exact Option.isSome_map
          have hCleared := (hAssured.reports hHanded').2.1
          rw [Session.wrote, reports_post] at hCleared
          have hYes : (Session.land { s with writing := none } w.frames).endWritten id = true :=
            hCleared (List.mem_append_right _ (List.mem_replicate.mpr ⟨by omega, rfl⟩))
          have hBefore : (Session.mk s.streams s.queue s.pending none s.stopped s.posted
              s.connected).endWritten id = false := h.flying w hw hMem
          rw [endWritten_land, hBefore, Bool.false_or] at hYes
          simpa using (Bool.and_eq_true_iff.mp hYes).2
  | connectorNulled =>
      intro t ht hKept
      simp only [Session.step] at hStep
      split at hStep
      case isFalse => cases hStep
      case isTrue hBoth =>
        obtain ⟨hConnected, hIdle⟩ := Bool.and_eq_true_iff.mp hBoth
        cases hStep
        have hTotal := h.connected hConnected
        rw [held_of_idle (Option.isNone_iff_eq_none.mp hIdle), ended, ht] at hTotal
        have hSome : (s.onConnectorNulled.streams id).isSome = true := by
          simp [Session.onConnectorNulled, ht]
        have hOne := (hAssured.reports hSome).1
        rw [length_reports_onConnectorNulled, lossReports, ht] at hOne
        simp only [Option.elim_some, hKept, Bool.false_eq_true, if_false] at hOne
        apply Bool.eq_false_iff.mpr
        intro hEof
        simp only [Option.any_some, hEof, if_true] at hTotal
        omega

/-- In every state of a run, and in whatever follows it in order, a response is told one thing
of its end, and the right one, if and only if the events of the run come in order for it. -/
theorem response_told_once_iff (id : Nat) (events : List SessionEvent) :
    Throughout step (fun s => s.Reported id ∧ s.Assured id) init events ↔
      Heeds step (InOrder id) init events := by
  have hKeeps : ∀ {s e s'}, Sound id s → s.Reported id ∧ s.Assured id → step s e = some s' →
      s'.Reported id ∧ s'.Assured id → Sound id s' := by
    intro s e s' hSound _ hStep hNow
    exact hSound.step hStep (hSound.inOrder hStep hNow.2)
  apply throughout_iff_heeds hKeeps
  · intro s e s' hSound _ hStep
    constructor
    · intro hNow
      exact hSound.inOrder hStep hNow.2
    · intro hOrder
      have hNext := hSound.step hStep hOrder
      exact ⟨hNext.reported, hNext.assured⟩
  · exact sound_init id
  · exact ⟨(sound_init id).reported, (sound_init id).assured⟩

/-- The write of the END_STREAM frame fails, while the request goes on: the response is told of
the failed write, and then of the loss of the connector. -/
theorem response_told_twice :
    ¬ ∀ (id : Nat) (events : List SessionEvent), Throughout step (Reported id) init events := by
  intro hAll
  have hRun : (run step init [.createStream 1, .respond 1 (.header 200), .doWrite ⟨[.part 1], 0, false⟩,
      .wrote .ok, .onEom 1, .doWrite ⟨[.endStream 1], 0, false⟩, .wrote .failed, .runPosted,
      .connectorNulled]).map (·.received 1) = some [.error, .error] := rfl
  obtain ⟨s, hLast, hReceived⟩ := Option.map_eq_some_iff.mp hRun
  have hOnce := ((hAll 1 _).last hLast).once
  rw [hReceived] at hOnce
  exact absurd hOnce (by decide)

end Session

end Doormat.Http2
