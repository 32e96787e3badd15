import Doormat.Library.Runs
import Doormat.Http2.StreamClient

/-! The life of a client stream. The application ends the request, the library closes the
stream, and the connector reports writes and its own loss through the session; the reports
come back to the stream as closures posted on the event loop. The stream frees itself. -/
namespace Doormat.Http2

open Runs

/-- The member functions of a stream through which its life ends. -/
inductive MemberCall
  | onEom
  | die
deriving DecidableEq

/-- What waits on the event loop: the report of a write, or the `on_error` hook. -/
inductive Posted
  | cleared
  | error
  | hook
deriving DecidableEq

/-- A stream in its session. `pending` counts the feedback callbacks of the stream that the
session holds, `writing` those of a write in flight. `destroyed` counts the runs of the
destructor, `misused` records a call after one, and `calls` is the history of the stream. -/
structure Lifecycle where
  stream : StreamClient
  destroyed : Nat
  misused : Bool
  pending : Nat
  writing : Option Nat
  posted : List Posted
  connected : Bool
  calls : List MemberCall

/-- What happens around a stream. -/
inductive LifeEvent
  | onEom
  | streamClose
  | write
  | wrote (ok : Bool)
  | stopWriting
  | connectorNulled
  | runPosted
deriving DecidableEq

namespace Lifecycle

def init : Lifecycle where
  stream := .init 200
  destroyed := 0
  misused := false
  pending := 0
  writing := none
  posted := []
  connected := true
  calls := []

/-- How often a call runs the destructor. -/
def destructions : Option ClientEffect → Nat
  | some .destroy => 1
  | _ => 0

/-- Call a member function of the stream, freed or not. -/
def call (l : Lifecycle) (c : MemberCall) (f : StreamClient → StreamClient × Option ClientEffect) :
    Lifecycle :=
  { l with
    stream := (f l.stream).1
    destroyed := l.destroyed + destructions (f l.stream).2
    misused := l.misused || l.destroyed ≠ 0
    calls := l.calls ++ [c] }

/-- `die`, from `on_stream_close_callback` or from the hook. -/
def die (l : Lifecycle) : Lifecycle := l.call .die StreamClient.die

/-- `on_eom`. On a stream that is not closed it leaves a feedback callback with the session. -/
def onEom (l : Lifecycle) : Lifecycle :=
  let l := if l.stream.closed then l else { l with pending := l.pending + 1 }
  l.call .onEom StreamClient.onEom

/-- `on_connector_nulled`: the pending error callbacks post the hook, and `notify_error` does it
once more for a stream that is still subscribed. -/
def onConnectorNulled (l : Lifecycle) : Lifecycle :=
  { l with
    connected := false
    posted := l.posted ++ List.replicate l.pending .hook ++
      if l.destroyed = 0 then [.hook] else [] }

/-- The next closure of the event loop. An error posts the hook in its turn. -/
def runPosted (l : Lifecycle) : Option Lifecycle :=
  match l.posted with
  | [] => none
  | .cleared :: rest => some { l with posted := rest }
  | .error :: rest => some { l with posted := rest ++ [.hook] }
  | .hook :: rest => some { l with posted := rest }.die

/-- A step. There is none where the connector is not there for it, and none after a misuse. A
write in flight keeps the connector. -/
def step (l : Lifecycle) (e : LifeEvent) : Option Lifecycle :=
  if l.misused then none
  else
    match e with
    | .onEom => some l.onEom
    | .streamClose => some l.die
    | .write =>
        if l.connected && l.writing.isNone then
          some { l with writing := some l.pending, pending := 0 }
        else none
    | .wrote ok =>
        l.writing.map fun count =>
          { l with
            writing := none
            posted := l.posted ++ List.replicate count (if ok then .cleared else .error) }
    | .stopWriting =>
        if l.connected && l.writing.isNone then
          some { l with pending := 0, posted := l.posted ++ List.replicate l.pending .cleared }
        else none
    | .connectorNulled =>
        if l.connected && l.writing.isNone then some l.onConnectorNulled else none
    | .runPosted => l.runPosted

/-- The destructor has run at most once, and nothing was called after it. -/
def Safe (l : Lifecycle) : Prop := l.destroyed ≤ 1 ∧ l.misused = false

/-- Does the event call `on_eom` or `die`? -/
def reaches (l : Lifecycle) : LifeEvent → Bool
  | .onEom | .streamClose => true
  | .runPosted => l.posted.head? = some .hook
  | _ => false

/-- `on_eom` and `die` have both been called. -/
def Over (l : Lifecycle) : Prop := .onEom ∈ l.calls ∧ .die ∈ l.calls

/-- The event comes in time: it does not reach a stream that has had both an `on_eom` and
a `die`. -/
def InTime (l : Lifecycle) (e : LifeEvent) : Prop := l.reaches e = true → ¬ l.Over

/-- The flags of a stream tell its history, and it is destroyed when both calls have come. -/
structure Consistent (l : Lifecycle) : Prop where
  eof : l.stream.eof = true ↔ .onEom ∈ l.calls
  closed : l.destroyed = 0 → (l.stream.closed = true ↔ .die ∈ l.calls)
  errored : l.stream.errored = false
  destroyed : l.destroyed ≠ 0 ↔ l.Over

end Lifecycle

section Calls

variable {s : StreamClient}

/-- Flushing touches none of the flags of the stream's end, and does not destroy it. -/
theorem flush_keeps (s : StreamClient) :
    s.flush.1.eof = s.eof ∧ s.flush.1.closed = s.closed ∧ s.flush.1.errored = s.errored ∧
      Lifecycle.destructions s.flush.2 = 0 := by
  rw [StreamClient.flush]
  split
  · exact ⟨rfl, rfl, rfl, rfl⟩
  · split
    · split
      · exact ⟨rfl, rfl, rfl, rfl⟩
      · split
        · exact ⟨rfl, rfl, rfl, rfl⟩
        · split <;> exact ⟨rfl, rfl, rfl, rfl⟩
    · exact ⟨rfl, rfl, rfl, rfl⟩

theorem die_spec (h : s.errored = false) :
    s.die.1.eof = s.eof ∧ s.die.1.errored = false ∧ (s.eof = false → s.die.1.closed = true) ∧
      Lifecycle.destructions s.die.2 = if s.eof then 1 else 0 := by
  cases hEof : s.eof <;> simp [StreamClient.die, hEof, h, Lifecycle.destructions]

theorem onEom_spec (s : StreamClient) :
    s.onEom.1.eof = true ∧ s.onEom.1.errored = s.errored ∧ s.onEom.1.closed = s.closed ∧
      Lifecycle.destructions s.onEom.2 = if s.closed then 1 else 0 := by
  cases hClosed : s.closed with
  | true => simp [StreamClient.onEom, StreamClient.die, hClosed, Lifecycle.destructions]
  | false =>
      have hEom : s.onEom = { s with eof := true }.flush := by simp [StreamClient.onEom, hClosed]
      obtain ⟨hEof, hClosed', hErrored, hNone⟩ := flush_keeps { s with eof := true }
      rw [hEom]
      exact ⟨hEof, hErrored, hClosed'.trans hClosed, hNone⟩

end Calls

namespace Lifecycle

variable {l l' : Lifecycle}

theorem Consistent.not_over (h : l.Consistent) (hAlive : l.destroyed = 0) : ¬ l.Over :=
  fun hOver => h.destroyed.mpr hOver hAlive

/-- `die` on a stream that is there. -/
theorem call_die_spec (h : l.Consistent) (hAlive : l.destroyed = 0) :
    (l.call .die StreamClient.die).Consistent ∧ (l.call .die StreamClient.die).destroyed ≤ 1 := by
  obtain ⟨hEof, hErrored, hClosed, hFreed⟩ := die_spec h.errored
  cases hEnded : l.stream.eof with
  | true =>
      have hEom : MemberCall.onEom ∈ l.calls := h.eof.mp hEnded
      simp only [hEnded, if_true] at hEof hFreed
      refine ⟨⟨?_, ?_, hErrored, ?_⟩, ?_⟩
      · simp [call, hEof, hEom]
      · simp [call, hFreed]
      · simp [call, Over, hFreed, hEom]
      · simp [call, hFreed, hAlive]
  | false =>
      have hEom : MemberCall.onEom ∉ l.calls := fun hMem => by simp [h.eof.mpr hMem] at hEnded
      simp only [hEnded, Bool.false_eq_true, if_false] at hEof hFreed
      refine ⟨⟨?_, ?_, hErrored, ?_⟩, ?_⟩
      · simp [call, hEof, hEom]
      · intro _
        simp [call, hClosed hEnded]
      · simp [call, Over, hFreed, hEom, hAlive]
      · simp [call, hFreed, hAlive]

/-- `on_eom` on a stream that is there. -/
theorem call_onEom_spec (h : l.Consistent) (hAlive : l.destroyed = 0) :
    (l.call .onEom StreamClient.onEom).Consistent ∧
      (l.call .onEom StreamClient.onEom).destroyed ≤ 1 := by
  obtain ⟨hEof, hErrored, hClosed, hFreed⟩ := onEom_spec l.stream
  have hDie := h.closed hAlive
  have hErrored' := hErrored.trans h.errored
  cases hEnded : l.stream.closed with
  | true =>
      have hMem : MemberCall.die ∈ l.calls := hDie.mp hEnded
      simp only [hEnded, if_true] at hFreed
      refine ⟨⟨?_, ?_, hErrored', ?_⟩, ?_⟩
      · simp [call, hEof]
      · simp [call, hFreed]
      · simp [call, Over, hFreed, hMem]
      · simp [call, hFreed, hAlive]
  | false =>
      have hMem : MemberCall.die ∉ l.calls := fun hMem => by simp [hDie.mpr hMem] at hEnded
      simp only [hEnded, Bool.false_eq_true, if_false] at hFreed hClosed
      refine ⟨⟨?_, ?_, hErrored', ?_⟩, ?_⟩
      · simp [call, hEof]
      · intro _
        simp [call, hClosed, hMem]
      · simp [call, Over, hFreed, hMem, hAlive]
      · simp [call, hFreed, hAlive]

/-- A call that comes after the destructor is a misuse. -/
theorem call_of_destroyed {c : MemberCall}
    {f : StreamClient → StreamClient × Option ClientEffect} (h : l.destroyed ≠ 0) :
    ¬ (l.call c f).Safe := by
  intro hSafe
  have hMisused : (l.misused || decide (l.destroyed ≠ 0)) = false := hSafe.2
  simp [h] at hMisused

/-- Two states that differ in what the session and the event loop hold. -/
structure SameStream (l l' : Lifecycle) : Prop where
  stream : l'.stream = l.stream
  destroyed : l'.destroyed = l.destroyed
  calls : l'.calls = l.calls
  misused : l'.misused = l.misused

theorem SameStream.over (h : l.SameStream l') : l'.Over ↔ l.Over := by rw [Over, Over, h.calls]

theorem SameStream.safe (h : l.SameStream l') (hSafe : l.Safe) : l'.Safe :=
  ⟨by rw [h.destroyed]; exact hSafe.1, by rw [h.misused]; exact hSafe.2⟩

theorem SameStream.consistent (h : l.SameStream l') (hOld : l.Consistent) : l'.Consistent := by
  constructor
  · rw [h.stream, h.calls]
    exact hOld.eof
  · rw [h.stream, h.calls, h.destroyed]
    exact hOld.closed
  · rw [h.stream]
    exact hOld.errored
  · rw [h.destroyed, h.over]
    exact hOld.destroyed

/-- A step calls nothing, or it makes one of the two calls. -/
inductive Moves (l : Lifecycle) (e : LifeEvent) (l' : Lifecycle) : Prop
  | quiet (hReaches : l.reaches e = false) (hSame : l.SameStream l')
  | onEom (m : Lifecycle) (hReaches : l.reaches e = true) (hSame : l.SameStream m)
      (hEq : l' = m.call .onEom StreamClient.onEom)
  | die (m : Lifecycle) (hReaches : l.reaches e = true) (hSame : l.SameStream m)
      (hEq : l' = m.call .die StreamClient.die)

theorem step_moves {e : LifeEvent} (h : l.step e = some l') : l.Moves e l' := by
  unfold step at h
  split at h
  · cases h
  · cases e with
    | onEom =>
        cases h
        refine .onEom (if l.stream.closed then l else { l with pending := l.pending + 1 }) rfl ?_ rfl
        split <;> exact ⟨rfl, rfl, rfl, rfl⟩
    | streamClose =>
        cases h
        exact .die l rfl ⟨rfl, rfl, rfl, rfl⟩ rfl
    | write =>
        simp only at h
        split at h
        · cases h
          exact .quiet rfl ⟨rfl, rfl, rfl, rfl⟩
        · cases h
    | wrote ok =>
        obtain ⟨count, -, hEq⟩ := Option.map_eq_some_iff.mp h
        cases hEq
        exact .quiet rfl ⟨rfl, rfl, rfl, rfl⟩
    | stopWriting =>
        simp only at h
        split at h
        · cases h
          exact .quiet rfl ⟨rfl, rfl, rfl, rfl⟩
        · cases h
    | connectorNulled =>
        simp only at h
        split at h
        · cases h
          exact .quiet rfl ⟨rfl, rfl, rfl, rfl⟩
        · cases h
    | runPosted =>
        have hRun : l.runPosted = some l' := h
        rw [runPosted] at hRun
        split at hRun
        · cases hRun
        · rename_i rest hPosted
          cases hRun
          exact .quiet (by simp [reaches, hPosted]) ⟨rfl, rfl, rfl, rfl⟩
        · rename_i rest hPosted
          cases hRun
          exact .quiet (by simp [reaches, hPosted]) ⟨rfl, rfl, rfl, rfl⟩
        · rename_i rest hPosted
          cases hRun
          exact .die { l with posted := rest } (by simp [reaches, hPosted]) ⟨rfl, rfl, rfl, rfl⟩ rfl

/-- A call from a safe state leads to a safe state if and only if the stream is not over. -/
theorem safe_call_iff {c : MemberCall} {f : StreamClient → StreamClient × Option ClientEffect}
    (h : l.Consistent) (hSafe : l.Safe)
    (hSpec : l.destroyed = 0 → (l.call c f).Consistent ∧ (l.call c f).destroyed ≤ 1) :
    ((l.call c f).Safe → (l.call c f).Consistent) ∧ ((l.call c f).Safe ↔ ¬ l.Over) := by
  by_cases hAlive : l.destroyed = 0
  · have hNew := hSpec hAlive
    have hMisused : (l.call c f).misused = false := by simp [call, hSafe.2, hAlive]
    exact ⟨fun _ => hNew.1, iff_of_true ⟨hNew.2, hMisused⟩ (h.not_over hAlive)⟩
  · have hNot : ¬ (l.call c f).Safe := call_of_destroyed hAlive
    exact ⟨fun hNew => absurd hNew hNot,
      iff_of_false hNot (fun hNotOver => hNotOver (h.destroyed.mp hAlive))⟩

/-- A step from a safe state leads to a safe state if and only if it comes in time. -/
theorem step_spec {e : LifeEvent} (h : l.Consistent) (hSafe : l.Safe) (hStep : l.step e = some l') :
    (l'.Safe → l'.Consistent) ∧ (l'.Safe ↔ l.InTime e) := by
  cases step_moves hStep with
  | quiet hReaches hSame =>
      exact ⟨fun _ => hSame.consistent h,
        iff_of_true (hSame.safe hSafe) (by simp [InTime, hReaches])⟩
  | onEom m hReaches hSame hEq =>
      have hm := hSame.consistent h
      have hCall := safe_call_iff hm (hSame.safe hSafe) (call_onEom_spec hm)
      rw [hEq, hCall.2, hSame.over]
      exact ⟨fun hNot => hCall.1 (hCall.2.mpr (fun hOver => hNot (hSame.over.mp hOver))),
        by simp [InTime, hReaches]⟩
  | die m hReaches hSame hEq =>
      have hm := hSame.consistent h
      have hCall := safe_call_iff hm (hSame.safe hSafe) (call_die_spec hm)
      rw [hEq, hCall.2, hSame.over]
      exact ⟨fun hNot => hCall.1 (hCall.2.mpr (fun hOver => hNot (hSame.over.mp hOver))),
        by simp [InTime, hReaches]⟩

theorem consistent_init : init.Consistent :=
  ⟨by simp [init, StreamClient.init], by simp [init, StreamClient.init], rfl, by simp [init, Over]⟩

/-- A stream frees itself once and is left alone after that if and only if whatever reaches it
comes in time. -/
theorem freed_once_iff (events : List LifeEvent) :
    Throughout step Safe init events ↔ Heeds step InTime init events := by
  have hKeeps : ∀ {l e l'}, Consistent l → Safe l → step l e = some l' → Safe l' →
      Consistent l' := by
    intro l e l' h hSafe hStep
    exact (step_spec h hSafe hStep).1
  apply throughout_iff_heeds hKeeps
  · intro l e l' h hSafe hStep
    exact (step_spec h hSafe hStep).2
  · exact consistent_init
  · exact ⟨by decide, rfl⟩

/-- The connector is lost while the feedback of the request is pending: the pending callback
and `notify_error` both post the hook, and the second one finds the stream freed. -/
theorem loss_reported_twice :
    ¬ ∀ events : List LifeEvent, Throughout step Safe init events := by
  intro hAll
  have hRun : (run step init [.write, .onEom, .wrote false, .connectorNulled, .runPosted,
      .runPosted]).map (·.misused) = some true := rfl
  obtain ⟨l, hLast, hMisused⟩ := Option.map_eq_some_iff.mp hRun
  have hSafe := (hAll _).last hLast
  exact absurd (hSafe.2.symm.trans hMisused) (by decide)

end Lifecycle

end Doormat.Http2
