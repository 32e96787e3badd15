import Doormat.Library.Runs
import Doormat.Protocol.Handler

/-! The terminal events of `http::request` and of `client_response`, from the call of `finished` or
`error` to the callback that the `io_service` invokes later. -/
namespace Doormat.Protocol

open Runs

/-- A call that ends a message, and the callback that tells it. -/
inductive Terminal
  | finished
  | error (e : ErrorCode)
deriving DecidableEq

/-- Which callback a posted closure invokes. An error is looked up when it is invoked. -/
inductive Closure
  | finishedCallback
  | errorCallback
deriving DecidableEq

/-- An object whose finished and error callbacks are registered: its flag (`response_ended` or
`request_terminated`), its error, and the closures that it has posted. `running` tells that a
closure has invoked its callback, which has not returned. `first` and `invoked` record the call
made first and the callbacks invoked; nothing reads them. -/
structure Subscribed where
  ended : Bool := false
  connError : ErrorCode := .success
  io : List Closure := []
  running : Bool := false
  first : Option Terminal := none
  invoked : List Terminal := []

/-- A call, the `io_service` taking up the next closure, and the callback of that closure returning.
A call may come from within a callback. -/
inductive TerminalEvent
  | call (terminal : Terminal)
  | run
  | returned

namespace Subscribed

def told (s : Subscribed) : Closure → Terminal
  | .finishedCallback => .finished
  | .errorCallback => .error s.connError

def post (s : Subscribed) (closure : Closure) : Subscribed := { s with io := s.io ++ [closure] }

def note (s : Subscribed) (terminal : Terminal) : Subscribed :=
  { s with first := s.first.or (some terminal) }

/-- The next closure invokes its callback. -/
def run (s : Subscribed) : Option Subscribed :=
  match s.running, s.io with
  | false, closure :: rest =>
      some { s with io := rest, running := true, invoked := s.invoked ++ [s.told closure] }
  | _, _ => none

/-- At most one callback has been invoked, and that for the call made first. -/
def Once (s : Subscribed) : Prop := s.invoked <+: s.first.toList

end Subscribed

namespace Request

def finished (s : Subscribed) : Subscribed :=
  if s.ended then s else { s.post .finishedCallback with ended := true }

def error (s : Subscribed) (e : ErrorCode) : Subscribed :=
  if s.ended then s else { { s with connError := e }.post .errorCallback with ended := true }

def raise (s : Subscribed) : Terminal → Subscribed
  | .finished => finished (s.note .finished)
  | .error e => error (s.note (.error e)) e

def step (s : Subscribed) : TerminalEvent → Option Subscribed
  | .call terminal => some (raise s terminal)
  | .run => s.run
  | .returned => if s.running then some { s with running := false } else none

end Request

namespace ClientResponse

def finished (s : Subscribed) : Subscribed :=
  if s.ended then s else s.post .finishedCallback

def error (s : Subscribed) (e : ErrorCode) : Subscribed :=
  if s.ended then s else { s with connError := e }.post .errorCallback

def raise (s : Subscribed) : Terminal → Subscribed
  | .finished => finished (s.note .finished)
  | .error e => error (s.note (.error e)) e

/-- The closure sets the flag behind its callback. -/
def step (s : Subscribed) : TerminalEvent → Option Subscribed
  | .call terminal => some (raise s terminal)
  | .run => s.run
  | .returned => if s.running then some { s with running := false, ended := true } else none

end ClientResponse

namespace Subscribed

/-- What has been invoked or is posted tells the call made first, and nothing else. -/
def Accounted (s : Subscribed) : Prop := s.invoked ++ s.io.map s.told = s.first.toList

theorem Accounted.once {s : Subscribed} (h : s.Accounted) : s.Once := ⟨_, h⟩

theorem run_eq_some {s t : Subscribed} (h : s.run = some t) :
    ∃ closure rest, s.running = false ∧ s.io = closure :: rest ∧
      t = { s with io := rest, running := true, invoked := s.invoked ++ [s.told closure] } := by
  unfold run at h
  split at h
  · next hRunning hIo => exact ⟨_, _, hRunning, hIo, (Option.some.inj h).symm⟩
  · cases h

theorem Accounted.run {s t : Subscribed} (h : s.Accounted) (hRun : s.run = some t) :
    t.Accounted := by
  obtain ⟨closure, rest, -, hIo, rfl⟩ := run_eq_some hRun
  unfold Accounted at h ⊢
  rw [hIo, List.map_cons, List.append_cons] at h
  exact h

theorem note_of_some {s : Subscribed} {call : Terminal} (h : s.first = some call)
    (terminal : Terminal) : s.note terminal = s := by
  cases s
  cases h
  rfl

/-- The closure for a call. -/
def closureOf : Terminal → Closure
  | .finished => .finishedCallback
  | .error _ => .errorCallback

/-- The error that is there when a call is made and not refused. -/
def errorOf (s : Subscribed) : Terminal → ErrorCode
  | .finished => s.connError
  | .error e => e

theorem Accounted.nothing {s : Subscribed} (h : s.Accounted) (hFirst : s.first = none) :
    s.invoked = [] ∧ s.io = [] := by
  rw [Accounted, hFirst] at h
  simpa using h

end Subscribed

open Subscribed

namespace Request

theorem raise_of_ended {s : Subscribed} (h : s.ended = true) (terminal : Terminal) :
    raise s terminal = s.note terminal := by
  cases terminal <;> simp [raise, finished, error, note, h]

theorem raise_of_open {s : Subscribed} (h : s.ended = false) (terminal : Terminal) :
    raise s terminal =
      { s.note terminal with
        ended := true
        connError := s.errorOf terminal
        io := s.io ++ [closureOf terminal] } := by
  cases terminal <;> simp [raise, finished, error, note, post, errorOf, closureOf, h]

/-- The flag is set as soon as there has been a call. -/
structure Guarded (s : Subscribed) : Prop where
  accounted : s.Accounted
  ended_eq : s.ended = s.first.isSome

theorem Guarded.raise {s : Subscribed} (h : Guarded s) (terminal : Terminal) :
    Guarded (raise s terminal) := by
  obtain ⟨hAccounted, hEnded⟩ := h
  cases hFirst : s.first with
  | none =>
      obtain ⟨hInvoked, hIo⟩ := hAccounted.nothing hFirst
      rw [raise_of_open (by rw [hEnded, hFirst]; rfl)]
      constructor
      · cases terminal <;> simp [Accounted, note, told, closureOf, errorOf, hFirst, hInvoked, hIo]
      · simp [note]
  | some call =>
      have hSame := note_of_some hFirst terminal
      rw [raise_of_ended (by rw [hEnded, hFirst]; rfl), hSame]
      exact ⟨hAccounted, hEnded⟩

theorem Guarded.step {s t : Subscribed} {event : TerminalEvent} (h : Guarded s)
    (hStep : step s event = some t) : Guarded t := by
  cases event with
  | call terminal =>
      cases hStep
      exact h.raise terminal
  | run =>
      have hAccounted := h.accounted.run hStep
      obtain ⟨closure, rest, -, -, rfl⟩ := run_eq_some hStep
      exact ⟨hAccounted, h.ended_eq⟩
  | returned =>
      simp only [Request.step, Option.ite_none_right_eq_some, Option.some.injEq] at hStep
      obtain ⟨-, rfl⟩ := hStep
      exact ⟨h.accounted, h.ended_eq⟩

theorem guarded_init : Guarded {} := ⟨rfl, rfl⟩

end Request

namespace ClientResponse

theorem raise_of_ended {s : Subscribed} (h : s.ended = true) (terminal : Terminal) :
    raise s terminal = s.note terminal := by
  cases terminal <;> simp [raise, finished, error, note, h]

theorem raise_of_open {s : Subscribed} (h : s.ended = false) (terminal : Terminal) :
    raise s terminal =
      { s.note terminal with
        connError := s.errorOf terminal
        io := s.io ++ [closureOf terminal] } := by
  cases terminal <;> simp [raise, finished, error, note, post, errorOf, closureOf, h]

/-- A call is made while no closure of an earlier one is posted or has its callback running. -/
def InTurn (s : Subscribed) (event : TerminalEvent) : Prop :=
  ∀ terminal, event = .call terminal → s.io = [] ∧ s.running = false

/-- The flag is set once the callback has returned. -/
structure Guarded (s : Subscribed) : Prop where
  accounted : s.Accounted
  running : s.running = true → s.invoked ≠ []
  ended_iff : s.ended = true ↔ s.first.isSome = true ∧ s.io = [] ∧ s.running = false

theorem guarded_init : Guarded {} := by
  constructor
  · rfl
  · intro hNot
    cases hNot
  · simp

/-- At most one closure has been posted. -/
theorem Guarded.length_le {s : Subscribed} (h : Guarded s) :
    s.invoked.length + s.io.length ≤ 1 := by
  have hLength := congrArg List.length h.accounted
  rw [List.length_append, List.length_map] at hLength
  rw [hLength]
  cases s.first <;> simp

theorem Guarded.step {s t : Subscribed} {event : TerminalEvent} (h : Guarded s)
    (hStep : step s event = some t) (hTurn : InTurn s event) : Guarded t := by
  have hOne := h.length_le
  cases event with
  | call terminal =>
      obtain ⟨hIo, hRunning⟩ := hTurn terminal rfl
      cases hStep
      cases hFirst : s.first with
      | none =>
          have hInvoked := (h.accounted.nothing hFirst).1
          have hOpen : s.ended = false := by
            rw [← Bool.not_eq_true, h.ended_iff, hFirst]
            simp
          rw [raise_of_open hOpen]
          constructor
          · cases terminal <;>
              simp [Accounted, note, told, closureOf, errorOf, hFirst, hInvoked, hIo]
          · intro hNot
            simp [note, hRunning] at hNot
          · simp [note, hOpen]
      | some call =>
          have hEnded : s.ended = true := h.ended_iff.mpr ⟨by rw [hFirst]; rfl, hIo, hRunning⟩
          have hSame := note_of_some hFirst terminal
          rw [raise_of_ended hEnded, hSame]
          exact h
  | run =>
      have hAccounted := h.accounted.run hStep
      obtain ⟨closure, rest, hRunning, hIo, rfl⟩ := run_eq_some hStep
      have hOpen : s.ended = false := by
        rw [← Bool.not_eq_true, h.ended_iff, hIo]
        simp
      exact ⟨hAccounted, by simp, by simp [hOpen]⟩
  | returned =>
      simp only [ClientResponse.step, Option.ite_none_right_eq_some, Option.some.injEq] at hStep
      obtain ⟨hRunning, rfl⟩ := hStep
      have hInvoked := h.running hRunning
      have hSome := List.length_pos_of_ne_nil hInvoked
      have hIo : s.io = [] := List.length_eq_zero_iff.mp (by omega)
      have hFirst : s.first.isSome = true := by
        have hAccounted := h.accounted
        rw [Accounted, hIo] at hAccounted
        cases hNone : s.first with
        | none => simp [hNone, hInvoked] at hAccounted
        | some call => rfl
      exact ⟨h.accounted, by simp, by simp [hFirst, hIo]⟩

/-- What has been posted is never taken back. -/
theorem posted_le {s t : Subscribed} {event : TerminalEvent} (hStep : step s event = some t) :
    s.invoked.length + s.io.length ≤ t.invoked.length + t.io.length := by
  cases event with
  | call terminal =>
      cases hStep
      cases hEnded : s.ended with
      | true =>
          rw [raise_of_ended hEnded]
          exact Nat.le_refl _
      | false =>
          rw [raise_of_open hEnded]
          simp only [note, List.length_append, List.length_singleton]
          omega
  | run =>
      obtain ⟨closure, rest, -, hIo, rfl⟩ := run_eq_some hStep
      simp only [hIo, List.length_append, List.length_cons]
      omega
  | returned =>
      simp only [step, Option.ite_none_right_eq_some, Option.some.injEq] at hStep
      obtain ⟨-, rfl⟩ := hStep
      exact Nat.le_refl _

theorem posted_le_of_run {s t : Subscribed} {events : List TerminalEvent}
    (hRun : run step s events = some t) :
    s.invoked.length + s.io.length ≤ t.invoked.length + t.io.length := by
  induction events generalizing s with
  | nil =>
      cases hRun
      exact Nat.le_refl _
  | cons event events ih =>
      obtain ⟨u, hStep, hRest⟩ := run_cons_eq_some.mp hRun
      exact (posted_le hStep).trans (ih hRest)

/-- A call out of turn posts a second closure. -/
theorem Guarded.posted_twice {s t : Subscribed} {event : TerminalEvent} (h : Guarded s)
    (hStep : ClientResponse.step s event = some t) (hTurn : ¬ InTurn s event) :
    2 ≤ t.invoked.length + t.io.length := by
  simp only [InTurn, not_forall] at hTurn
  obtain ⟨terminal, rfl, hBusy⟩ := hTurn
  have hOpen : s.ended = false := by
    rw [← Bool.not_eq_true, h.ended_iff]
    intro hEnded
    exact hBusy hEnded.2
  have hPosted : 0 < s.invoked.length + s.io.length := by
    cases hRunning : s.running with
    | true =>
        have hInvoked := List.length_pos_of_ne_nil (h.running hRunning)
        omega
    | false =>
        have hIo : s.io ≠ [] := fun hNil => hBusy ⟨hNil, hRunning⟩
        have hSome := List.length_pos_of_ne_nil hIo
        omega
  cases hStep
  rw [raise_of_open hOpen]
  simp only [note, List.length_append, List.length_singleton]
  omega

theorem Guarded.heeds {s t : Subscribed} {events : List TerminalEvent} (h : Guarded s)
    (hRun : run ClientResponse.step s events = some t) (hDrained : t.io = []) (hOnce : t.Once) :
    Heeds ClientResponse.step InTurn s events := by
  induction events generalizing s with
  | nil => trivial
  | cons event events ih =>
      intro u hStep
      obtain ⟨v, hFirst, hRest⟩ := run_cons_eq_some.mp hRun
      cases hStep.symm.trans hFirst
      by_cases hTurn : InTurn s event
      · exact ⟨hTurn, ih (h.step hStep hTurn) hRest⟩
      · have hTwo := h.posted_twice hStep hTurn
        have hMore := posted_le_of_run hRest
        have hFew := List.IsPrefix.length_le hOnce
        have hOne : t.first.toList.length ≤ 1 := by cases t.first <;> simp
        rw [hDrained, List.length_nil] at hMore
        omega

theorem once_of_heeds {events : List TerminalEvent} (h : Heeds step InTurn {} events) :
    Throughout step Once {} events := by
  have hGuarded : Throughout step Guarded {} events :=
    h.throughout (fun hGuarded hStep hTurn => hGuarded.step hStep hTurn) guarded_init
  exact hGuarded.mono fun s hGuarded => hGuarded.accounted.once

end ClientResponse

/-- An `http::request` tells the first call, and no other, in every run; a `client_response` does
if no call is made while a closure of an earlier one is posted or has its callback running, and
where the `io_service` has run all closures it has done so only then. -/
theorem terminal_once_iff (events : List TerminalEvent) :
    Throughout Request.step Once {} events ∧
      (Heeds ClientResponse.step ClientResponse.InTurn {} events →
        Throughout ClientResponse.step Once {} events) ∧
      ∀ s, run ClientResponse.step {} events = some s → s.io = [] →
        (s.Once ↔ Heeds ClientResponse.step ClientResponse.InTurn {} events) := by
  refine ⟨?_, ClientResponse.once_of_heeds, ?_⟩
  · have hGuarded : Throughout Request.step Request.Guarded {} events :=
      throughout_of_step (fun hGuarded hStep => hGuarded.step hStep) Request.guarded_init events
    exact hGuarded.mono fun s hGuarded => hGuarded.accounted.once
  · intro s hRun hDrained
    constructor
    · intro hOnce
      exact ClientResponse.guarded_init.heeds hRun hDrained hOnce
    · intro hHeeds
      exact (ClientResponse.once_of_heeds hHeeds).last hRun

/-- A message that is finished and then fails before its callback has returned tells both. -/
theorem terminal_twice :
    ¬ ∀ events : List TerminalEvent, Throughout ClientResponse.step Once {} events := by
  intro hAll
  have hOnce : Once _ := (hAll [.call .finished, .call (.error .decoding), .run, .returned, .run]).last
    rfl
  revert hOnce
  unfold Once
  decide

end Doormat.Protocol
