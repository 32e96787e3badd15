import Doormat.Library.Runs

/-! `dns_connector_factory::get_connector`: a name is resolved, its endpoints are tried, and one
of two callbacks is to tell what came of it. Each stage starts an operation and a timer whose
completions reach the event loop in any order. The factory is alive throughout. -/
namespace Doormat.Network

open Runs

/-- A call of one of the two callbacks. -/
inductive Report
  | connectorCb
  | errorCb (code : Nat)
deriving DecidableEq

/-- The operation under way: the resolver, a connect of a plain socket with the endpoints that
are left, a connect of a TLS socket to any endpoint, or the handshake. -/
inductive Stage (ι : Type)
  | resolve
  | connect (rest : List ι)
  | connectAny
  | handshake

/-- How an operation completes. -/
inductive Completion (ι : Type)
  | resolved (endpoints : List ι)
  | success
  | failure
  | canceled

/-- An operation whose completion, once it is there, is queued. -/
structure Operation (ι : Type) where
  stage : Stage ι
  queued : Option (Completion ι)

/-- The completion of a timer waits for its deadline, is queued with success or as cancelled, or
has been delivered. -/
inductive TimerState
  | waiting
  | expired
  | canceled
  | delivered
deriving DecidableEq

structure Timer where
  ofResolver : Bool
  state : TimerState

structure Attempt (ι : Type) where
  tls : Bool
  stopping : Bool
  operation : Option (Operation ι)
  timers : List Timer
  reports : List Report

/-- What happens: `stop`, a deadline, the completion of the operation, and the delivery of one
or the other. -/
inductive AttemptEvent (ι : Type)
  | stop
  | expire (timer : Nat)
  | complete (completion : Completion ι)
  | deliverTimer (timer : Nat)
  | deliverOperation

namespace Attempt

variable {ι : Type}

def report (s : Attempt ι) (r : Report) : Attempt ι := { s with reports := s.reports ++ [r] }

/-- Start an operation together with its timer. -/
def start (s : Attempt ι) (stage : Stage ι) (ofResolver : Bool) : Attempt ι :=
  { s with operation := some ⟨stage, none⟩, timers := s.timers ++ [⟨ofResolver, .waiting⟩] }

/-- `cancel` on the timer of the last attempt. What is queued with success stays so. -/
def cancelTimer (s : Attempt ι) : Attempt ι :=
  { s with timers := s.timers.modify (s.timers.length - 1) fun t =>
      if t.state = .waiting then { t with state := .canceled } else t }

/-- `get_connector` and `dns_resolver`. -/
def getConnector (tls stopping : Bool) : Attempt ι :=
  let s : Attempt ι :=
    { tls := tls, stopping := stopping, operation := none, timers := [], reports := [] }
  if stopping then s.report (.errorCb 1) else s.start .resolve true

/-- `endpoint_connect`, plain or TLS. -/
def endpointConnect (s : Attempt ι) (endpoints : List ι) : Attempt ι :=
  match endpoints with
  | [] => s.report (.errorCb 3)
  | _ :: rest =>
      if s.stopping then s.report (.errorCb 3)
      else s.start (if s.tls then .connectAny else .connect rest) false

/-- The handler of the resolver. -/
def onResolved (s : Attempt ι) : Completion ι → Attempt ι
  | .resolved (endpoint :: rest) => s.cancelTimer.endpointConnect (endpoint :: rest)
  | _ => s.cancelTimer.report (.errorCb 3)

/-- The handler of a plain connect. -/
def onConnected (s : Attempt ι) (rest : List ι) : Completion ι → Attempt ι
  | .canceled => s.cancelTimer
  | .failure => s.cancelTimer.endpointConnect rest
  | _ => s.cancelTimer.report .connectorCb

/-- The handler of a TLS connect. It leaves the timer to the handshake, and to nobody where
there is none. After a failure the iterator that it is given is at the end. -/
def onConnectedAny (s : Attempt ι) : Completion ι → Attempt ι
  | .canceled => s
  | .failure => s.endpointConnect []
  | _ => { s with operation := some ⟨.handshake, none⟩ }

/-- The handler of the handshake. -/
def onHandshake (s : Attempt ι) : Completion ι → Attempt ι
  | .canceled => s.cancelTimer
  | .failure => s.cancelTimer.report (.errorCb 3)
  | _ => s.cancelTimer.report .connectorCb

def onCompleted (s : Attempt ι) : Stage ι → Completion ι → Attempt ι
  | .resolve, c => s.onResolved c
  | .connect rest, c => s.onConnected rest c
  | .connectAny, c => s.onConnectedAny c
  | .handshake, c => s.onHandshake c

/-- Is the operation one of the resolver? -/
def Operation.onResolver (op : Operation ι) : Bool :=
  match op.stage with
  | .resolve => true
  | _ => false

/-- `cancel` on the resolver or on the socket. An operation that has completed is not
cancelled. -/
def cancelOperation (s : Attempt ι) (ofResolver : Bool) : Attempt ι :=
  match s.operation with
  | some op =>
      if Operation.onResolver op = ofResolver ∧ op.queued.isNone then
        { s with operation := some { op with queued := some .canceled } }
      else s
  | none => s

/-- The handler of a timer that has expired. -/
def onTimer (s : Attempt ι) (ofResolver : Bool) : Attempt ι :=
  if ofResolver then s.cancelOperation true else (s.cancelOperation false).report (.errorCb 4)

/-- The completions that the operation itself may have. -/
def possible : Stage ι → Completion ι → Bool
  | .resolve, .resolved _ => true
  | .resolve, .failure => true
  | .resolve, _ => false
  | _, .success => true
  | _, .failure => true
  | _, _ => false

def step (s : Attempt ι) : AttemptEvent ι → Option (Attempt ι)
  | .stop => some { s with stopping := true }
  | .expire i =>
      match s.timers[i]? with
      | some ⟨ofResolver, .waiting⟩ =>
          some { s with timers := s.timers.set i ⟨ofResolver, .expired⟩ }
      | _ => none
  | .complete c =>
      match s.operation with
      | some ⟨stage, none⟩ =>
          if possible stage c then some { s with operation := some ⟨stage, some c⟩ } else none
      | _ => none
  | .deliverTimer i =>
      match s.timers[i]? with
      | some ⟨ofResolver, .expired⟩ =>
          some ({ s with timers := s.timers.set i ⟨ofResolver, .delivered⟩ }.onTimer ofResolver)
      | some ⟨ofResolver, .canceled⟩ =>
          some { s with timers := s.timers.set i ⟨ofResolver, .delivered⟩ }
      | _ => none
  | .deliverOperation =>
      match s.operation with
      | some ⟨stage, some c⟩ => some ({ s with operation := none }.onCompleted stage c)
      | _ => none

/-- Nothing is under way or queued. -/
def Quiescent (s : Attempt ι) : Prop :=
  s.operation.isNone ∧ ∀ t ∈ s.timers, t.state = .delivered

/-- A connect or a handshake is under way and has not completed. -/
def Connecting (s : Attempt ι) : Prop :=
  ∃ op, s.operation = some op ∧ op.queued = none ∧ Operation.onResolver op = false

/-- A timer of a connect is delivered with success only while what it guards is under way. -/
def InTime (s : Attempt ι) : AttemptEvent ι → Prop
  | .deliverTimer i => s.timers[i]? = some ⟨false, .expired⟩ → s.Connecting
  | _ => True

/-- Will the operation end in a report? One that was cancelled on its socket does not. -/
def Operation.reports (op : Operation ι) : Bool :=
  match op.stage, op.queued with
  | .resolve, _ => true
  | _, some .canceled => false
  | _, _ => true

/-- The reports that are made, with the one that the operation is going to end in. -/
def due (s : Attempt ι) : Nat :=
  s.reports.length + match s.operation with
    | some op => if Operation.reports op then 1 else 0
    | none => 0

variable {s t : Attempt ι}

@[simp] theorem due_report (r : Report) : (s.report r).due = s.due + 1 := by
  simp only [report, due, List.length_append, List.length_singleton]
  omega

@[simp] theorem due_cancelTimer : s.cancelTimer.due = s.due := rfl

@[simp] theorem due_timers (timers : List Timer) : { s with timers := timers }.due = s.due := rfl

@[simp] theorem operation_cancelTimer : s.cancelTimer.operation = s.operation := rfl

theorem due_of_idle (h : s.operation = none) : s.due = s.reports.length := by
  simp [due, h]

theorem due_start (h : s.operation = none) (stage : Stage ι) (ofResolver : Bool) :
    (s.start stage ofResolver).due = s.due + 1 := by
  rw [due_of_idle h]
  cases stage <;> rfl

/-- Whether endpoints are left or not, there is going to be one more report. -/
theorem due_endpointConnect (h : s.operation = none) (endpoints : List ι) :
    (s.endpointConnect endpoints).due = s.due + 1 := by
  cases endpoints with
  | nil => exact due_report _
  | cons endpoint rest =>
      rw [endpointConnect]
      split
      · exact due_report _
      · exact due_start h _ _

/-- A delivered operation hands over what it was going to end in. -/
theorem due_onCompleted (h : s.operation = none) (stage : Stage ι) (c : Completion ι) :
    (s.onCompleted stage c).due =
      s.due + if Operation.reports ⟨stage, some c⟩ then 1 else 0 := by
  have hCancel : s.cancelTimer.operation = none := h
  cases stage with
  | resolve =>
      cases c with
      | resolved endpoints =>
          cases endpoints with
          | nil => exact due_report _
          | cons endpoint rest => exact due_endpointConnect hCancel _
      | success => exact due_report _
      | failure => exact due_report _
      | canceled => exact due_report _
  | connect rest =>
      cases c with
      | resolved endpoints => exact due_report _
      | success => exact due_report _
      | failure => exact due_endpointConnect hCancel _
      | canceled => rfl
  | connectAny =>
      cases c with
      | resolved endpoints => rw [due_of_idle h]; rfl
      | success => rw [due_of_idle h]; rfl
      | failure => exact due_endpointConnect h _
      | canceled => rfl
  | handshake =>
      cases c with
      | resolved endpoints => exact due_report _
      | success => exact due_report _
      | failure => exact due_report _
      | canceled => rfl

/-- The timer of the resolver reports nothing. -/
theorem due_cancelResolver : (s.cancelOperation true).due = s.due := by
  rw [cancelOperation]
  split
  · rename_i op hOperation
    split
    · rename_i hOn
      obtain ⟨stage, queued⟩ := op
      cases stage with
      | resolve => simp [due, hOperation, Operation.reports]
      | connect rest => exact absurd hOn.1 (by simp [Operation.onResolver])
      | connectAny => exact absurd hOn.1 (by simp [Operation.onResolver])
      | handshake => exact absurd hOn.1 (by simp [Operation.onResolver])
    · rfl
  · rfl

/-- The timer of a connect takes the report over from an operation under way. -/
theorem due_cancelConnecting (h : s.Connecting) : (s.cancelOperation false).due + 1 = s.due := by
  obtain ⟨⟨stage, queued⟩, hOperation, hQueued, hOn⟩ := h
  simp only at hQueued
  rw [hQueued] at hOperation
  cases stage with
  | resolve => exact absurd hOn (by simp [Operation.onResolver])
  | connect rest =>
      simp [cancelOperation, hOperation, Operation.onResolver, due, Operation.reports]
  | connectAny => simp [cancelOperation, hOperation, Operation.onResolver, due, Operation.reports]
  | handshake => simp [cancelOperation, hOperation, Operation.onResolver, due, Operation.reports]

/-- It takes nothing over where none is. -/
theorem cancelOperation_of_not_connecting (h : ¬ s.Connecting) : s.cancelOperation false = s := by
  rw [cancelOperation]
  split
  · rename_i op hOperation
    split
    · rename_i hOn
      exact absurd ⟨op, hOperation, Option.isNone_iff_eq_none.mp hOn.2, hOn.1⟩ h
    · rfl
  · rfl

/-- A timer of a connect that has expired reports; in time, it does so for the operation. -/
theorem due_onTimer_of_connecting (h : s.Connecting) : (s.onTimer false).due = s.due := by
  rw [onTimer, if_neg (by decide), due_report]
  exact due_cancelConnecting h

theorem due_onTimer_of_not_connecting (h : ¬ s.Connecting) :
    (s.onTimer false).due = s.due + 1 := by
  rw [onTimer, if_neg (by decide), due_report, cancelOperation_of_not_connecting h]

/-- An operation that completes by itself ends in a report. -/
theorem reports_of_possible {stage : Stage ι} {c : Completion ι} (h : possible stage c = true) :
    Operation.reports ⟨stage, some c⟩ = true := by
  cases stage <;> cases c <;> first | rfl | cases h

/-- Of all that can happen only the delivery of a timer that is late changes what is due. -/
theorem due_step {e : AttemptEvent ι} (h : s.step e = some t) :
    (s.InTime e → t.due = s.due) ∧ (¬ s.InTime e → t.due = s.due + 1) := by
  cases e with
  | stop =>
      cases h
      exact ⟨fun _ => rfl, fun hLate => absurd trivial hLate⟩
  | expire i =>
      rw [step] at h
      split at h
      · cases h
        exact ⟨fun _ => rfl, fun hLate => absurd trivial hLate⟩
      · cases h
  | complete c =>
      rw [step] at h
      split at h
      · rename_i stage hOperation
        split at h
        · rename_i hPossible
          cases h
          refine ⟨fun _ => ?_, fun hLate => absurd trivial hLate⟩
          have hBefore : Operation.reports ⟨stage, (none : Option (Completion ι))⟩ = true := by
            cases stage <;> rfl
          simp only [due, hOperation, hBefore, reports_of_possible hPossible]
        · cases h
      · cases h
  | deliverTimer i =>
      rw [step] at h
      split at h
      · rename_i ofResolver hTimer
        cases h
        cases ofResolver with
        | true =>
            refine ⟨fun _ => due_cancelResolver, fun hLate => absurd ?_ hLate⟩
            intro hConnect
            rw [hTimer] at hConnect
            cases hConnect
        | false =>
            refine ⟨fun hInTime => due_onTimer_of_connecting (hInTime hTimer), fun hLate => ?_⟩
            exact due_onTimer_of_not_connecting fun hConnecting => hLate fun _ => hConnecting
      · rename_i ofResolver hTimer
        cases h
        refine ⟨fun _ => rfl, fun hLate => absurd ?_ hLate⟩
        intro hExpired
        rw [hTimer] at hExpired
        cases hExpired
      · cases h
  | deliverOperation =>
      rw [step] at h
      split at h
      · rename_i stage c hOperation
        cases h
        refine ⟨fun _ => ?_, fun hLate => absurd trivial hLate⟩
        rw [due_onCompleted rfl]
        simp [due, hOperation]
      · cases h

theorem due_getConnector (tls stopping : Bool) :
    (getConnector tls stopping : Attempt ι).due = 1 := by
  cases stopping <;> rfl

/-- An attempt that has come to rest has reported once if and only if every timer of a connect
that was delivered with success was so while its connect or handshake was under way. -/
theorem reported_once_iff {tls stopping : Bool} {events : List (AttemptEvent ι)}
    (hRun : run step (getConnector tls stopping) events = some s) (hRest : s.Quiescent) :
    s.reports.length = 1 ↔ Heeds step InTime (getConnector tls stopping) events := by
  have hMeets : ∀ {s : Attempt ι} {e t}, step s e = some t → InTime s e → t.due = s.due :=
    fun hStep => (due_step hStep).1
  have hBreaks : ∀ {s : Attempt ι} {e t}, step s e = some t → ¬ InTime s e → t.due = s.due + 1 :=
    fun hStep => (due_step hStep).2
  have hCount := (count_eq_iff_heeds due hMeets hBreaks hRun).2
  rw [due_getConnector, due_of_idle (Option.isNone_iff_eq_none.mp hRest.1)] at hCount
  exact hCount

/-- A plain connect to one endpoint. -/
theorem reported_once_iff_one_endpoint :
    ∃ s : Attempt Unit, s.Quiescent ∧ (s.reports.length = 1 ↔
      Heeds step InTime (getConnector false false)
        [.complete (.resolved [()]), .deliverOperation, .deliverTimer 0, .complete .success,
          .deliverOperation, .deliverTimer 1]) := by
  let s : Attempt Unit :=
    { tls := false, stopping := false, operation := none
      timers := [⟨true, .delivered⟩, ⟨false, .delivered⟩], reports := [.connectorCb] }
  have hRest : s.Quiescent := ⟨rfl, by decide⟩
  exact ⟨s, hRest, reported_once_iff rfl hRest⟩

/-- Nobody cancels the timer of a TLS connect that fails: it reports after the connect has. -/
theorem tls_failure_reported_twice :
    ¬ ∀ (tls stopping : Bool) (events : List (AttemptEvent Unit)) (s : Attempt Unit),
      run step (getConnector tls stopping) events = some s → s.Quiescent →
        s.reports.length = 1 := by
  intro hAll
  have hOnce := hAll true false [.complete (.resolved [()]), .deliverOperation, .deliverTimer 0,
    .complete .failure, .deliverOperation, .expire 1, .deliverTimer 1]
    { tls := true, stopping := false, operation := none
      timers := [⟨true, .delivered⟩, ⟨false, .delivered⟩]
      reports := [.errorCb 3, .errorCb 4] } rfl ⟨rfl, by decide⟩
  exact absurd hOnce (by decide)

end Attempt

end Doormat.Network
