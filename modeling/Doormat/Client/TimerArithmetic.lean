import Doormat.Client.Multiplexer

/-! The counters of `client_connection_multiplexer`: what `update_timeout` makes of them over any
sequence of counts and ticks. -/
namespace Doormat.Client.Multiplexer

open Runs

/-- `update_timeout`, or what else happens to a multiplexer. -/
inductive TimerOp
  | update (ms : Nat)
  | other (op : Op)

/-- A multiplexer with the counts given to `update_timeout`, the last one first. -/
structure Timed where
  multiplexer : Multiplexer := {}
  counts : List Nat := []

def Timed.update (s : Timed) (ms : Nat) (t : Option Multiplexer) : Option Timed :=
  t.map fun m => { multiplexer := m, counts := ms :: s.counts }

/-- One call of `update_timeout`, directly or through a handler, or of another member. -/
def Timed.step (s : Timed) : TimerOp → Option Timed
  | .update ms => s.update ms (s.multiplexer.updateTimeout ms)
  | .other (.onTimeout id ms) =>
      if s.multiplexer.live id then s.update ms (s.multiplexer.onTimeout id ms) else some s
  | .other op => (s.multiplexer.step op).map fun m => { s with multiplexer := m }

/-- The interval that `update_timeout` divides. -/
def oldGcd (m : Multiplexer) (ms : Nat) : Nat :=
  if m.timeoutInterval = 0 then ms else m.timeoutInterval

/-- An update divides without a remainder, and what the counters stand for stays. Ticks that were
counted while there was no interval yet stand for no time, until the first update. -/
structure Rescales (m : Multiplexer) (ms : Nat) (t : Multiplexer) : Prop where
  count_dvd : t.timeoutInterval ∣ ms
  old_dvd : t.timeoutInterval ∣ m.oldGcd ms
  elapsed : t.elapsed = m.elapsed ↔ m.timeoutInterval ≠ 0 ∨ m.tickCount = 0
  period : ∀ id, m.live id = true → (m.handlers id).periodicity ≠ 0 →
    (t.handlers id).periodicity * t.timeoutInterval =
      (m.handlers id).periodicity * m.timeoutInterval

/-- The counters after some counts and ticks, and what the next update does to them. -/
structure Exact (s : Timed) : Prop where
  interval : s.multiplexer.timeoutInterval = s.counts.foldr Nat.gcd 0
  largest : s.multiplexer.maxPeriodicity * s.multiplexer.timeoutInterval = s.counts.foldr max 0
  update : ∀ ms, 0 < ms → ∃ t, s.multiplexer.updateTimeout ms = some t ∧ s.multiplexer.Rescales ms t

/-- Before the first count nobody has a periodicity. -/
structure Untouched (m : Multiplexer) : Prop where
  maxPeriodicity : m.maxPeriodicity = 1
  periodicity : ∀ id, (m.handlers id).periodicity = 0

structure InStep (s : Timed) : Prop where
  interval : s.multiplexer.timeoutInterval = s.counts.foldr Nat.gcd 0
  largest : s.multiplexer.maxPeriodicity * s.multiplexer.timeoutInterval = s.counts.foldr max 0
  untouched : s.multiplexer.timeoutInterval = 0 → s.multiplexer.Untouched
  listed : s.multiplexer.Listed

variable {m t : Multiplexer} {ms : Nat}

/-- The counters after an update. -/
theorem updateTimeout_counters (h : m.updateTimeout ms = some t) :
    0 < ms ∧ t.timeoutInterval = Nat.gcd ms (m.oldGcd ms) ∧
      t.tickCount = m.tickCount * (m.oldGcd ms / t.timeoutInterval) ∧
      t.maxPeriodicity =
        max (m.maxPeriodicity * (m.oldGcd ms / t.timeoutInterval)) (ms / t.timeoutInterval) := by
  unfold updateTimeout at h
  split at h
  case isTrue => cases h
  case isFalse hMs =>
    cases h
    exact ⟨Nat.pos_of_ne_zero hMs, GCD_eq _ _, rfl, rfl⟩

/-- The handlers after an update. -/
theorem updateTimeout_handlers (h : m.updateTimeout ms = some t) (id : Nat) :
    t.created = m.created ∧ t.handlersList = m.handlersList ∧
      t.handlers id = if id ∈ m.handlersList ∧ m.live id = true then
        rebase (m.oldGcd ms / t.timeoutInterval) (ms / t.timeoutInterval) (m.handlers id)
      else m.handlers id := by
  unfold updateTimeout at h
  split at h
  case isTrue => cases h
  case isFalse =>
    cases h
    exact ⟨rfl, rfl, rfl⟩

theorem updateTimeout_live (h : m.updateTimeout ms = some t) (id : Nat) :
    t.live id = m.live id := by
  obtain ⟨hCreated, -, hHandler⟩ := updateTimeout_handlers h id
  have hAlive : (t.handlers id).alive = (m.handlers id).alive := by
    rw [hHandler]
    split
    · exact (rebase_keeps _ _ _).1
    · rfl
  rw [live, live, hCreated, hAlive]

theorem updateTimeout_dvd (h : m.updateTimeout ms = some t) :
    0 < t.timeoutInterval ∧ t.timeoutInterval ∣ ms ∧ t.timeoutInterval ∣ m.oldGcd ms := by
  obtain ⟨hPos, hInterval, -, -⟩ := updateTimeout_counters h
  rw [hInterval]
  exact ⟨Nat.gcd_pos_of_pos_left _ hPos, Nat.gcd_dvd_left _ _, Nat.gcd_dvd_right _ _⟩

theorem InStep.rescales {s : Timed} (hs : InStep s) (h : s.multiplexer.updateTimeout ms = some t) :
    s.multiplexer.Rescales ms t := by
  obtain ⟨hPos, hMs, hOld⟩ := updateTimeout_dvd h
  obtain ⟨-, -, hTicks, -⟩ := updateTimeout_counters h
  by_cases hFirst : s.multiplexer.timeoutInterval = 0
  · have hSame : s.multiplexer.oldGcd ms = ms := if_pos hFirst
    refine ⟨hMs, hOld, ?_, ?_⟩
    · have hTime : t.elapsed = s.multiplexer.tickCount * ms := by
        rw [elapsed, hTicks, hSame, Nat.mul_assoc, Nat.div_mul_cancel hMs]
      have hNone : s.multiplexer.elapsed = 0 := by
        rw [elapsed, hFirst, Nat.mul_zero]
      have hCount := (updateTimeout_counters h).1
      rw [hTime, hNone, Nat.mul_eq_zero]
      constructor
      · intro hZero
        exact .inr (hZero.resolve_right (Nat.ne_of_gt hCount))
      · intro hTick
        exact .inl (hTick.resolve_left fun hNot => hNot hFirst)
    · intro id _ hSome
      exact absurd ((hs.untouched hFirst).periodicity id) hSome
  · have hSame : s.multiplexer.oldGcd ms = s.multiplexer.timeoutInterval := if_neg hFirst
    rw [hSame] at hOld hTicks
    refine ⟨hMs, by rw [hSame]; exact hOld, ?_, ?_⟩
    · refine iff_of_true ?_ (.inl hFirst)
      rw [elapsed, hTicks, period_rebase rfl hOld, elapsed]
    · intro id hLive hSome
      obtain ⟨-, -, hHandler⟩ := updateTimeout_handlers h id
      rw [hHandler, if_pos ⟨hs.listed id hLive, hLive⟩, rebase_periodicity, if_neg hSome, hSame,
        period_rebase rfl hOld]

theorem InStep.exact {s : Timed} (hs : InStep s) : Exact s := by
  refine ⟨hs.interval, hs.largest, ?_⟩
  intro ms hPositive
  obtain ⟨t, hUpdate⟩ := updateTimeout_isSome (m := s.multiplexer) hPositive
  exact ⟨t, hUpdate, hs.rescales hUpdate⟩

/-- The greatest common divisor and the largest of the counts after one more. -/
theorem InStep.update_counts {s : Timed} (hs : InStep s)
    (h : s.multiplexer.updateTimeout ms = some t) :
    t.timeoutInterval = (ms :: s.counts).foldr Nat.gcd 0 ∧
      t.maxPeriodicity * t.timeoutInterval = (ms :: s.counts).foldr max 0 := by
  obtain ⟨hPos, hMs, hOld⟩ := updateTimeout_dvd h
  obtain ⟨-, hInterval, -, hMax⟩ := updateTimeout_counters h
  rw [List.foldr_cons, List.foldr_cons, ← hs.interval, ← hs.largest]
  by_cases hFirst : s.multiplexer.timeoutInterval = 0
  · have hSame : s.multiplexer.oldGcd ms = ms := if_pos hFirst
    rw [hSame, Nat.gcd_self] at hInterval
    have hOne := (hs.untouched hFirst).maxPeriodicity
    rw [hMax, hSame, hInterval, hOne, hFirst, Nat.gcd_zero_right, Nat.div_self (hInterval ▸ hPos)]
    simp
  · have hSame : s.multiplexer.oldGcd ms = s.multiplexer.timeoutInterval := if_neg hFirst
    rw [hSame] at hInterval hOld hMax
    refine ⟨hInterval, ?_⟩
    rw [hMax, ← Nat.mul_max_mul_right, period_rebase rfl hOld, Nat.div_mul_cancel hMs, Nat.max_comm]

/-! ### Steps -/

theorem InStep.update {s u : Timed} (hs : InStep s)
    (h : s.update ms (s.multiplexer.updateTimeout ms) = some u) : InStep u := by
  obtain ⟨t, hUpdate, rfl⟩ := Option.map_eq_some_iff.mp h
  obtain ⟨hInterval, hLargest⟩ := hs.update_counts hUpdate
  have hSome := (updateTimeout_dvd hUpdate).1
  constructor
  · exact hInterval
  · exact hLargest
  · intro hZero
    exact absurd hZero (Nat.ne_of_gt hSome)
  · intro id hLive
    obtain ⟨-, hList, -⟩ := updateTimeout_handlers hUpdate id
    show id ∈ t.handlersList
    rw [hList]
    exact hs.listed id (updateTimeout_live hUpdate id ▸ hLive)

/-- What leaves the counters alone keeps them in step. -/
theorem InStep.same {s : Timed} (hs : InStep s)
    (hInterval : t.timeoutInterval = s.multiplexer.timeoutInterval)
    (hMax : t.maxPeriodicity = s.multiplexer.maxPeriodicity)
    (hUntouched : s.multiplexer.timeoutInterval = 0 → s.multiplexer.Untouched → t.Untouched)
    (hListed : t.Listed) :
    InStep { s with multiplexer := t } := by
  constructor
  · exact hInterval.trans hs.interval
  · show t.maxPeriodicity * t.timeoutInterval = _
    rw [hInterval, hMax]
    exact hs.largest
  · intro hZero
    have hFirst := hInterval ▸ hZero
    exact hUntouched hFirst (hs.untouched hFirst)
  · exact hListed

theorem InStep.asking {s : Timed} (hs : InStep s) (id ms : Nat) :
    InStep { s with multiplexer := s.multiplexer.asking id ms } := by
  apply hs.same
  · rfl
  · rfl
  · intro _ hUntouched
    refine ⟨hUntouched.maxPeriodicity, ?_⟩
    intro j
    rw [(s.multiplexer.asking_handlers id ms j).2.1]
    exact hUntouched.periodicity j
  · intro j hLive
    rw [asking_live] at hLive
    exact hs.listed j hLive

theorem clearExpired_maxPeriodicity (m : Multiplexer) :
    m.clearExpired.maxPeriodicity = m.maxPeriodicity := by
  simp only [clearExpired]
  split <;> rfl

theorem InStep.clearExpired {s : Timed} (hs : InStep s) :
    InStep { s with multiplexer := s.multiplexer.clearExpired } := by
  apply hs.same
  · exact clearExpired_interval _
  · exact clearExpired_maxPeriodicity _
  · intro _ hUntouched
    refine ⟨?_, ?_⟩
    · rw [clearExpired_maxPeriodicity]
      exact hUntouched.maxPeriodicity
    · intro id
      rw [clearExpired_handlers]
      exact hUntouched.periodicity id
  · exact hs.listed.clearExpired

theorem InStep.timeout {s : Timed} (hs : InStep s) :
    InStep { s with multiplexer := s.multiplexer.timeout } := by
  have hMax : s.multiplexer.timeout.maxPeriodicity = s.multiplexer.maxPeriodicity :=
    clearExpired_maxPeriodicity _
  apply hs.same
  · exact timeout_interval _
  · exact hMax
  · intro _ hUntouched
    refine ⟨hMax.trans hUntouched.maxPeriodicity, ?_⟩
    intro id
    rw [(s.multiplexer.timeout_keeps id).2.1]
    exact hUntouched.periodicity id
  · exact hs.listed.timeout

theorem InStep.getHandler {s : Timed} (hs : InStep s) :
    InStep { s with multiplexer := s.multiplexer.getHandler } := by
  apply hs.same
  · rfl
  · rfl
  · intro _ hUntouched
    exact ⟨hUntouched.maxPeriodicity, hUntouched.periodicity⟩
  · exact hs.listed.getHandler

theorem InStep.drop {s : Timed} (hs : InStep s) (id : Nat) :
    InStep { s with multiplexer :=
      s.multiplexer.setHandler id { s.multiplexer.handlers id with alive := false } } := by
  apply hs.same
  · rfl
  · rfl
  · intro _ hUntouched
    refine ⟨hUntouched.maxPeriodicity, ?_⟩
    intro j
    by_cases hj : j = id
    · subst hj
      show (Function.update s.multiplexer.handlers j _ j).periodicity = 0
      rw [Function.update_self]
      exact hUntouched.periodicity j
    · show (Function.update s.multiplexer.handlers id _ j).periodicity = 0
      rw [Function.update_of_ne hj]
      exact hUntouched.periodicity j
  · exact hs.listed.drop id

theorem InStep.step {s u : Timed} (hs : InStep s) {op : TimerOp} (hStep : s.step op = some u) :
    InStep u := by
  cases op with
  | update ms => exact hs.update hStep
  | other op =>
      cases op with
      | getHandler =>
          cases hStep
          exact hs.getHandler
      | onTimeout id ms =>
          simp only [Timed.step] at hStep
          split at hStep
          case isTrue => exact (hs.asking id ms).update hStep
          case isFalse =>
            cases hStep
            exact hs
      | timeout =>
          cases hStep
          exact hs.timeout
      | drop id =>
          simp only [Timed.step, Multiplexer.step, Option.map_some, Option.some.injEq] at hStep
          subst hStep
          by_cases hLive : s.multiplexer.live id = true
          · rw [if_pos hLive]
            exact hs.drop id
          · rw [if_neg hLive]
            exact hs
      | requestSent =>
          cases hStep
          exact hs.clearExpired

theorem inStep_init : InStep {} := by
  constructor
  · rfl
  · rfl
  · intro _
    exact ⟨rfl, fun _ => rfl⟩
  · exact Sane.init.listed

/-- The call asks for some time, if it asks for any. -/
def TimerOp.Positive : TimerOp → Prop
  | .update ms => 0 < ms
  | .other op => op.Positive

/-- Only the assertion on the milliseconds ends a run. -/
theorem Timed.step_isSome (s : Timed) {op : TimerOp} (hPositive : op.Positive) :
    ∃ u, s.step op = some u := by
  cases op with
  | update ms =>
      obtain ⟨t, hUpdate⟩ := updateTimeout_isSome (m := s.multiplexer) hPositive
      exact ⟨_, congrArg (s.update ms) hUpdate⟩
  | other op =>
      cases op with
      | onTimeout id ms =>
          simp only [Timed.step]
          split
          case isTrue =>
            obtain ⟨t, hUpdate⟩ := updateTimeout_isSome (m := s.multiplexer.asking id ms) hPositive
            exact ⟨_, congrArg (s.update ms) hUpdate⟩
          case isFalse => exact ⟨s, rfl⟩
      | _ => exact ⟨_, rfl⟩

/-- Every run of positive counts, ticks and what else happens comes to its end, and the counters
are exact throughout. -/
theorem counters_exact (ops : List TimerOp) (hPositive : ∀ op ∈ ops, op.Positive) :
    (∃ s, run Timed.step {} ops = some s) ∧ Throughout Timed.step Exact {} ops := by
  have hInStep : Throughout Timed.step InStep {} ops :=
    throughout_of_step (fun hs hStep => hs.step hStep) inStep_init ops
  exact ⟨run_of_forall (fun s _ => s.step_isSome) _ hPositive, hInStep.mono fun _ hs => hs.exact⟩

/-- A handler that registers for 100 ms, a tick, and 150 ms more. -/
theorem counters_exact_twice :
    (∃ s, run Timed.step {} [.other .getHandler, .other (.onTimeout 0 100), .other .timeout, .update 150] =
        some s) ∧
      Throughout Timed.step Exact {}
        [.other .getHandler, .other (.onTimeout 0 100), .other .timeout, .update 150] := by
  apply counters_exact
  intro op hOp
  simp only [List.mem_cons, List.not_mem_nil, or_false] at hOp
  rcases hOp with rfl | rfl | rfl | rfl
  · trivial
  · exact Nat.zero_lt_succ 99
  · trivial
  · exact Nat.zero_lt_succ 149

/-- A tick before the first count: it starts to stand for 100 ms when that count is given. -/
theorem early_tick_counts :
    ¬ Throughout Timed.step
      (fun s => ∀ ms t, s.multiplexer.updateTimeout ms = some t → t.elapsed = s.multiplexer.elapsed) {}
      [.other .timeout] := by
  intro h
  have hUpdate : (({} : Multiplexer).timeout.updateTimeout 100).map elapsed = some 100 := by
    decide +kernel
  obtain ⟨t, hTick, hTime⟩ := Option.map_eq_some_iff.mp hUpdate
  have hElapsed : t.elapsed = ({} : Multiplexer).timeout.elapsed := (h.last rfl) 100 t hTick
  rw [hTime] at hElapsed
  cases hElapsed

end Doormat.Client.Multiplexer
