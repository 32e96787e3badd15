import Mathlib.Logic.Function.Basic
import Doormat.Library.Runs

/-! `client_connection_multiplexer`: several handlers share one connection and its timer,
which ticks at the greatest common divisor of the intervals that they ask for. -/
namespace Doormat.Client

/-- `client_connection_handler`. `alive` tells whether somebody owns it, and `called`
counts the calls of its `timeout`. `asked` records what the last call of `on_timeout` asked
for, in milliseconds; nothing reads it. -/
structure Handler where
  periodicity : Nat := 0
  alive : Bool := true
  called : Nat := 0
  asked : Option Nat := none

/-- `client_connection_multiplexer` with its handlers, which are numbered. `timer` is the
interval of the connection's timer, 0 if it is off. A tick comes no earlier than one
interval after the last, so that no counter gets past the milliseconds of a run. -/
structure Multiplexer where
  handlersList : List Nat := []
  timeoutInterval : Nat := 0
  selfPeriodicity : Nat := 1
  maxPeriodicity : Nat := 1
  tickCount : Nat := 0
  created : Nat := 0
  handlers : Nat → Handler := fun _ => {}
  timer : Nat := 0

/-- What happens to a multiplexer: its public members, a handler that nobody owns any more,
and a request that has been sent. -/
inductive Op
  | getHandler
  | onTimeout (id ms : Nat)
  | timeout
  | drop (id : Nat)
  | requestSent
deriving DecidableEq

/-- The call asks for some time, if it asks for any. -/
def Op.Positive : Op → Prop
  | .onTimeout _ ms => 0 < ms
  | _ => True

namespace Multiplexer

def setHandler (m : Multiplexer) (id : Nat) (h : Handler) : Multiplexer :=
  { m with handlers := Function.update m.handlers id h }

/-- A weak pointer to the handler can be locked. -/
def live (m : Multiplexer) (id : Nat) : Bool := id < m.created && (m.handlers id).alive

/-- `get_handler`. -/
def getHandler (m : Multiplexer) : Multiplexer :=
  { m with handlersList := m.handlersList ++ [m.created], created := m.created + 1 }

/-- `GCD`. -/
def GCD (u v : Nat) : Nat := if v = 0 then u else GCD v (u % v)
termination_by v
decreasing_by exact Nat.mod_lt u (Nat.pos_of_ne_zero ‹_›)

/-- What `update_timeout` does to the handlers that it can lock. -/
def rebase (multiplier periodicity : Nat) (h : Handler) : Handler :=
  if h.periodicity = 0 then { h with periodicity := periodicity }
  else { h with periodicity := h.periodicity * multiplier }

/-- `update_timeout`. The assertion is the one on `ms`. -/
def updateTimeout (m : Multiplexer) (ms : Nat) : Option Multiplexer :=
  if ms = 0 then none
  else
    let oldGcd := if m.timeoutInterval = 0 then ms else m.timeoutInterval
    let interval := GCD ms oldGcd
    let multiplier := oldGcd / interval
    some { m with
      timeoutInterval := interval
      selfPeriodicity := m.selfPeriodicity * multiplier
      tickCount := m.tickCount * multiplier
      maxPeriodicity := max (m.maxPeriodicity * multiplier) (ms / interval)
      handlers := fun id =>
        if id ∈ m.handlersList ∧ m.live id = true then
          rebase multiplier (ms / interval) (m.handlers id)
        else m.handlers id
      timer := interval }

/-- `client_connection_handler::on_timeout`. -/
def onTimeout (m : Multiplexer) (id ms : Nat) : Option Multiplexer :=
  (m.setHandler id { m.handlers id with asked := some ms }).updateTimeout ms

/-- `clear_expired`: the expired handlers at the front are erased. Without handlers the
connection's timer is turned off. -/
def clearExpired (m : Multiplexer) : Multiplexer :=
  let m := { m with handlersList := m.handlersList.dropWhile fun id => !m.live id }
  if m.handlersList = [] then { m with timer := 0 } else m

/-- Does a tick reach the handler? -/
def reaches (m : Multiplexer) (id : Nat) : Bool :=
  m.live id && (m.handlers id).periodicity ≠ 0 && m.tickCount % (m.handlers id).periodicity = 0

/-- `timeout`. -/
def timeout (m : Multiplexer) : Multiplexer :=
  let m := { m with tickCount := m.tickCount + 1 }
  { m with handlers := fun id =>
      if id ∈ m.handlersList ∧ m.reaches id = true then
        { m.handlers id with called := (m.handlers id).called + 1 }
      else m.handlers id }.clearExpired

/-- One call. A handler is only called by who owns it. -/
def step (m : Multiplexer) : Op → Option Multiplexer
  | .getHandler => some m.getHandler
  | .onTimeout id ms => if m.live id then m.onTimeout id ms else some m
  | .timeout => some m.timeout
  | .drop id => some (if m.live id then m.setHandler id { m.handlers id with alive := false } else m)
  | .requestSent => some m.clearExpired

/-! ### The schedule -/

theorem GCD_eq (u v : Nat) : GCD u v = Nat.gcd u v := by
  induction v using Nat.strongRecOn generalizing u with
  | ind v ih =>
      rw [GCD]
      split
      case isTrue hZero => rw [hZero, Nat.gcd_zero_right]
      case isFalse hPos =>
        rw [ih (u % v) (Nat.mod_lt u (Nat.pos_of_ne_zero hPos)), Nat.gcd_comm u v, Nat.gcd_rec v u,
          Nat.gcd_comm]

/-- The milliseconds that the ticks have counted. -/
def elapsed (m : Multiplexer) : Nat := m.tickCount * m.timeoutInterval

/-- Every live handler has the periodicity that it has asked for, and the next tick calls
it if and only if its interval divides the time. One that has asked for nothing is never
called. -/
structure OnSchedule (m : Multiplexer) : Prop where
  asked : ∀ id ms, m.live id = true → (m.handlers id).asked = some ms →
    (m.handlers id).periodicity * m.timeoutInterval = ms ∧
      ((m.timeout.handlers id).called = (m.handlers id).called + 1 ↔ ms ∣ m.timeout.elapsed)
  silent : ∀ id, m.live id = true → (m.handlers id).asked = none →
    (m.handlers id).periodicity = 0 ∧ (m.handlers id).called = 0

/-- The step keeps the schedule: if it is a registration, then everybody else has already
registered, and whoever registers again asks for the same interval. -/
def Keeps (m : Multiplexer) : Op → Prop
  | .onTimeout id ms => m.live id = true →
      (∀ j, j ≠ id → m.live j = true → (m.handlers j).asked ≠ none) ∧
        ∀ a, (m.handlers id).asked = some a → a = ms
  | _ => True

/-- What holds of every multiplexer: the live handlers are on the list, and nobody has
asked for no time at all. -/
structure Sane (m : Multiplexer) : Prop where
  listed : ∀ id, m.live id = true → id ∈ m.handlersList
  created : ∀ id, m.created ≤ id → m.handlers id = {}
  positive : ∀ id ms, (m.handlers id).asked = some ms → 0 < ms

variable {m t : Multiplexer} {id ms : Nat}

theorem live_iff : m.live id = true ↔ id < m.created ∧ (m.handlers id).alive = true := by
  simp [live]

theorem clearExpired_handlers (m : Multiplexer) : m.clearExpired.handlers = m.handlers := by
  simp only [clearExpired]
  split <;> rfl

theorem clearExpired_created (m : Multiplexer) : m.clearExpired.created = m.created := by
  simp only [clearExpired]
  split <;> rfl

theorem clearExpired_elapsed (m : Multiplexer) : m.clearExpired.elapsed = m.elapsed := by
  simp only [clearExpired]
  split <;> rfl

theorem clearExpired_interval (m : Multiplexer) :
    m.clearExpired.timeoutInterval = m.timeoutInterval := by
  simp only [clearExpired]
  split <;> rfl

theorem clearExpired_list (m : Multiplexer) :
    m.clearExpired.handlersList = m.handlersList.dropWhile fun id => !m.live id := by
  simp only [clearExpired]
  split <;> rfl

theorem clearExpired_live (m : Multiplexer) (id : Nat) : m.clearExpired.live id = m.live id := by
  rw [live, clearExpired_created, clearExpired_handlers, live]

/-- Only expired handlers are erased. -/
theorem mem_dropWhile_live {l : List Nat} (hLive : m.live id = true) (hMem : id ∈ l) :
    id ∈ l.dropWhile fun id => !m.live id := by
  induction l with
  | nil => cases hMem
  | cons j l ih =>
      rw [List.dropWhile_cons]
      split
      case isTrue hExpired =>
        rcases List.mem_cons.mp hMem with rfl | hRest
        · rw [hLive] at hExpired
          cases hExpired
        · exact ih hRest
      case isFalse => exact hMem

/-! ### A tick -/

/-- The handler that a tick has been to. -/
theorem timeout_handlers (m : Multiplexer) (id : Nat) :
    m.timeout.handlers id =
      if id ∈ m.handlersList ∧ ({ m with tickCount := m.tickCount + 1 } : Multiplexer).reaches id = true
      then { m.handlers id with called := (m.handlers id).called + 1 } else m.handlers id := by
  simp only [timeout, clearExpired_handlers]

theorem timeout_keeps (m : Multiplexer) (id : Nat) :
    (m.timeout.handlers id).asked = (m.handlers id).asked ∧
      (m.timeout.handlers id).periodicity = (m.handlers id).periodicity ∧
      (m.timeout.handlers id).alive = (m.handlers id).alive := by
  rw [timeout_handlers]
  split
  · exact ⟨rfl, rfl, rfl⟩
  · exact ⟨rfl, rfl, rfl⟩

theorem timeout_live (m : Multiplexer) (id : Nat) : m.timeout.live id = m.live id := by
  have hCreated : m.timeout.created = m.created := clearExpired_created _
  rw [live, hCreated, (m.timeout_keeps id).2.2, live]

theorem timeout_interval (m : Multiplexer) : m.timeout.timeoutInterval = m.timeoutInterval :=
  clearExpired_interval _

theorem timeout_elapsed (m : Multiplexer) :
    m.timeout.elapsed = (m.tickCount + 1) * m.timeoutInterval := clearExpired_elapsed _

/-- A handler with the right periodicity is called at the multiples of its interval. -/
theorem called_iff (hListed : id ∈ m.handlersList) (hLive : m.live id = true) (hPositive : 0 < ms)
    (hPeriod : (m.handlers id).periodicity * m.timeoutInterval = ms) :
    (m.timeout.handlers id).called = (m.handlers id).called + 1 ↔ ms ∣ m.timeout.elapsed := by
  have hPeriodicity : 0 < (m.handlers id).periodicity :=
    Nat.pos_of_mul_pos_right (hPeriod ▸ hPositive)
  have hInterval : 0 < m.timeoutInterval := Nat.pos_of_mul_pos_left (hPeriod ▸ hPositive)
  have hReaches : ({ m with tickCount := m.tickCount + 1 } : Multiplexer).reaches id = true ↔
      (m.handlers id).periodicity ∣ m.tickCount + 1 := by
    have hLive' : ({ m with tickCount := m.tickCount + 1 } : Multiplexer).live id = true := hLive
    simp only [reaches, hLive', Nat.dvd_iff_mod_eq_zero]
    simp [Nat.ne_of_gt hPeriodicity]
  rw [timeout_elapsed, ← hPeriod, Nat.mul_dvd_mul_iff_right hInterval, ← hReaches, timeout_handlers]
  split
  case isTrue hCall => exact iff_of_true rfl hCall.2
  case isFalse hNot =>
    apply iff_of_false
    · exact fun hEq => absurd hEq (Nat.ne_of_lt (Nat.lt_succ_self _))
    · exact fun hCall => hNot ⟨hListed, hCall⟩

theorem OnSchedule.of_periods (hSane : Sane m)
    (hAsked : ∀ id ms, m.live id = true → (m.handlers id).asked = some ms →
      (m.handlers id).periodicity * m.timeoutInterval = ms)
    (hSilent : ∀ id, m.live id = true → (m.handlers id).asked = none →
      (m.handlers id).periodicity = 0 ∧ (m.handlers id).called = 0) : OnSchedule m where
  asked id ms hLive hMs :=
    ⟨hAsked id ms hLive hMs,
      called_iff (hSane.listed id hLive) hLive (hSane.positive id ms hMs) (hAsked id ms hLive hMs)⟩
  silent := hSilent

/-- Handlers that are live, with what they have asked for, as before. -/
theorem OnSchedule.same (h : OnSchedule m) (hSane : Sane t)
    (hInterval : t.timeoutInterval = m.timeoutInterval)
    (hLive : ∀ id, t.live id = true → m.live id = true ∧
      (t.handlers id).asked = (m.handlers id).asked ∧
      (t.handlers id).periodicity = (m.handlers id).periodicity ∧
      ((m.handlers id).periodicity = 0 → (t.handlers id).called = (m.handlers id).called)) :
    OnSchedule t := by
  apply OnSchedule.of_periods hSane
  · intro id ms hId hMs
    obtain ⟨hOld, hAsked, hPeriod, -⟩ := hLive id hId
    rw [hPeriod, hInterval]
    exact (h.asked id ms hOld (hAsked ▸ hMs)).1
  · intro id hId hNone
    obtain ⟨hOld, hAsked, hPeriod, hCalled⟩ := hLive id hId
    obtain ⟨hZero, hNever⟩ := h.silent id hOld (hAsked ▸ hNone)
    exact ⟨hPeriod.trans hZero, (hCalled hZero).trans hNever⟩

/-! ### A registration -/

theorem onTimeout_eq_some (h : m.onTimeout id ms = some t) : 0 < ms ∧
    t.timeoutInterval = Nat.gcd ms (if m.timeoutInterval = 0 then ms else m.timeoutInterval) := by
  simp only [onTimeout, updateTimeout] at h
  split at h
  case isTrue => cases h
  case isFalse hMs =>
    cases h
    exact ⟨Nat.pos_of_ne_zero hMs, GCD_eq _ _⟩

theorem rebase_keeps (multiplier periodicity : Nat) (h : Handler) :
    (rebase multiplier periodicity h).alive = h.alive ∧ (rebase multiplier periodicity h).asked = h.asked ∧
      (rebase multiplier periodicity h).called = h.called := by
  unfold rebase
  split
  · exact ⟨rfl, rfl, rfl⟩
  · exact ⟨rfl, rfl, rfl⟩

theorem rebase_periodicity (multiplier periodicity : Nat) (h : Handler) :
    (rebase multiplier periodicity h).periodicity =
      if h.periodicity = 0 then periodicity else h.periodicity * multiplier := by
  unfold rebase
  split
  · rfl
  · rfl

/-- The handlers when `update_timeout` begins. -/
def asking (m : Multiplexer) (id ms : Nat) : Multiplexer :=
  m.setHandler id { m.handlers id with asked := some ms }

theorem asking_handlers (m : Multiplexer) (id ms j : Nat) :
    ((m.asking id ms).handlers j).alive = (m.handlers j).alive ∧
      ((m.asking id ms).handlers j).periodicity = (m.handlers j).periodicity ∧
      ((m.asking id ms).handlers j).called = (m.handlers j).called ∧
      ((m.asking id ms).handlers j).asked = if j = id then some ms else (m.handlers j).asked := by
  by_cases hj : j = id
  · subst hj
    simp [asking, setHandler]
  · simp [asking, setHandler, hj]

theorem asking_live (m : Multiplexer) (id ms j : Nat) : (m.asking id ms).live j = m.live j := by
  rw [live, live, (m.asking_handlers id ms j).1]
  rfl

/-- What a registration makes of a handler. -/
theorem onTimeout_handlers (hSane : Sane m) (h : m.onTimeout id ms = some t) (j : Nat) :
    t.live j = m.live j ∧
      (t.handlers j).asked = (if j = id then some ms else (m.handlers j).asked) ∧
      (t.handlers j).called = (m.handlers j).called ∧
      (m.live j = true → (t.handlers j).periodicity =
        if (m.handlers j).periodicity = 0 then ms / t.timeoutInterval
        else (m.handlers j).periodicity *
          ((if m.timeoutInterval = 0 then ms else m.timeoutInterval) / t.timeoutInterval)) := by
  obtain ⟨hAlive, hPeriod, hCalled, hAsked⟩ := m.asking_handlers id ms j
  have hRun : (m.asking id ms).updateTimeout ms = some t := h
  unfold updateTimeout at hRun
  split at hRun
  case isTrue => cases hRun
  case isFalse =>
    cases hRun
    simp only [asking_live]
    obtain ⟨hAlive', hAsked', hCalled'⟩ := rebase_keeps
      ((if m.timeoutInterval = 0 then ms else m.timeoutInterval) /
        GCD ms (if m.timeoutInterval = 0 then ms else m.timeoutInterval))
      (ms / GCD ms (if m.timeoutInterval = 0 then ms else m.timeoutInterval)) ((m.asking id ms).handlers j)
    have hInterval : (m.asking id ms).timeoutInterval = m.timeoutInterval := rfl
    have hList : (m.asking id ms).handlersList = m.handlersList := rfl
    have hCreated : (m.asking id ms).created = m.created := rfl
    simp only [live, hInterval, hList, hCreated]
    by_cases hReached : j ∈ m.handlersList ∧ (decide (j < m.created) && (m.handlers j).alive) = true
    · rw [if_pos hReached]
      refine ⟨by rw [hAlive', hAlive], hAsked'.trans hAsked, hCalled'.trans hCalled, ?_⟩
      intro _
      rw [rebase_periodicity, hPeriod]
    · rw [if_neg hReached]
      refine ⟨by rw [hAlive], hAsked, hCalled, ?_⟩
      intro hLive
      exact absurd ⟨hSane.listed j hLive, hLive⟩ hReached

/-- The interval of a handler survives a registration. -/
theorem period_rebase {p a old g : Nat} (hPeriod : p * old = a) (hDvd : g ∣ old) :
    p * (old / g) * g = a := by
  rw [Nat.mul_assoc, Nat.div_mul_cancel hDvd, hPeriod]

/-- A registration keeps the schedule if and only if it meets the condition. -/
theorem onTimeout_iff (hSane : Sane m) (hT : Sane t) (hSchedule : OnSchedule m) (hLive : m.live id = true)
    (h : m.onTimeout id ms = some t) : OnSchedule t ↔ m.Keeps (.onTimeout id ms) := by
  have hHandlers := onTimeout_handlers hSane h
  obtain ⟨hPositive, hInterval⟩ := onTimeout_eq_some h
  have hDvdMs : t.timeoutInterval ∣ ms := hInterval ▸ Nat.gcd_dvd_left _ _
  have hDvdOld : t.timeoutInterval ∣ if m.timeoutInterval = 0 then ms else m.timeoutInterval :=
    hInterval ▸ Nat.gcd_dvd_right _ _
  have hNew : 0 < t.timeoutInterval := hInterval ▸ Nat.gcd_pos_of_pos_left _ hPositive
  -- whoever has registered keeps the interval that it has asked for
  have hKept : ∀ j a, m.live j = true → (m.handlers j).asked = some a →
      (t.handlers j).periodicity * t.timeoutInterval = a := by
    intro j a hj hAsked
    obtain ⟨hPeriod, -⟩ := hSchedule.asked j a hj hAsked
    have hA := hSane.positive j a hAsked
    have hp : (m.handlers j).periodicity ≠ 0 := by
      intro hZero
      rw [hZero, Nat.zero_mul] at hPeriod
      omega
    have hOld : m.timeoutInterval ≠ 0 := by
      intro hZero
      rw [hZero, Nat.mul_zero] at hPeriod
      omega
    rw [(hHandlers j).2.2.2 hj, if_neg hp, if_neg hOld]
    rw [if_neg hOld] at hDvdOld
    exact period_rebase hPeriod hDvdOld
  have hFirst : ∀ j, m.live j = true → (m.handlers j).asked = none →
      (t.handlers j).periodicity = ms / t.timeoutInterval := by
    intro j hj hNone
    rw [(hHandlers j).2.2.2 hj, if_pos (hSchedule.silent j hj hNone).1]
  constructor
  · intro hAfter _
    constructor
    · intro j hj hLiveJ hNone
      obtain ⟨hLiveT, hAskedT, -, -⟩ := hHandlers j
      rw [if_neg hj, hNone] at hAskedT
      obtain ⟨hZero, -⟩ := hAfter.silent j (hLiveT.trans hLiveJ) hAskedT
      rw [hFirst j hLiveJ hNone] at hZero
      have hQuotient : 0 < ms / t.timeoutInterval := Nat.div_pos (Nat.le_of_dvd hPositive hDvdMs) hNew
      omega
    · intro a hAsked
      obtain ⟨hLiveT, hAskedT, -, -⟩ := hHandlers id
      rw [if_pos rfl] at hAskedT
      obtain ⟨hPeriod, -⟩ := hAfter.asked id ms (hLiveT.trans hLive) hAskedT
      rw [← hPeriod, hKept id a hLive hAsked]
  · intro hKeeps
    obtain ⟨hOthers, hAgain⟩ := hKeeps hLive
    apply OnSchedule.of_periods hT
    · intro j a hj hAsked
      obtain ⟨hLiveT, hAskedT, -, -⟩ := hHandlers j
      rw [hLiveT] at hj
      rw [hAskedT] at hAsked
      by_cases hId : j = id
      · rw [if_pos hId] at hAsked
        cases hAsked
        subst hId
        cases hBefore : (m.handlers j).asked with
        | none => rw [hFirst j hj hBefore, Nat.div_mul_cancel hDvdMs]
        | some b => rw [hKept j b hj hBefore, hAgain b hBefore]
      · rw [if_neg hId] at hAsked
        exact hKept j a hj hAsked
    · intro j hj hNone
      obtain ⟨hLiveT, hAskedT, -, -⟩ := hHandlers j
      rw [hAskedT] at hNone
      split at hNone
      case isTrue => cases hNone
      case isFalse hId => exact absurd hNone (hOthers j hId (hLiveT ▸ hj))

/-! ### Runs -/

theorem Sane.init : Sane {} where
  listed id hLive := absurd (live_iff.mp hLive).1 (Nat.not_lt_zero id)
  created _ _ := rfl
  positive _ _ hAsked := by cases hAsked

/-- Every live handler is on the list. -/
def Listed (m : Multiplexer) : Prop := ∀ id, m.live id = true → id ∈ m.handlersList

theorem Listed.clearExpired (h : Listed m) : Listed m.clearExpired := by
  intro id hLive
  rw [clearExpired_live] at hLive
  rw [clearExpired_list]
  exact mem_dropWhile_live hLive (h id hLive)

theorem Listed.timeout (h : Listed m) : Listed m.timeout := by
  intro id hLive
  have hErased : m.timeout.handlersList =
      m.handlersList.dropWhile fun id => !m.timeout.live id := by
    simp only [Multiplexer.timeout, clearExpired_list, clearExpired_live]
  rw [hErased]
  rw [timeout_live] at hLive
  simp only [timeout_live]
  exact mem_dropWhile_live hLive (h id hLive)

theorem Listed.getHandler (h : Listed m) : Listed m.getHandler := by
  intro id hLive
  obtain ⟨hId, hAlive⟩ := live_iff.mp hLive
  rcases Nat.lt_succ_iff_lt_or_eq.mp hId with hOld | rfl
  · exact List.mem_append_left _ (h id (live_iff.mpr ⟨hOld, hAlive⟩))
  · exact List.mem_append_right _ (List.mem_singleton.mpr rfl)

theorem Listed.drop (h : Listed m) (id : Nat) :
    Listed (m.setHandler id { m.handlers id with alive := false }) := by
  intro j hj
  obtain ⟨hCreated, hAlive⟩ := live_iff.mp hj
  by_cases hId : j = id
  · subst hId
    have hDead : (m.setHandler j { m.handlers j with alive := false }).handlers j =
        { m.handlers j with alive := false } := Function.update_self _ _ _
    rw [hDead] at hAlive
    cases hAlive
  · have hOther : (m.setHandler id { m.handlers id with alive := false }).handlers j =
        m.handlers j := Function.update_of_ne hId _ _
    rw [hOther] at hAlive
    exact h j (live_iff.mpr ⟨hCreated, hAlive⟩)

theorem Sane.clearExpired (h : Sane m) : Sane m.clearExpired where
  listed := Listed.clearExpired h.listed
  created id hId := by
    rw [clearExpired_handlers]
    exact h.created id (clearExpired_created m ▸ hId)
  positive id ms hAsked := h.positive id ms (clearExpired_handlers m ▸ hAsked)

theorem Sane.timeout (h : Sane m) : Sane m.timeout where
  listed := Listed.timeout h.listed
  created id hId := by
    have hCreated : m.timeout.created = m.created := clearExpired_created _
    have hNew := h.created id (hCreated ▸ hId)
    rw [timeout_handlers, if_neg, hNew]
    rintro ⟨-, hReaches⟩
    simp [reaches, hNew] at hReaches
  positive id ms hAsked := h.positive id ms ((m.timeout_keeps id).1 ▸ hAsked)

theorem Sane.onTimeout (h : Sane m) (hLive : m.live id = true) (hRun : m.onTimeout id ms = some t) :
    Sane t := by
  have hHandlers := onTimeout_handlers h hRun
  obtain ⟨hPositive, -⟩ := onTimeout_eq_some hRun
  have hSame : t.handlersList = m.handlersList ∧ t.created = m.created ∧
      ∀ j, m.live j = false → j ≠ id → t.handlers j = m.handlers j := by
    have hUpdate : (m.asking id ms).updateTimeout ms = some t := hRun
    unfold updateTimeout at hUpdate
    split at hUpdate
    case isTrue => cases hUpdate
    case isFalse =>
      cases hUpdate
      refine ⟨rfl, rfl, ?_⟩
      intro j hDead hj
      simp only [asking_live, hDead]
      simp [asking, setHandler, hj]
  constructor
  · intro j hj
    rw [hSame.1]
    exact h.listed j ((hHandlers j).1 ▸ hj)
  · intro j hj
    have hOut : m.created ≤ j := hSame.2.1 ▸ hj
    have hDead : m.live j = false := by
      simp [live, Nat.not_lt.mpr hOut]
    have hNe : j ≠ id := by
      rintro rfl
      rw [hLive] at hDead
      cases hDead
    rw [hSame.2.2 j hDead hNe]
    exact h.created j hOut
  · intro j a hAsked
    rw [(hHandlers j).2.1] at hAsked
    split at hAsked
    case isTrue =>
      cases hAsked
      exact hPositive
    case isFalse => exact h.positive j a hAsked

theorem Sane.step (h : Sane m) {op : Op} (hRun : m.step op = some t) : Sane t := by
  cases op with
  | getHandler =>
      cases hRun
      constructor
      · exact Listed.getHandler h.listed
      · intro id hId
        exact h.created id (Nat.le_of_succ_le hId)
      · exact h.positive
  | onTimeout id ms =>
      simp only [Multiplexer.step] at hRun
      split at hRun
      case isTrue hLive => exact h.onTimeout hLive hRun
      case isFalse =>
        cases hRun
        exact h
  | timeout =>
      cases hRun
      exact h.timeout
  | drop id =>
      cases hRun
      split
      case isFalse => exact h
      case isTrue hLive =>
        have hOther : ∀ j, j ≠ id →
            (m.setHandler id { m.handlers id with alive := false }).handlers j = m.handlers j :=
          fun j hj => Function.update_of_ne hj _ _
        have hSelf : (m.setHandler id { m.handlers id with alive := false }).handlers id =
            { m.handlers id with alive := false } := Function.update_self _ _ _
        constructor
        · exact Listed.drop h.listed id
        · intro j hj
          have hId : j ≠ id := by
            rintro rfl
            exact absurd (live_iff.mp hLive).1 (Nat.not_lt.mpr hj)
          rw [hOther j hId]
          exact h.created j hj
        · intro j a hAsked
          by_cases hId : j = id
          · subst hId
            rw [hSelf] at hAsked
            exact h.positive j a hAsked
          · rw [hOther j hId] at hAsked
            exact h.positive j a hAsked
  | requestSent =>
      cases hRun
      exact h.clearExpired

/-- A step that is no registration keeps the schedule. -/
theorem step_iff (hSane : Sane m) (hSchedule : OnSchedule m) {op : Op} (hRun : m.step op = some t) :
    OnSchedule t ↔ m.Keeps op := by
  have hT := hSane.step hRun
  cases op with
  | getHandler =>
      cases hRun
      refine iff_of_true ?_ trivial
      apply OnSchedule.of_periods hT
      · intro id ms hLive hAsked
        obtain ⟨hId, hAlive⟩ := live_iff.mp hLive
        rcases Nat.lt_succ_iff_lt_or_eq.mp hId with hOld | rfl
        · exact (hSchedule.asked id ms (live_iff.mpr ⟨hOld, hAlive⟩) hAsked).1
        · have hNew := hSane.created m.created (Nat.le_refl _)
          have hNone : (m.handlers m.created).asked = some ms := hAsked
          rw [hNew] at hNone
          cases hNone
      · intro id hLive hNone
        obtain ⟨hId, hAlive⟩ := live_iff.mp hLive
        rcases Nat.lt_succ_iff_lt_or_eq.mp hId with hOld | rfl
        · exact hSchedule.silent id (live_iff.mpr ⟨hOld, hAlive⟩) hNone
        · have hNew := hSane.created m.created (Nat.le_refl _)
          show (m.handlers m.created).periodicity = 0 ∧ (m.handlers m.created).called = 0
          rw [hNew]
          exact ⟨rfl, rfl⟩
  | onTimeout id ms =>
      simp only [Multiplexer.step] at hRun
      split at hRun
      case isTrue hLive => exact onTimeout_iff hSane hT hSchedule hLive hRun
      case isFalse hDead =>
        cases hRun
        exact iff_of_true hSchedule fun hLive => absurd hLive hDead
  | timeout =>
      cases hRun
      refine iff_of_true ?_ trivial
      apply hSchedule.same hT (timeout_interval m)
      intro id hLive
      obtain ⟨hAsked, hPeriod, -⟩ := m.timeout_keeps id
      refine ⟨timeout_live m id ▸ hLive, hAsked, hPeriod, ?_⟩
      intro hZero
      rw [timeout_handlers, if_neg]
      rintro ⟨-, hReaches⟩
      simp [reaches, hZero] at hReaches
  | drop id =>
      cases hRun
      refine iff_of_true ?_ trivial
      split
      case isFalse => exact hSchedule
      case isTrue hLive =>
        rw [if_pos hLive] at hT
        apply hSchedule.same hT rfl
        intro j hj
        obtain ⟨hCreated, hAlive⟩ := live_iff.mp hj
        have hId : j ≠ id := by
          rintro rfl
          have hDead : (m.setHandler j { m.handlers j with alive := false }).handlers j =
            { m.handlers j with alive := false } := Function.update_self _ _ _
          rw [hDead] at hAlive
          cases hAlive
        have hSame : (m.setHandler id { m.handlers id with alive := false }).handlers j = m.handlers j :=
          Function.update_of_ne hId _ _
        rw [hSame] at hAlive ⊢
        exact ⟨live_iff.mpr ⟨hCreated, hAlive⟩, rfl, rfl, fun _ => rfl⟩
  | requestSent =>
      cases hRun
      refine iff_of_true ?_ trivial
      apply hSchedule.same hT (clearExpired_interval m)
      intro id hLive
      rw [clearExpired_handlers]
      exact ⟨clearExpired_live m id ▸ hLive, rfl, rfl, fun _ => rfl⟩

theorem updateTimeout_isSome (hPositive : 0 < ms) : ∃ t, m.updateTimeout ms = some t := by
  unfold updateTimeout
  rw [if_neg (Nat.ne_of_gt hPositive)]
  exact ⟨_, rfl⟩

/-- Only the assertion on the milliseconds ends a run. -/
theorem step_isSome {op : Op} (hPositive : op.Positive) : ∃ t, m.step op = some t := by
  cases op with
  | onTimeout id ms =>
      simp only [step]
      split
      case isTrue => exact updateTimeout_isSome hPositive
      case isFalse => exact ⟨m, rfl⟩
  | _ => exact ⟨_, rfl⟩

/-- The handlers are on schedule throughout a run if and only if nobody registers while
another handler has not, and nobody registers again for another interval. A run in which nobody
asks for no time comes to its end. -/
theorem handlers_on_schedule_iff (ops : List Op) :
    (Runs.Throughout step OnSchedule {} ops ↔ Runs.Heeds step Keeps {} ops) ∧
      ((∀ op ∈ ops, op.Positive) → ∃ t, Runs.run step {} ops = some t) := by
  have hKeeps : ∀ {m op t}, Sane m → OnSchedule m → step m op = some t → OnSchedule t → Sane t := by
    intro m op t hSane _ hRun _
    exact hSane.step hRun
  refine ⟨?_, fun hPositive => Runs.run_of_forall (fun _ _ => step_isSome) {} hPositive⟩
  apply Runs.throughout_iff_heeds hKeeps
  · intro m op t hSane hSchedule hRun
    exact step_iff hSane hSchedule hRun
  · exact Sane.init
  · apply OnSchedule.of_periods Sane.init
    · intro _ _ _ hAsked
      cases hAsked
    · intro _ _ _
      exact ⟨rfl, rfl⟩

/-- Two handlers, of which the first registers before the second. -/
theorem handler_off_schedule :
    ¬ Runs.Throughout step OnSchedule {}
      [.getHandler, .getHandler, .onTimeout 0 100, .onTimeout 1 200] := by
  intro h
  have hRun : ((Runs.run step {} [.getHandler, .getHandler, .onTimeout 0 100, .onTimeout 1 200]).map
      fun m => (m.live 1, (m.handlers 1).asked, (m.handlers 1).periodicity * m.timeoutInterval)) =
        some (true, some 200, 100) := by
    decide +kernel
  obtain ⟨m, hLast, hState⟩ := Option.map_eq_some_iff.mp hRun
  obtain ⟨hLive, hRest⟩ := Prod.mk.inj hState
  obtain ⟨hAsked, hProduct⟩ := Prod.mk.inj hRest
  have hPeriod := ((h.last hLast).asked 1 200 hLive hAsked).1
  omega

end Multiplexer

end Doormat.Client
