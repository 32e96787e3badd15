import Mathlib.Data.List.Induction
import Doormat.Protocol.Stable

/-! Persistence: the flag of a connection is a function of what has happened on it, and
once somebody has asked for the connection to be closed it stays down, unless one of three
things happens. -/
namespace Doormat.Protocol

open Bytes Doormat.Http

/-- The message declares a persistent connection, the way `update_persistent` reads it. -/
def persists (m : StructuredData) : Bool :=
  if m.protocolVersion = .HTTP10 then m.has hfConnection && m.getHeader hfConnection = hvKeepalive
  else !m.has hfConnection || m.getHeader hfConnection = hvKeepalive

/-- The message asks for the connection to be closed: `Connection: close`, or HTTP/1.0
without keep-alive. -/
def asksForClose (m : StructuredData) : Bool :=
  m.getHeader hfConnection = hvConnectionClose ||
    m.protocolVersion = .HTTP10 && m.getHeader hfConnection ≠ hvKeepalive

/-- Has the end of the connection been asked for, after one more happening? -/
def askedAfter (asked : Bool) : Happening → Bool
  | .sent m | .received m _ => asked || asksForClose m
  | .persistentSet b => !b
  | _ => asked

/-- A message of the log has asked for the connection to be closed, or the application has,
and the application has not asked for it to persist since. -/
def asked (log : List Happening) : Bool := log.foldl askedAfter false

/-- The flag after one more happening. -/
def flagAfter (flag : Bool) : Happening → Bool
  | .sent m => if m.has hfConnection then m.getHeader hfConnection = hvKeepalive else flag
  | .received m taken => if taken then flag && persists m else flag
  | .persistentSet b => b
  | _ => flag

/-- The flag that a log leads to. -/
def flag (log : List Happening) : Bool := log.foldl flagAfter true

@[simp] theorem asked_append (log : List Happening) (e : Happening) :
    asked (log ++ [e]) = askedAfter (asked log) e := List.foldl_concat _ _ _ _

@[simp] theorem flag_append (log : List Happening) (e : Happening) :
    flag (log ++ [e]) = flagAfter (flag log) e := List.foldl_concat _ _ _ _

/-- The happenings that do no harm to the flag after a log. A local message with
`Connection: keep-alive` must not follow a wish to close; a local HTTP/1.0 message without
`Connection`, and a message that nobody takes, must not ask for the end of a connection
whose flag is up. -/
def Harmless (before : List Happening) : Happening → Prop
  | .sent m => if m.has hfConnection then m.getHeader hfConnection = hvKeepalive → asked before = false
      else asksForClose m = true → flag before = false
  | .received m taken => taken = false → asksForClose m = true → flag before = false
  | _ => True

/-- Every happening of the log is harmless. -/
def Tame (log : List Happening) : Prop :=
  ∀ before e after, log = before ++ e :: after → Harmless before e

theorem Tame.init {log : List Happening} {e : Happening} (h : Tame (log ++ [e])) : Tame log := by
  rintro before e' after rfl
  exact h before e' (after ++ [e]) (by simp)

theorem hvConnectionClose_ne : hvConnectionClose ≠ hvKeepalive := by decide

theorem hvConnectionClose_ne_nil : hvConnectionClose ≠ [] := by decide

theorem getHeader_ne_of_asksForClose {m : StructuredData} (h : asksForClose m = true) :
    m.getHeader hfConnection ≠ hvKeepalive := by
  intro hKeepalive
  simp [asksForClose, hKeepalive, hvConnectionClose_ne.symm] at h

theorem persists_of_asksForClose {m : StructuredData} (h : asksForClose m = true) :
    persists m = false := by
  have hNot := getHeader_ne_of_asksForClose h
  rw [persists]
  split
  case isTrue => simp [hNot]
  case isFalse hVersion =>
    have hClose : m.getHeader hfConnection = hvConnectionClose := by
      simpa [asksForClose, hVersion] using h
    simp [StructuredData.has, hClose, hvConnectionClose_ne, hvConnectionClose_ne_nil]

/-- One more harmless happening leaves the flag down, or takes it down. -/
theorem flagAfter_of_askedAfter {before : List Happening} {e : Happening}
    (hHarmless : Harmless before e) (hBefore : asked before = true → flag before = false)
    (hAsked : askedAfter (asked before) e = true) : flagAfter (flag before) e = false := by
  cases e with
  | sent m =>
      have hOr : asked before = true ∨ asksForClose m = true := by
        simpa [askedAfter] using hAsked
      dsimp only [Harmless] at hHarmless
      rw [flagAfter]
      split
      case isTrue hHas =>
        rw [if_pos hHas] at hHarmless
        apply decide_eq_false
        intro hKeepalive
        rcases hOr with hAsked | hAsks
        · rw [hHarmless hKeepalive] at hAsked
          cases hAsked
        · exact getHeader_ne_of_asksForClose hAsks hKeepalive
      case isFalse hHas =>
        rw [if_neg hHas] at hHarmless
        exact hOr.elim hBefore hHarmless
  | received m taken =>
      have hOr : asked before = true ∨ asksForClose m = true := by
        simpa [askedAfter] using hAsked
      rw [flagAfter]
      split
      case isTrue =>
        rcases hOr with hAsked | hAsks
        · rw [hBefore hAsked, Bool.false_and]
        · rw [persists_of_asksForClose hAsks, Bool.and_false]
      case isFalse hTaken => exact hOr.elim hBefore (hHarmless (by simpa using hTaken))
  | persistentSet b =>
      show b = false
      simpa [askedAfter] using hAsked
  | serialised id bytes => exact hBefore hAsked
  | ended id => exact hBefore hAsked
  | removed id => exact hBefore hAsked

theorem Tame.flag_of_asked {log : List Happening} (h : Tame log) (hAsked : asked log = true) :
    flag log = false := by
  induction log using List.reverseRec with
  | nil => cases hAsked
  | append_singleton log e ih =>
      rw [asked_append] at hAsked
      rw [flag_append]
      exact flagAfter_of_askedAfter (h log e [] rfl) (ih h.init) hAsked

/-- A happening that is not harmless brings the flag up, or leaves it up, although the end
has been asked for. -/
theorem asked_and_flag_of_not_harmless {before : List Happening} {e : Happening}
    (h : ¬ Harmless before e) :
    asked (before ++ [e]) = true ∧ flag (before ++ [e]) = true := by
  rw [asked_append, flag_append]
  cases e with
  | sent m =>
      by_cases hHas : m.has hfConnection = true
      · rw [Harmless, if_pos hHas, Classical.not_imp, Bool.not_eq_false] at h
        simp [askedAfter, flagAfter, hHas, h]
      · rw [Harmless, if_neg hHas, Classical.not_imp, Bool.not_eq_false] at h
        simp [askedAfter, flagAfter, hHas, h]
  | received m taken =>
      rw [Harmless, Classical.not_imp, Classical.not_imp, Bool.not_eq_false] at h
      simp [askedAfter, flagAfter, h]
  | persistentSet b => exact absurd trivial h
  | serialised id bytes => exact absurd trivial h
  | ended id => exact absurd trivial h
  | removed id => exact absurd trivial h

/-- The flag is down whenever the end has been asked for, exactly when every happening is
harmless. -/
theorem tame_iff {log : List Happening} : Tame log ↔
    ∀ before after, log = before ++ after → asked before = true → flag before = false := by
  constructor
  · rintro h before after rfl hAsked
    apply Tame.flag_of_asked _ hAsked
    rintro first e rest rfl
    exact h first e (rest ++ after) (by simp)
  · rintro h before e after rfl
    by_contra hHarmful
    obtain ⟨hAsked, hFlag⟩ := asked_and_flag_of_not_harmless hHarmful
    rw [h (before ++ [e]) after (by simp) hAsked] at hFlag
    cases hFlag

namespace Http1

/-- The flag of a connection is the one of its log. -/
def Flagged (c : Http1) : Prop := c.persistent = flag c.log

theorem updatePersistent_eq (c : Http1) (m : StructuredData) :
    c.updatePersistent m = (c.persistent && persists m) := by
  rw [updatePersistent, persists]
  split
  · rfl
  · rfl

theorem Flagged.takeDecoded {c : Http1} (m : StructuredData) (taken : Bool) (h : c.Flagged) :
    (c.takeDecoded m taken).Flagged := by
  have hAppend := flag_append c.log (.received m taken)
  rw [← show c.persistent = flag c.log from h, flagAfter, ← updatePersistent_eq] at hAppend
  exact hAppend.symm

theorem Flagged.stable : Stable Flagged fun _ _ => True where
  persistentSet b _ := (flag_append _ (.persistentSet b)).symm
  serialise id bytes h := h.trans (flag_append _ (.serialised id bytes)).symm
  feedback id h := h.trans (flag_append _ (.ended id)).symm
  removed id h := h.trans (flag_append _ (.removed id)).symm
  sent {c} id m h := by
    have hAppend := flag_append c.log (.sent m.data)
    rw [← show c.persistent = flag c.log from h] at hAppend
    exact hAppend.symm
  received m taken h := h.takeDecoded m taken
  shows _ m _ h := h.takeDecoded m true
  doWrite h := by
    unfold Flagged at h ⊢
    rwa [doWrite_persistent, doWrite_log]
  written r _ h := by
    unfold Flagged at h ⊢
    rwa [written_persistent, written_log]

/-- In every run, the flag is the one that the log leads to; it is down at every moment
at which the end of the connection has been asked for, exactly when all that happens is
harmless; and then the connection should stop once its exchanges have been flushed. -/
theorem persistence_only_decreases_iff (role : Role) (sent : Http1 → List UserOp) (fuel : Nat)
    (ops : List Op) (c : Http1) (hRun : run sent fuel { role := role } ops = .ok c) :
    c.persistent = flag c.log ∧
    ((∀ before after, c.log = before ++ after → asked before = true → flag before = false) ↔
      Tame c.log) ∧
    (Tame c.log → asked c.log = true →
      c.persistent = false ∧ (c.localObjects = [] → c.shouldStop = true)) := by
  have hFlagged : c.persistent = flag c.log :=
    Flagged.stable.run (c := { role := role }) rfl (writesWithin_true sent fuel _ ops) hRun
  refine ⟨hFlagged, tame_iff.symm, ?_⟩
  intro hTame hAsked
  have hDown : c.persistent = false := by
    rw [hFlagged]
    exact hTame.flag_of_asked hAsked
  refine ⟨hDown, ?_⟩
  intro hLocals
  simp [shouldStop, hLocals, hDown]

/-- A request that asks for the connection to be closed is decoded before the response to
an earlier request has been sent, and that response declares keep-alive. -/
def revivingRun : List Op :=
  let http11 := StructuredData.fresh.setProtocol .HTTP11
  let request := fun keepalive =>
    Message.request { HttpRequest.fresh with toStructuredData := http11.setKeepalive keepalive }
  let response :=
    Message.response { HttpResponse.fresh 200 with toStructuredData := http11.setKeepalive true }
  [.decodingStart, .decodedHeaders (request true), .decodingEnd,
    .decodingStart, .decodedHeaders (request false), .decodingEnd, .user (.headers 0 response)]

theorem persistence_only_decreases_iff_reviving :
    ∃ c, run (fun _ => []) 9 { role := .server } revivingRun = .ok c ∧
    c.persistent = flag c.log ∧
    ((∀ before after, c.log = before ++ after → asked before = true → flag before = false) ↔
      Tame c.log) ∧
    (Tame c.log → asked c.log = true →
      c.persistent = false ∧ (c.localObjects = [] → c.shouldStop = true)) :=
  ⟨_, rfl, persistence_only_decreases_iff .server (fun _ => []) 9 revivingRun _ rfl⟩

/-- The end of the connection has been asked for, and the flag is up again. -/
theorem persistence_revived :
    (run (fun _ => []) 9 { role := .server } revivingRun).map
      (fun c => (asked c.log, c.persistent)) = .ok (true, true) := by
  decide

end Http1

end Doormat.Protocol
