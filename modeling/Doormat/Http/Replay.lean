import Doormat.Parser.Restart
import Doormat.Http.Codec

/-! The decoder as two halves: the parser turns bytes into callbacks, and the codec
turns callbacks into events. A run of the decoder that meets no error is the
parser's run followed by the codec's. -/
namespace Doormat.Http

open Bytes Doormat.Parser

variable {υ : Type}

/-- Why a callback of the codec does not succeed: it ends the process, or it returns an
error and leaves `d`. -/
inductive Halt (υ : Type)
  | fault (f : Fault)
  | failed (e : Errno) (d : Impl υ)

/-- The codec after a callback that succeeds. -/
def accept (e : Errno) : Except Fault (Nat × Impl υ) → Except (Halt υ) (Impl υ)
  | .error f => .error (.fault f)
  | .ok (rc, d) => if rc ≠ 0 then .error (.failed e d) else .ok d

/-- One callback of the codec. -/
def Impl.apply (cb : Callbacks υ) (d : Impl υ) : Callback → Except (Halt υ) (Impl υ)
  | .notify p c => accept c.errno ((settings cb).notification p c d)
  | .data code m bytes => accept m.errno ((settings cb).data code m bytes d)
  | .headersComplete p => accept .cbHeadersComplete (d.onHeadersComplete cb p)
  | .messageComplete => .ok (d.completeMessage cb)

/-- The callbacks of a list, in order. -/
def Impl.replay (cb : Callbacks υ) (d : Impl υ) (cs : List Callback) : Except (Halt υ) (Impl υ) :=
  cs.foldlM (Impl.apply cb) d

namespace Impl

variable {cb : Callbacks υ} {d d' : Impl υ}

@[simp] theorem replay_nil : d.replay cb [] = .ok d := rfl

theorem replay_cons_eq_ok {c : Callback} {cs : List Callback} :
    d.replay cb (c :: cs) = .ok d' ↔ ∃ e, d.apply cb c = .ok e ∧ e.replay cb cs = .ok d' := by
  simp only [replay, List.foldlM_cons]
  rcases d.apply cb c with h | e
  · constructor
    · nofun
    · rintro ⟨e, hApply, -⟩
      cases hApply
  · constructor
    · exact fun hRest => ⟨e, rfl, hRest⟩
    · rintro ⟨e', hApply, hRest⟩
      cases hApply
      exact hRest

theorem replay_append_eq_ok {cs cs' : List Callback} :
    d.replay cb (cs ++ cs') = .ok d' ↔ ∃ e, d.replay cb cs = .ok e ∧ e.replay cb cs' = .ok d' := by
  induction cs generalizing d with
  | nil => simp
  | cons c cs ih =>
      simp only [List.cons_append, replay_cons_eq_ok, ih]
      constructor
      · rintro ⟨e, hApply, f, hFront, hBack⟩
        exact ⟨f, ⟨e, hApply, hFront⟩, hBack⟩
      · rintro ⟨f, ⟨e, hApply, hFront⟩, hBack⟩
        exact ⟨e, hApply, f, hFront, hBack⟩

theorem accept_eq_ok {e : Errno} {r : Except Fault (Nat × Impl υ)} :
    accept e r = .ok d' ↔ r = .ok (0, d') := by
  rcases r with f | ⟨rc, d⟩
  · simp [accept]
  · by_cases hrc : rc = 0 <;> simp [accept, hrc]

end Impl

/-- The status code matters to the status only. -/
theorem settings_data_code (cb : Callbacks υ) (code : Nat) (m : Mark) :
    (settings cb).data (m.code code) m = (settings cb).data code m := by
  cases m <;> rfl

/-- A step whose callbacks succeed runs as it emits. -/
theorem run_of_emit {cb : Callbacks υ} {prog : Prog} {ch : UInt8} {n : Nat}
    {marked : Option (Mark × ByteString)} {d d' : Impl υ} {flow : Flow} {cs : List Callback}
    (hEmit : prog.emit ch n marked = some (flow, cs)) (hReplay : d.replay cb cs = .ok d') :
    prog.run (settings cb) ch n marked d = .ok (flow, d') := by
  induction prog generalizing n marked d cs with
  | next p loop =>
      obtain ⟨rfl, rfl⟩ := by simpa [Prog.emit] using hEmit
      cases hReplay
      rfl
  | leave p =>
      obtain ⟨rfl, rfl⟩ := by simpa [Prog.emit] using hEmit
      cases hReplay
      rfl
  | fail p e => cases hEmit
  | abort => cases hEmit
  | mark m k ih => exact ih hEmit hReplay
  | data p m inclusive advance k ih =>
      rcases marked with _ | ⟨set, bytes⟩
      · exact ih hEmit hReplay
      by_cases hm : set = m
      · simp only [Prog.emit, hm, ne_eq, not_true_eq_false, if_false] at hEmit
        obtain ⟨rest, hRest, rfl⟩ := Emission.prepend_eq_some.mp hEmit
        obtain ⟨e, hApply, hReplay⟩ := Impl.replay_cons_eq_ok.mp hReplay
        have hCall := Impl.accept_eq_ok.mp hApply
        rw [settings_data_code] at hCall
        simp only [Prog.run, hm, ne_eq, not_true_eq_false, if_false, hCall]
        exact ih hRest hReplay
      · simp only [Prog.emit, ne_eq, hm, not_false_eq_true, if_true] at hEmit
        simp only [Prog.run, ne_eq, hm, not_false_eq_true, if_true]
        exact ih hEmit hReplay
  | count p v k ih =>
      simp only [Prog.emit] at hEmit
      split at hEmit
      · cases hEmit
      case isFalse hWithin =>
        rw [Prog.run, if_neg hWithin]
        exact ih hEmit hReplay
  | clearNread k ih => exact ih hEmit hReplay
  | assertNread v k ih =>
      simp only [Prog.emit, Option.ite_none_right_eq_some] at hEmit
      rw [Prog.run, if_pos hEmit.1]
      exact ih hEmit.2 hReplay
  | notify p c advance k ih =>
      obtain ⟨rest, hRest, rfl⟩ := Emission.prepend_eq_some.mp hEmit
      obtain ⟨e, hApply, hReplay⟩ := Impl.replay_cons_eq_ok.mp hReplay
      have hCall := Impl.accept_eq_ok.mp hApply
      simp only [Prog.run, hCall]
      exact ih hRest hReplay
  | headersComplete p k ih =>
      obtain ⟨rest, hRest, rfl⟩ := Emission.prepend_eq_some.mp hEmit
      obtain ⟨e, hApply, hReplay⟩ := Impl.replay_cons_eq_ok.mp hReplay
      have hCall : (settings cb).onHeadersComplete p d = .ok (0, e) := Impl.accept_eq_ok.mp hApply
      simp only [Prog.run, hCall]
      exact ih 0 hRest hReplay
  | messageComplete p k ih =>
      obtain ⟨rest, hRest, rfl⟩ := Emission.prepend_eq_some.mp hEmit
      obtain ⟨e, hApply, hReplay⟩ := Impl.replay_cons_eq_ok.mp hReplay
      cases hApply
      exact ih fresh.toFields hRest hReplay

theorem bind_eq_ok {ε α β : Type} {x : Except ε α} {f : α → Except ε β} {b : β} :
    x >>= f = .ok b ↔ ∃ a, x = .ok a ∧ f a = .ok b := by
  cases x with
  | error e =>
      constructor
      · nofun
      · rintro ⟨a, hx, -⟩
        cases hx
  | ok a =>
      constructor
      · exact fun hf => ⟨a, rfl, hf⟩
      · rintro ⟨a', hx, hf⟩
        cases hx
        exact hf

theorem Impl.onHeadersComplete_code {cb : Callbacks υ} {p : Fields} {d d' : Impl υ} {rc : Nat}
    (h : d.onHeadersComplete cb p = .ok (rc, d')) : rc = 0 := by
  unfold onHeadersComplete at h
  split at h
  · cases h
  · obtain ⟨m, -, h⟩ := bind_eq_ok.mp h
    obtain ⟨e, -, h⟩ := bind_eq_ok.mp h
    cases h
    rfl

/-- A step that meets no error emits what it has run. -/
theorem emit_of_run {cb : Callbacks υ} {prog : Prog} {ch : UInt8} {n : Nat}
    {marked : Option (Mark × ByteString)} {d d' : Impl υ} {flow : Flow}
    (hRun : prog.run (settings cb) ch n marked d = .ok (flow, d'))
    (hFlow : ∀ p consumed, flow = .ret p consumed → p.errno = none) :
    ∃ cs, prog.emit ch n marked = some (flow, cs) ∧ d.replay cb cs = .ok d' := by
  induction prog generalizing n marked d with
  | next p loop =>
      cases hRun
      exact ⟨[], rfl, rfl⟩
  | leave p =>
      cases hRun
      exact ⟨[], rfl, rfl⟩
  | fail p e =>
      cases hRun
      cases hFlow _ _ rfl
  | abort => cases hRun
  | mark m k ih => exact ih hRun
  | data p m inclusive advance k ih =>
      rcases marked with _ | ⟨set, bytes⟩
      · exact ih hRun
      by_cases hm : set = m
      · simp only [Prog.run, hm, ne_eq, not_true_eq_false, if_false] at hRun
        obtain ⟨⟨rc, e⟩, hCall, hRun⟩ := bind_eq_ok.mp hRun
        by_cases hrc : rc = 0
        · subst hrc
          obtain ⟨cs, hEmit, hReplay⟩ := ih hRun
          refine ⟨.data (m.code p.statusCode) m (if inclusive then bytes ++ [ch] else bytes) :: cs,
            ?_, Impl.replay_cons_eq_ok.mpr ⟨e, Impl.accept_eq_ok.mpr ?_, hReplay⟩⟩
          · simp only [Prog.emit, hm, ne_eq, not_true_eq_false, if_false, hEmit,
              Emission.prepend_some]
          · rw [settings_data_code]
            exact hCall
        · simp only [hrc, not_false_eq_true, if_true] at hRun
          cases hRun
          cases hFlow _ _ rfl
      · simp only [Prog.run, ne_eq, hm, not_false_eq_true, if_true] at hRun
        simp only [Prog.emit, ne_eq, hm, not_false_eq_true, if_true]
        exact ih hRun
  | count p v k ih =>
      simp only [Prog.run] at hRun
      split at hRun
      · cases hRun
        cases hFlow _ _ rfl
      case isFalse hWithin =>
        rw [Prog.emit, if_neg hWithin]
        exact ih hRun
  | clearNread k ih => exact ih hRun
  | assertNread v k ih =>
      simp only [Prog.run] at hRun
      split at hRun
      case isTrue hEq =>
        rw [Prog.emit, if_pos hEq]
        exact ih hRun
      · cases hRun
  | notify p c advance k ih =>
      obtain ⟨⟨rc, e⟩, hCall, hRun⟩ := bind_eq_ok.mp hRun
      by_cases hrc : rc = 0
      · subst hrc
        obtain ⟨cs, hEmit, hReplay⟩ := ih hRun
        exact ⟨.notify p c :: cs, by rw [Prog.emit, hEmit]; rfl,
          Impl.replay_cons_eq_ok.mpr ⟨e, Impl.accept_eq_ok.mpr hCall, hReplay⟩⟩
      · simp only [ne_eq, hrc, not_false_eq_true, if_true] at hRun
        cases hRun
        cases hFlow _ _ rfl
  | headersComplete p k ih =>
      obtain ⟨⟨rc, e⟩, hCall, hRun⟩ := bind_eq_ok.mp hRun
      obtain rfl := Impl.onHeadersComplete_code hCall
      obtain ⟨cs, hEmit, hReplay⟩ := ih 0 hRun
      exact ⟨.headersComplete p :: cs, by rw [Prog.emit, hEmit]; rfl,
        Impl.replay_cons_eq_ok.mpr ⟨e, Impl.accept_eq_ok.mpr hCall, hReplay⟩⟩
  | messageComplete p k ih =>
      obtain ⟨cs, hEmit, hReplay⟩ := ih fresh.toFields hRun
      exact ⟨.messageComplete :: cs, by rw [Prog.emit]; exact Emission.prepend_eq_some.mpr ⟨cs, hEmit, rfl⟩,
        Impl.replay_cons_eq_ok.mpr ⟨_, rfl, hReplay⟩⟩

end Doormat.Http
