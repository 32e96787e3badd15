import Mathlib.Data.List.Chain
import Doormat.Http.Beside

/-! Messages that end with their headers. The parser decides by the header fields alone
whether a body follows; where none does, the completion is the next thing that the codec
does, and the next byte begins the next message. -/
namespace Doormat.Parser

open Bytes

/-- Does `s_headers_done` complete the message, with the answer 0 of
`on_headers_complete`? -/
def Fields.endsWithHeaders (p : Fields) : Bool :=
  let hasBody := p.flags.chunked || (p.contentLength > 0 && p.contentLength ≠ ullongMax)
  p.upgrade && (p.method = .CONNECT || p.flags.skipbody || !hasBody) || p.flags.skipbody ||
    !p.flags.chunked && (p.contentLength = 0 || p.contentLength = ullongMax && !p.messageNeedsEof)

/-- A program that completes the message next. -/
def Prog.Ends : Prog → Prop
  | .clearNread k => k.Ends
  | .messageComplete _ k => k fresh.toFields = .next fresh.toFields .outer ∨ k fresh.toFields = .leave fresh.toFields
  | _ => False

/-- What `s_headers_done` does about the message with these fields. -/
def Frames (p : Fields) (prog : Prog) : Prop :=
  if p.endsWithHeaders then prog.Ends else ∃ q, prog = .clearNread (.next q .outer)

theorem headersDone_frames (p : Fields) : Frames p (headersDone p LF) := by
  simp only [headersDone, Fields.strictCheck]
  rw [if_neg (fun hNe => hNe rfl)]
  by_cases hEnds : p.endsWithHeaders = true
  · rw [Frames, if_pos hEnds]
    simp only [Fields.endsWithHeaders, Bool.or_eq_true, Bool.and_eq_true] at hEnds
    simp only [Prog.Ends]
    repeat' split
    all_goals first
      | exact .inl rfl
      | exact .inr rfl
      | simp_all
  · rw [Frames, if_neg hEnds]
    simp only [Fields.endsWithHeaders] at hEnds
    repeat' split
    all_goals first
      | exact ⟨_, rfl⟩
      | simp_all

end Doormat.Parser

namespace Doormat.Http

open Bytes Doormat.Parser

variable {υ : Type} {cb : Callbacks υ}

/-! ### The pace of the callbacks -/

/-- Where the callbacks are: between two messages, within one, or at the end of headers
that end their message. `astray` is none of these. -/
inductive Pace
  | between | within | due | astray
deriving DecidableEq

namespace Pace

/-- A callback in the middle of a message. -/
def go : Pace → Pace
  | .within => .within
  | _ => .astray

def notify (c : Notification) (a : Pace) : Pace :=
  if c = .messageBegin ∧ a = .between then .within else a.go

def headersComplete (p : Fields) : Pace → Pace
  | .within => if p.endsWithHeaders then .due else .within
  | _ => .astray

def messageComplete : Pace → Pace
  | .within | .due => .between
  | _ => .astray

theorem go_cases {a : Pace} (h : a.go ≠ .astray) : a = .within := by
  cases a with
  | within => rfl
  | between | due | astray => exact absurd rfl h

theorem notify_cases {a : Pace} {c : Notification} (h : a.notify c ≠ .astray) :
    a.notify c = .within ∧ (a = .within ∨ c = .messageBegin ∧ a = .between) := by
  unfold notify at h ⊢
  split at h
  case isTrue hBegins =>
    rw [if_pos hBegins]
    exact ⟨rfl, .inr hBegins⟩
  case isFalse hNot =>
    obtain rfl := go_cases h
    rw [if_neg hNot]
    exact ⟨rfl, .inl rfl⟩

theorem headersComplete_cases {a : Pace} {p : Fields} (h : a.headersComplete p ≠ .astray) :
    a = .within := by
  cases a with
  | within => rfl
  | between | due | astray => exact absurd rfl h

theorem messageComplete_cases {a : Pace} (h : a.messageComplete ≠ .astray) :
    a.messageComplete = .between ∧ (a = .within ∨ a = .due) := by
  cases a with
  | within => exact ⟨rfl, .inl rfl⟩
  | due => exact ⟨rfl, .inr rfl⟩
  | between | astray => exact absurd rfl h

end Pace

def pacer : Gatherer Pace where
  start _ := .go
  extend _ _ a := a
  notify _ := .notify
  headersComplete := .headersComplete
  messageComplete := .messageComplete

@[simp] theorem pacer_start (m : Mark) (a : Pace) : pacer.start m a = a.go := rfl

@[simp] theorem pacer_extend (m : Mark) (ch : UInt8) (a : Pace) : pacer.extend m ch a = a := rfl

@[simp] theorem pacer_notify (p : Fields) (c : Notification) (a : Pace) :
    pacer.notify p c a = a.notify c := rfl

@[simp] theorem pacer_headersComplete (p : Fields) (a : Pace) :
    pacer.headersComplete p a = a.headersComplete p := rfl

@[simp] theorem pacer_messageComplete (a : Pace) : pacer.messageComplete a = a.messageComplete := rfl

@[simp] theorem pacer_data (m : Mark) (bytes : ByteString) (a : Pace) : pacer.data m bytes a = a.go := by
  have hSame : ∀ b : Pace, bytes.foldl (fun b ch => pacer.extend m ch b) b = b := by
    intro b
    induction bytes with
    | nil => rfl
    | cons ch bytes ih => exact ih
  exact hSame _

/-- Between two messages the parser is as at the start. -/
def Settled (p : Fields) (loop : Loop) (cur : Option Mark) (a : Pace) : Prop :=
  a = .within ∨ a = .between ∧ p = fresh.toFields ∧ loop = .outer ∧ cur = none

theorem ends_paced {prog : Prog} {ch : UInt8} (h : prog.Ends) :
    prog.wp pacer (· ≠ .astray) ch Settled none .due := by
  induction prog with
  | clearNread k ih => exact ih h
  | messageComplete p k ih =>
      refine ⟨rfl, by decide, ?_⟩
      rcases h with hNext | hLeave
      · rw [hNext]
        exact .inr ⟨rfl, rfl, rfl, rfl⟩
      · rw [hLeave]
        exact ⟨rfl, .inr ⟨rfl, rfl, rfl, rfl⟩⟩
  | _ => exact h.elim

/-- Within a message the callbacks keep pace. -/
theorem within_paced {prog : Prog} {ch : UInt8} {bound n : Nat} {cleared : Bool} {cur : Option Mark}
    (h : prog.AfterHeaders Frames) (hSound : prog.Sound bound cur cleared n) :
    prog.wp pacer (· ≠ .astray) ch Settled cur .within := by
  induction prog generalizing cur n cleared with
  | next p loop => exact .inl (by cases cur <;> rfl)
  | leave p => exact h.elim
  | fail p e => trivial
  | abort => trivial
  | mark m k ih =>
      obtain ⟨hCur, hSound⟩ := hSound
      have hMarked := ih h hSound
      rcases hCur with rfl | rfl
      · exact hMarked
      · exact hMarked
  | data p m inclusive advance k ih =>
      have hRest := ih h hSound
      simp only [Prog.wp, pacer_extend, ite_self]
      split
      case isTrue hm =>
        rw [if_pos hm] at hRest
        exact ⟨by decide, hRest⟩
      case isFalse hm =>
        rw [if_neg hm] at hRest
        exact hRest
  | count p v k ih => exact ih h hSound.2.2
  | clearNread k ih => exact ih h hSound
  | assertNread v k ih => exact ih h hSound.2
  | notify p c advance k ih =>
      obtain ⟨rfl, hSound⟩ := hSound
      have hWithin : pacer.notify p c .within = .within := by
        cases c <;> rfl
      rw [Prog.wp, hWithin]
      exact ⟨rfl, by decide, ih h hSound⟩
  | headersComplete p k ih =>
      obtain ⟨rfl, hSound⟩ := hSound
      have hFrames : Frames p (k 0) := h
      unfold Frames at hFrames
      refine ⟨rfl, ?_⟩
      rw [pacer_headersComplete, Pace.headersComplete]
      split
      case isTrue hEnds =>
        rw [if_pos hEnds] at hFrames
        exact ⟨by decide, ends_paced hFrames⟩
      case isFalse hEnds =>
        rw [if_neg hEnds] at hFrames
        obtain ⟨q, hNext⟩ := hFrames
        rw [hNext]
        exact ⟨by decide, .inl rfl⟩
  | messageComplete p k ih =>
      obtain ⟨rfl, -⟩ := hSound
      refine ⟨rfl, by decide, ?_⟩
      rcases h with hNext | hLeave
      · rw [hNext]
        exact .inr ⟨rfl, rfl, rfl, rfl⟩
      · rw [hLeave]
        exact ⟨rfl, .inr ⟨rfl, rfl, rfl, rfl⟩⟩

/-- Between two messages nothing comes but the beginning of the next one. -/
theorem between_paced (ch : UInt8) :
    (step fresh.toFields .outer ch).wp pacer (· ≠ .astray) ch Settled none .between := by
  have hWithin : Pace.within ≠ .astray := nofun
  show (startReqOrRes fresh.toFields ch).wp pacer (· ≠ .astray) ch Settled none .between
  unfold startReqOrRes
  split
  · exact .inr ⟨rfl, rfl, rfl, rfl⟩
  split
  · exact ⟨rfl, hWithin, .inl rfl⟩
  case isFalse hBlank _ =>
    simp only [startReq, if_neg hBlank]
    repeat' split
    · trivial
    · trivial
    · exact ⟨rfl, hWithin, .inl rfl⟩

/-! ### The trace -/

/-- The event announces headers that end their message. -/
def Event.Awaits : Event → Prop
  | .headersDone p _ => p.endsWithHeaders = true
  | _ => False

/-- After headers that end their message the completion comes next. -/
def Prompt (ev next : Event) : Prop := ev.Awaits → next = .completion

/-- The codec has come as far as the callbacks, and has been prompt. -/
structure Paces (a : Pace) (d : Impl υ) : Prop where
  prompt : d.trace.IsChain Prompt
  steady : a ≠ .due → ∀ ev ∈ d.trace.getLast?, ¬ ev.Awaits
  within : a = .within → ∀ ev ∈ d.trace.getLast?, ev ≠ .completion
  due : a = .due → d.gotHeader = false

theorem setVersion_gotHeader (p : Fields) (d : Impl υ) : (d.setVersion p).gotHeader = d.gotHeader := by
  unfold Impl.setVersion Impl.chooseVersion
  split
  · rfl
  · rfl

section Paces

variable {a b : Pace} {d e : Impl υ}

/-- Nothing is recorded. -/
theorem Paces.same (h : Paces .within d) (hTrace : e.trace = d.trace) : Paces .within e where
  prompt := hTrace ▸ h.prompt
  steady := hTrace ▸ h.steady
  within := hTrace ▸ h.within
  due hDue := by cases hDue

/-- One more event is recorded. -/
theorem Paces.record {ev : Event} (h : Paces a d) (hTrace : e.trace = d.trace ++ [ev])
    (hNext : a = .due → ev = .completion) (hSteady : b ≠ .due → ¬ ev.Awaits)
    (hWithin : b = .within → ev ≠ .completion) (hDue : b = .due → e.gotHeader = false) :
    Paces b e := by
  have hLast : e.trace.getLast? = some ev := by
    rw [hTrace, List.getLast?_concat]
  refine ⟨?_, ?_, ?_, hDue⟩
  · rw [hTrace]
    apply List.isChain_append.mpr
    refine ⟨h.prompt, List.isChain_singleton ev, ?_⟩
    rintro x hx y hy hAwaits
    obtain rfl : ev = y := by simpa using hy
    by_cases hPace : a = .due
    · exact hNext hPace
    · exact absurd hAwaits (h.steady hPace x hx)
  · intro hb x hx
    rw [hLast] at hx
    cases hx
    exact hSteady hb
  · intro hb x hx
    rw [hLast] at hx
    cases hx
    exact hWithin hb

/-- One more event is recorded within a message. -/
theorem Paces.minor {ev : Event} (h : Paces a d) (hPace : a ≠ .due) (hTrace : e.trace = d.trace ++ [ev])
    (hMinor : ¬ ev.Awaits) (hWithin : ev ≠ .completion) : Paces .within e :=
  h.record hTrace (fun hDue => absurd hDue hPace) (fun _ => hMinor) (fun _ => hWithin) fun hDue => by
    cases hDue

theorem Paces.flushTrailer (h : Paces .within d) : Paces .within (d.flushTrailer cb) := by
  have hPace : Pace.within ≠ .due := nofun
  unfold Impl.flushTrailer
  split
  · exact h.minor hPace rfl id fun hEq => Event.noConfusion hEq
  · exact h

theorem Paces.announceHeaders {p : Fields} (h : Paces .within d) (hGot : d.gotHeader = false) :
    Paces (Pace.headersComplete p .within) (d.announceHeaders cb p) := by
  have hPace : Pace.within ≠ .due := nofun
  by_cases hEnds : p.endsWithHeaders = true
  · have hDue : Pace.headersComplete p .within = .due := if_pos hEnds
    rw [hDue]
    exact h.record rfl (fun hEq => absurd hEq hPace) (fun hNot => absurd rfl hNot)
      (fun hEq => absurd hEq.symm hPace) fun _ => hGot
  · have hWithin : Pace.headersComplete p .within = .within := if_neg hEnds
    rw [hWithin]
    exact h.minor hPace rfl hEnds fun hEq => Event.noConfusion hEq

theorem Paces.completeMessage (h : Paces a d) (hPace : a = .within ∨ a = .due) :
    Paces .between (d.completeMessage cb) := by
  have hFlushed : Paces a (d.flushTrailer cb) := by
    rcases hPace with rfl | rfl
    · exact h.flushTrailer
    · rw [Impl.flushTrailer, h.due rfl]
      exact h
  exact hFlushed.record rfl (fun _ => rfl) (fun _ => id) (fun hEq => Pace.noConfusion hEq)
    fun hEq => Pace.noConfusion hEq

/-- A callback that does not go astray keeps the pace. -/
theorem Paces.accepts {c : Callback} (h : Paces a d) (hGood : pacer.next a c ≠ .astray)
    (hAccepts : Impl.Accepts cb d c e) : Paces (pacer.next a c) e := by
  have hData : ∀ {code m bytes}, c = .data code m bytes → a = .within ∧ pacer.next a c = .within := by
    rintro code m bytes rfl
    have hSame : pacer.next a (.data code m bytes) = a.go := pacer_data m bytes a
    rw [hSame] at hGood ⊢
    obtain rfl := Pace.go_cases hGood
    exact ⟨rfl, rfl⟩
  cases hAccepts with
  | messageBegin | messageBeginAgain =>
      obtain ⟨hNext, hPace⟩ := Pace.notify_cases hGood
      have hDue : a ≠ .due := by
        rintro rfl
        rcases hPace with hEq | ⟨-, hEq⟩
        · cases hEq
        · cases hEq
      show Paces (a.notify .messageBegin) _
      rw [hNext]
      exact h.minor hDue rfl id fun hEq => Event.noConfusion hEq
  | chunk hChunk =>
      rename_i p c
      obtain ⟨hNext, hPace⟩ := Pace.notify_cases hGood
      obtain rfl := hPace.resolve_right fun hBegins => hChunk hBegins.1
      show Paces (Pace.within.notify c) _
      rw [hNext]
      exact h.same rfl
  | url | status | field | value | ignored =>
      obtain ⟨rfl, hNext⟩ := hData rfl
      rw [hNext]
      exact h.same rfl
  | nextField =>
      obtain ⟨rfl, hNext⟩ := hData rfl
      rw [hNext]
      exact h.minor (fun hEq => Pace.noConfusion hEq) rfl id fun hEq => Event.noConfusion hEq
  | trailerField =>
      obtain ⟨rfl, hNext⟩ := hData rfl
      rw [hNext]
      exact h.flushTrailer.same rfl
  | body =>
      obtain ⟨rfl, hNext⟩ := hData rfl
      rw [hNext]
      exact h.minor (fun hEq => Pace.noConfusion hEq) rfl id fun hEq => Event.noConfusion hEq
  | headersComplete hMajor hInstalled hGot =>
      rename_i p
      obtain rfl := Pace.headersComplete_cases hGood
      have hSet : Paces .within (d.setVersion p) := h.same (setVersion_trace p d)
      exact hSet.announceHeaders ((setVersion_gotHeader p d).trans hGot)
  | lastHeader hMajor hInstalled hGot hHeader =>
      rename_i p data
      obtain rfl := Pace.headersComplete_cases hGood
      have hSet : Paces .within (d.setVersion p) := h.same (setVersion_trace p d)
      have hTaken : Paces .within ((d.setVersion p).takeHeader data) :=
        hSet.minor (fun hEq => Pace.noConfusion hEq) rfl id fun hEq => Event.noConfusion hEq
      exact hTaken.announceHeaders rfl
  | messageComplete =>
      obtain ⟨hNext, hPace⟩ := Pace.messageComplete_cases hGood
      show Paces a.messageComplete _
      rw [hNext]
      exact h.completeMessage hPace

end Paces

/-- The codec keeps the pace, unless there has been an error. -/
def InPace (a : Pace) (d : Impl υ) : Prop := Sound d ∧ ((∃ ev ∈ d.trace, ev.IsError) ∨ Paces a d)

/-- An error is recorded after all that has been. -/
theorem Impl.Accepts.error_stays {d e : Impl υ} {c : Callback} (h : Impl.Accepts cb d c e)
    (hError : ∃ ev ∈ d.trace, ev.IsError) : ∃ ev ∈ e.trace, ev.IsError := by
  obtain ⟨ev, hEv, hIs⟩ := hError
  refine ⟨ev, ?_, hIs⟩
  rcases h.records with hMinor | ⟨p, -, hAnnounced⟩
  · obtain ⟨evs, hTrace, -⟩ := hMinor.trace
    rw [hTrace]
    exact List.mem_append_left _ hEv
  · obtain ⟨m, evs, hTrace, -⟩ := hAnnounced.trace
    rw [hTrace, List.append_assoc]
    exact List.mem_append_left _ hEv

/-- The decoder keeps the pace. -/
theorem pace_invariant (cb : Callbacks υ) :
    Invariant cb pacer (· ≠ .astray) InPace Sound (fun _ => True) Settled fun _ _ => True where
  listens :=
    { ok := by
        intro a d c e hPace hGood hApply
        obtain ⟨hSound, hTrace⟩ := hPace
        obtain ⟨hAccepts, hSound'⟩ := hSound.accepts hApply
        refine ⟨hSound', ?_⟩
        exact hTrace.imp hAccepts.error_stays fun h => h.accepts hGood hAccepts
      failed := fun hPace _ hApply => (hPace.1.fails hApply).2.2
      fault := fun _ _ _ => trivial
      always := fun hPace => hPace.1 }
  step {l ch v} hl hSettled _ := by
    rcases hSettled with rfl | ⟨rfl, hFields, hLoop, hMark⟩
    · exact within_paced (step_afterHeaders headersDone_frames _ _ ch) (step_sound hl ch)
    · rw [hFields, hLoop, hMark]
      exact between_paced ch
  good {p loop cur v} hSettled := by
    rcases hSettled with rfl | ⟨rfl, -⟩
    · nofun
    · nofun
  cut {l v} _ hSettled := by
    unfold Enters
    rcases hSettled with rfl | ⟨rfl, hFields, hLoop, -⟩
    · left
      cases startMark (l.loop.settle l.fields).state <;> rfl
    · rw [hFields, hLoop]
      exact .inr ⟨rfl, rfl, rfl, rfl⟩
  error {d} e hSound := by
    refine ⟨.between, ⟨⟨{}, Impl.reset_tracks [] false⟩, .inl ⟨.error e, ?_, e, rfl⟩⟩, ?_⟩
    · exact List.mem_append_right _ (List.mem_singleton.mpr rfl)
    · exact .inr ⟨rfl, rfl, rfl, rfl⟩

end Doormat.Http
