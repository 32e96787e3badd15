import Mathlib.Data.List.ModifyLast
import Doormat.Http.Reuse

/-! The messages that a codec tells of, each with its own events, and callbacks that follow
them. -/
namespace Doormat.Http

open Bytes Doormat.Parser

/-! ### The events of each message -/

/-- An event that begins a message. -/
def Event.begins : Event → Bool
  | .begin => true
  | _ => false

/-- One more event: it opens a message, or it belongs to the one that has been opened last. -/
def addEvent (ms : List (List Event)) : Event → List (List Event)
  | .begin => ms ++ [[]]
  | ev => ms.modifyLast (· ++ [ev])

/-- The events of every message that has begun, but for its beginning. -/
def messagesOf (trace : List Event) : List (List Event) := trace.foldl addEvent []

theorem messagesOf_append (trace : List Event) (ev : Event) :
    messagesOf (trace ++ [ev]) = addEvent (messagesOf trace) ev := List.foldl_append

theorem addEvent_concat {ev : Event} (h : ev.begins = false) (past : List (List Event)) (now : List Event) :
    addEvent (past ++ [now]) ev = past ++ [now ++ [ev]] := by
  cases ev with
  | begin => cases h
  | _ => exact List.modifyLast_concat _ _ _

theorem addEvent_nil {ev : Event} (h : ev.begins = false) : addEvent [] ev = [] := by
  cases ev with
  | begin => cases h
  | _ => rfl

theorem length_addEvent {ev : Event} (h : ev.begins = false) (ms : List (List Event)) :
    (addEvent ms ev).length = ms.length := by
  rcases List.eq_nil_or_concat' ms with rfl | ⟨past, now, rfl⟩
  · rw [addEvent_nil h]
  · rw [addEvent_concat h]
    simp

/-- An event that ends its message. -/
def Event.ends : Event → Bool
  | .completion | .error _ => true
  | _ => false

/-- The message has come to its end. -/
def isOver (es : List Event) : Bool := es.any Event.ends

/-- What the callbacks of a message tell of it: not the single header lines, and nothing behind
its end. -/
def toldOf : List Event → List Event
  | [] => []
  | .begin :: es | .header _ _ :: es => toldOf es
  | .completion :: _ => [.completion]
  | .error e :: _ => [.error e]
  | ev :: es => ev :: toldOf es

theorem begins_of_told {ev : Event} (h : toldOf [ev] = [ev]) : ev.begins = false := by
  cases ev with
  | begin => cases h
  | _ => rfl

theorem isOver_append (es : List Event) (ev : Event) : isOver (es ++ [ev]) = (isOver es || ev.ends) := by
  simp [isOver]

theorem toldOf_append (es : List Event) (ev : Event) :
    toldOf (es ++ [ev]) = toldOf es ++ if isOver es then [] else toldOf [ev] := by
  induction es with
  | nil => rfl
  | cons e es ih =>
      cases e with
      | begin => simpa [toldOf, isOver, Event.ends] using ih
      | header key value => simpa [toldOf, isOver, Event.ends] using ih
      | headersDone p m => simpa [toldOf, isOver, Event.ends] using ih
      | body bytes => simpa [toldOf, isOver, Event.ends] using ih
      | trailer key value => simpa [toldOf, isOver, Event.ends] using ih
      | completion => rfl
      | error e => rfl

theorem isOver_toldOf (es : List Event) : isOver (toldOf es) = isOver es := by
  induction es with
  | nil => rfl
  | cons e es ih =>
      cases e with
      | begin => simpa [toldOf, isOver, Event.ends] using ih
      | header key value => simpa [toldOf, isOver, Event.ends] using ih
      | headersDone p m => simpa [toldOf, isOver, Event.ends] using ih
      | body bytes => simpa [toldOf, isOver, Event.ends] using ih
      | trailer key value => simpa [toldOf, isOver, Event.ends] using ih
      | completion => rfl
      | error e => rfl

/-- Behind its end nothing is told. -/
theorem toldOf_isOver {es : List Event} (h : isOver es = true) (ev : Event) : toldOf (es ++ [ev]) = toldOf es := by
  rw [toldOf_append, if_pos h, List.append_nil]

theorem toldOf_open {es : List Event} (h : isOver es = false) (ev : Event) :
    toldOf (es ++ [ev]) = toldOf es ++ toldOf [ev] := by
  rw [toldOf_append, if_neg (by simp [h])]

/-! ### Callbacks that follow the messages -/

variable {υ : Type} {cb : Callbacks υ} {J : Bool → List Event → υ → Prop}

/-- The callbacks keep `J`, which is about what they have been told. The flag tells whether a
message is under way. -/
structure Hears (cb : Callbacks υ) (J : Bool → List Event → υ → Prop) : Prop where
  begin : ∀ m {trace user}, J false trace user → J true (trace ++ [.begin]) (cb.begin m user).2
  line : ∀ key value {b trace user}, J b trace user → J b (trace ++ [.header key value]) user
  header : ∀ p m {b trace user}, J b trace user → J b (trace ++ [.headersDone p m]) (cb.header m user).2
  body : ∀ bytes {b trace user}, J b trace user → J b (trace ++ [.body bytes]) (cb.body bytes user)
  trailer : ∀ key value {b trace user}, J b trace user →
    J b (trace ++ [.trailer key value]) (cb.trailer key value user)
  completion : ∀ {b trace user}, J b trace user → J false (trace ++ [.completion]) (cb.completion user)
  error : ∀ e {b trace user}, J b trace user → J false (trace ++ [.error e]) (cb.error e user).1

/-- A codec whose callbacks keep `J`. -/
structure Heard (J : Bool → List Event → υ → Prop) (a : Assembly) (d : Impl υ) : Prop where
  tracks : Tracks a d
  heard : J a.begun d.trace d.user

namespace Hears

variable {d e : Impl υ} {b : Bool} {a : Assembly} {c : Callback}

theorem flushTrailer (h : Hears cb J) (hd : J b d.trace d.user) :
    J b (d.flushTrailer cb).trace (d.flushTrailer cb).user := by
  rw [Impl.flushTrailer]
  split
  · exact h.trailer _ _ hd
  · exact hd

theorem setVersion (hd : J b d.trace d.user) (p : Fields) : J b (d.setVersion p).trace (d.setVersion p).user := by
  rw [Impl.setVersion, Impl.chooseVersion]
  split
  · exact hd
  · exact hd

/-- What the callbacks have been told, one callback of the parser later. -/
theorem accepts (h : Hears cb J) (hd : J a.begun d.trace d.user)
    (hPlaced : (assembler.next a c).misplaced = false) (hAccepts : Impl.Accepts cb d c e) :
    J (assembler.next a c).begun e.trace e.user := by
  obtain ⟨-, hBegun, -⟩ := flush_frame a
  have hFlushed : J a.flush.begun d.trace d.user := by rwa [hBegun]
  cases hAccepts with
  | messageBegin hBegin =>
      have hBefore : a.begun = false := (Bool.or_eq_false_iff.mp hPlaced).2
      rw [hBefore] at hd
      exact h.begin _ hd
  | messageBeginAgain hBegin =>
      have hBefore : a.begun = false := (Bool.or_eq_false_iff.mp hPlaced).2
      rw [hBefore] at hd
      exact h.begin _ hd
  | chunk hChunk =>
      rename_i p c
      cases c with
      | messageBegin => exact absurd rfl hChunk
      | chunkHeader => exact hd
      | chunkComplete => exact hd
  | url =>
      rw [Gatherer.next, Assembly.data_url]
      exact hd
  | status =>
      rw [Gatherer.next, Assembly.data_status]
      exact hd
  | field =>
      rw [Gatherer.next, Assembly.data_headerField]
      exact hFlushed
  | nextField =>
      rw [Gatherer.next, Assembly.data_headerField]
      exact h.line _ _ hFlushed
  | trailerField =>
      rw [Gatherer.next, Assembly.data_headerField]
      exact h.flushTrailer hFlushed
  | value =>
      rw [Gatherer.next, Assembly.data_headerValue]
      exact hd
  | ignored =>
      rw [Gatherer.next, Assembly.data_body]
      exact hd
  | body =>
      rw [Gatherer.next, Assembly.data_body]
      exact h.body _ hd
  | headersComplete => exact h.header _ _ (setVersion hFlushed _)
  | lastHeader => exact h.header _ _ (h.line _ _ (setVersion hFlushed _))
  | messageComplete => exact h.completion (h.flushTrailer hd)

/-- What the callbacks keep, a decoder keeps. -/
theorem invariant (h : Hears cb J) :
    Invariant cb assembler (fun v => v.misplaced = false) (Heard J) (fun d => ∃ b, J b d.trace d.user)
      (fun _ => True) (fun p _ _ v => Placed p v) (fun _ _ => True) where
  listens :=
    { ok := by
        intro a d c e hHeard hPlaced hApply
        have hEnds : Impl.Ends cb a d c (d.apply cb c) := Impl.apply_ends hHeard.tracks c
        rw [hApply] at hEnds
        exact ⟨Impl.Accepts.tracks hHeard.tracks hEnds, h.accepts hHeard.heard hPlaced hEnds⟩
      failed := by
        intro a d c err e hHeard _ hApply
        have hEnds : Impl.Ends cb a d c (d.apply cb c) := Impl.apply_ends hHeard.tracks c
        rw [hApply] at hEnds
        obtain ⟨-, bytes, rfl⟩ := hEnds
        exact ⟨_, hHeard.heard⟩
      fault := fun _ _ _ => trivial
      always := fun hHeard => ⟨_, hHeard.heard⟩ }
  step hl h _ := step_placing hl h
  good h := h.unmisplaced
  cut _ h := placed_cut h
  error := by
    intro d e hAlways
    obtain ⟨b, hd⟩ := hAlways
    exact ⟨{}, ⟨Impl.reset_tracks [] false, h.error e hd⟩, placed_fresh []⟩

end Hears

end Doormat.Http
