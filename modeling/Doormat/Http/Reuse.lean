import Doormat.Http.Boundary
import Doormat.Http.Grammar
import Doormat.Http.Invariant
import Doormat.Http.Tracking

/-! A codec whose callbacks decode every message into one object. Between two messages it
is as good as new, unless the object has been left as it was. -/
namespace Doormat.Http

open Bytes Doormat.Parser

variable {υ : Type} {cb : Callbacks υ} {blank : Message} {lost : υ → Prop} {spoils : Event → Prop}

/-- The callbacks keep `lost`. -/
structure Persists (cb : Callbacks υ) (lost : υ → Prop) : Prop where
  begin : ∀ m {user}, lost user → lost (cb.begin m user).2
  header : ∀ m {user}, lost user → lost (cb.header m user).2
  body : ∀ bytes {user}, lost user → lost (cb.body bytes user)
  trailer : ∀ key value {user}, lost user → lost (cb.trailer key value user)
  completion : ∀ {user}, lost user → lost (cb.completion user)
  error : ∀ e {user}, lost user → lost (cb.error e user).1

/-- The callbacks decode into the object that they are shown, and clear it to `blank` when
its headers are complete, or they are lost from then on. -/
structure Reuses (cb : Callbacks υ) (blank : Message) (lost : υ → Prop) : Prop
    extends Persists cb lost where
  object : ∀ m user, (cb.begin m user).1 = some m
  clears : ∀ m user, lost (cb.header m user).2 ∨ (cb.header m user).1 = blank

/-- The callbacks are lost, or there has been an event that spoils the rest. -/
def Spoilt (lost : υ → Prop) (spoils : Event → Prop) (d : Impl υ) : Prop :=
  lost d.user ∨ ∃ ev ∈ d.trace, spoils ev

/-- The event is an error. -/
def Event.IsError (ev : Event) : Prop := ∃ e, ev = .error e

/-- Before its beginning and after its headers, a message has nothing in the object; a
message without a target has left nothing of a target. -/
structure Blank (blank : Message) (a : Assembly) (d : Impl υ) : Prop where
  object : a.begun = false ∨ a.framing.isSome = true → d.object = blank
  target : a.target = none → d.url = {} ∧ d.connected = false

namespace Spoilt

variable {d e : Impl υ}

theorem mono (h : Spoilt lost spoils d) (hUser : lost d.user → lost e.user)
    (hTrace : ∀ ev ∈ d.trace, ev ∈ e.trace) : Spoilt lost spoils e := by
  rcases h with hLost | ⟨ev, hEv, hSpoils⟩
  · exact .inl (hUser hLost)
  · exact .inr ⟨ev, hTrace _ hEv, hSpoils⟩

theorem flushTrailer (hPersists : Persists cb lost) (h : Spoilt lost spoils d) :
    Spoilt lost spoils (d.flushTrailer cb) := by
  rw [Impl.flushTrailer]
  split
  · exact h.mono (hPersists.trailer _ _) fun _ hEv => List.mem_append_left _ hEv
  · exact h

theorem setVersion (h : Spoilt lost spoils d) (p : Fields) : Spoilt lost spoils (d.setVersion p) := by
  unfold Impl.setVersion Impl.chooseVersion
  split
  · exact h.mono id fun _ => id
  · exact h.mono id fun _ => id

theorem announceHeaders (hPersists : Persists cb lost) (h : Spoilt lost spoils d) (p : Fields) :
    Spoilt lost spoils (d.announceHeaders cb p) :=
  h.mono (hPersists.header _) fun _ hEv => List.mem_append_left _ hEv

/-- What is spoilt stays spoilt. -/
theorem accepts (hPersists : Persists cb lost) {c : Callback} (h : Spoilt lost spoils d)
    (hAccepts : Impl.Accepts cb d c e) : Spoilt lost spoils e := by
  cases hAccepts with
  | messageBegin => exact h.mono (hPersists.begin _) fun _ hEv => List.mem_append_left _ hEv
  | messageBeginAgain => exact h.mono (hPersists.begin _) fun _ hEv => List.mem_append_left _ hEv
  | chunk => exact h.mono id fun _ => id
  | url => exact h.mono id fun _ => id
  | status => exact h.mono id fun _ => id
  | field => exact h.mono id fun _ => id
  | nextField => exact h.mono id fun _ hEv => List.mem_append_left _ hEv
  | trailerField => exact (h.flushTrailer hPersists).mono id fun _ => id
  | value => exact h.mono id fun _ => id
  | ignored => exact h
  | body => exact h.mono (hPersists.body _) fun _ hEv => List.mem_append_left _ hEv
  | headersComplete => exact (h.setVersion _).announceHeaders hPersists _
  | lastHeader =>
      rename_i p data _ _ _ _
      have hTaken : Spoilt lost spoils ((d.setVersion p).takeHeader data) :=
        (h.setVersion p).mono id fun _ hEv => List.mem_append_left _ hEv
      exact hTaken.announceHeaders hPersists p
  | messageComplete =>
      exact (h.flushTrailer hPersists).mono hPersists.completion fun _ hEv => List.mem_append_left _ hEv

end Spoilt

theorem flushTrailer_object (cb : Callbacks υ) (d : Impl υ) :
    (d.flushTrailer cb).object = d.object ∧ (d.flushTrailer cb).url = d.url ∧
      (d.flushTrailer cb).connected = d.connected := by
  rw [Impl.flushTrailer]
  split
  · exact ⟨rfl, rfl, rfl⟩
  · exact ⟨rfl, rfl, rfl⟩

theorem announceHeaders_blank (hReuses : Reuses cb blank lost) (d : Impl υ) (p : Fields) :
    Spoilt lost spoils (d.announceHeaders cb p) ∨ (d.announceHeaders cb p).object = blank :=
  (hReuses.clears _ _).imp_left .inl

theorem flush_target (a : Assembly) : a.flush.target = a.target := by
  rw [Assembly.flush]
  split
  · rfl
  · split <;> rfl

/-- The object is kept blank by the callbacks that come in their places. -/
theorem Blank.accepts (hReuses : Reuses cb blank lost) {a : Assembly} {d e : Impl υ} {c : Callback}
    (hTracks : Tracks a d) (h : Blank blank a d) (hAccepts : Impl.Accepts cb d c e)
    (hPlaced : (assembler.next a c).misplaced = false) :
    Spoilt lost spoils e ∨ Blank blank (assembler.next a c) e := by
  obtain ⟨-, hBegun, hFraming, -⟩ := flush_frame a
  cases hAccepts with
  | messageBegin hBegin =>
      right
      rw [hReuses.object] at hBegin
      cases hBegin
      constructor
      · rintro (hNot | hFramed)
        · cases hNot
        · exact h.object (.inr hFramed)
      · exact h.target
  | messageBeginAgain hBegin =>
      rw [hReuses.object] at hBegin
      cases hBegin
  | chunk hChunk =>
      right
      rename_i p c
      cases c with
      | messageBegin => exact absurd rfl hChunk
      | chunkHeader => exact ⟨h.object, h.target⟩
      | chunkComplete => exact ⟨h.object, h.target⟩
  | url hInstalled =>
      right
      rw [hTracks.installed] at hInstalled
      rw [Gatherer.next, Assembly.data_url] at hPlaced ⊢
      constructor
      · rintro (hNot | hFramed)
        · rw [hInstalled] at hNot
          cases hNot
        · simp [show a.framing.isSome = true from hFramed] at hPlaced
      · intro h
        cases h
  | status hInstalled =>
      right
      rw [hTracks.installed] at hInstalled
      rw [Gatherer.next, Assembly.data_status] at hPlaced ⊢
      constructor
      · rintro (hNot | hFramed)
        · rw [hInstalled] at hNot
          cases hNot
        · simp [show a.framing.isSome = true from hFramed] at hPlaced
      · exact h.target
  | field hHeaders hGot =>
      right
      rw [Gatherer.next, Assembly.data_headerField, Impl.flush_idle (hTracks.gotHeader ▸ hGot)]
      exact ⟨h.object, h.target⟩
  | nextField hHeaders hGot hInstalled =>
      right
      rw [hTracks.headersCompleted] at hHeaders
      rw [hTracks.installed] at hInstalled
      rw [Gatherer.next, Assembly.data_headerField]
      constructor
      · rintro (hNot | hFramed)
        · rw [hBegun, hInstalled] at hNot
          cases hNot
        · rw [hFraming, hHeaders] at hFramed
          cases hFramed
      · intro hTarget
        exact h.target ((flush_target a).symm.trans hTarget)
  | trailerField hHeaders =>
      right
      obtain ⟨hObject, hUrl, hConnected⟩ := flushTrailer_object cb d
      rw [Gatherer.next, Assembly.data_headerField]
      constructor
      · intro hOutside
        rw [hBegun, hFraming] at hOutside
        exact hObject.trans (h.object hOutside)
      · intro hTarget
        have hNothing := h.target ((flush_target a).symm.trans hTarget)
        exact ⟨hUrl.trans hNothing.1, hConnected.trans hNothing.2⟩
  | value =>
      right
      rw [Gatherer.next, Assembly.data_headerValue]
      exact ⟨h.object, h.target⟩
  | ignored =>
      right
      rw [Gatherer.next, Assembly.data_body]
      exact ⟨h.object, h.target⟩
  | body =>
      right
      rw [Gatherer.next, Assembly.data_body]
      exact ⟨h.object, h.target⟩
  | headersComplete =>
      rename_i p _ _ _
      refine (announceHeaders_blank hReuses _ p).imp_right ?_
      intro hBlank
      refine ⟨fun _ => hBlank, ?_⟩
      intro hTarget
      have hNothing := h.target ((flush_target a).symm.trans hTarget)
      unfold Impl.setVersion Impl.chooseVersion
      split
      · exact hNothing
      · exact hNothing
  | lastHeader =>
      rename_i p data _ _ _ _
      refine (announceHeaders_blank hReuses _ p).imp_right ?_
      intro hBlank
      refine ⟨fun _ => hBlank, ?_⟩
      intro hTarget
      have hNothing := h.target ((flush_target a).symm.trans hTarget)
      unfold Impl.setVersion Impl.chooseVersion
      split
      · exact hNothing
      · exact hNothing
  | messageComplete =>
      right
      have hFramed : a.framing.isSome = true := by
        have hEnds : (a.misplaced || a.framing.isNone) = false := hPlaced
        cases hCase : a.framing with
        | none =>
            rw [hCase] at hEnds
            simp at hEnds
        | some p => rfl
      constructor
      · intro _
        exact (flushTrailer_object cb d).1.trans (h.object (.inr hFramed))
      · exact fun _ => ⟨rfl, rfl⟩

/-! ### Between two messages -/

/-- The codec as its callbacks know it. -/
structure Holds (blank : Message) (lost : υ → Prop) (a : Assembly) (d : Impl υ) : Prop where
  tracks : Tracks a d
  blank : Spoilt lost Event.IsError d ∨ Blank blank a d

/-- Callbacks that come in their places keep the object blank. -/
theorem reuse_invariant (hReuses : Reuses cb blank lost) :
    Invariant cb assembler (fun v => v.misplaced = false) (Holds blank lost) (fun _ => True)
      (fun _ => True) (fun p _ _ v => Placed p v) (fun _ _ => True) where
  listens :=
    { ok := by
        intro a d c e hHolds hPlaced hApply
        have hEnds : Impl.Ends cb a d c (d.apply cb c) := Impl.apply_ends hHolds.tracks c
        rw [hApply] at hEnds
        refine ⟨Impl.Accepts.tracks hHolds.tracks hEnds, ?_⟩
        rcases hHolds.blank with hSpoilt | hBlank
        · exact .inl (hSpoilt.accepts hReuses.toPersists hEnds)
        · exact hBlank.accepts hReuses hHolds.tracks hEnds hPlaced
      failed := fun _ _ _ => trivial
      fault := fun _ _ _ => trivial
      always := fun _ => trivial }
  step hl h _ := step_placing hl h
  good h := h.unmisplaced
  cut _ h := placed_cut h
  error {d} e _ := by
    refine ⟨{}, ⟨Impl.reset_tracks [] false, .inl (.inr ⟨.error e, ?_, e, rfl⟩)⟩, placed_fresh []⟩
    exact List.mem_append_right _ (List.mem_singleton.mpr rfl)

/-- What the callbacks keep, a decoder keeps. -/
theorem persists_invariant (hPersists : Persists cb lost) :
    Invariant cb assembler (fun v => v.misplaced = false) (fun a d => Tracks a d ∧ lost d.user)
      (fun d => lost d.user) (fun _ => True) (fun p _ _ v => Placed p v) (fun _ _ => True) where
  listens :=
    { ok := by
        intro a d c e hBoth _ hApply
        have hEnds : Impl.Ends cb a d c (d.apply cb c) := Impl.apply_ends hBoth.1 c
        rw [hApply] at hEnds
        have hSpoilt : Spoilt lost (fun _ => False) e :=
          Spoilt.accepts hPersists (.inl hBoth.2) hEnds
        exact ⟨Impl.Accepts.tracks hBoth.1 hEnds, hSpoilt.resolve_right fun ⟨_, _, hNot⟩ => hNot⟩
      failed := by
        intro a d c err e hBoth _ hApply
        have hEnds : Impl.Ends cb a d c (d.apply cb c) := Impl.apply_ends hBoth.1 c
        rw [hApply] at hEnds
        obtain ⟨-, bytes, rfl⟩ := hEnds
        exact hBoth.2
      fault := fun _ _ _ => trivial
      always := fun hBoth => hBoth.2 }
  step hl h _ := step_placing hl h
  good h := h.unmisplaced
  cut _ h := placed_cut h
  error e h := ⟨{}, ⟨Impl.reset_tracks [] false, hPersists.error e h⟩, placed_fresh []⟩

/-- A codec whose callbacks have come in their places so far. -/
abbrev Reused (blank : Message) (lost : υ → Prop) : HttpCodec υ → Prop :=
  Conducted assembler (Holds blank lost) fun p _ _ v => Placed p v

/-- A new codec with the version and the records of another one. -/
def HttpCodec.renew (blank : Message) (c : HttpCodec υ) : HttpCodec υ :=
  { init blank c.impl.user with
    impl := { Impl.init blank c.impl.user with version := c.impl.version, trace := c.impl.trace } }

/-- Between two messages the codec is as good as new. -/
theorem renew_eq {c : HttpCodec υ} (hc : Reused blank lost c)
    (hEnds : c.parser = fresh) (hKept : ¬ Spoilt lost Event.IsError c.impl) : c = c.renew blank := by
  obtain ⟨a, hHolds, hEnters⟩ := hc.gathered
  rw [hEnds] at hEnters
  have hIdle : a = { done := a.done } := hEnters.2
  have hTracks := hHolds.tracks
  have hBlank := hHolds.blank.resolve_left hKept
  have hObject := hBlank.object (.inl (by rw [hIdle]))
  have hTarget := hBlank.target (by rw [hIdle])
  have hContentLen := hc.ready.contentLen
  rw [hIdle] at hTracks
  obtain ⟨parser, impl, ignoreContentLen⟩ := c
  obtain ⟨installed, object, version, ignore, connected, gotHeader, headersCompleted, urline, status,
    key, value, url, user, trace⟩ := impl
  obtain ⟨hInstalled, hCompleted, hIgnore, hGot, hKey, hValue, hUrline, hStatus, -⟩ := hTracks
  dsimp only at hEnds hObject hTarget hContentLen hInstalled hCompleted hIgnore hGot hKey hValue hUrline hStatus
  rw [hEnds, hObject, hTarget.1, hTarget.2, hContentLen, hInstalled, hCompleted, hIgnore, hGot, hKey,
    hValue, hUrline, hStatus]
  rfl

end Doormat.Http
