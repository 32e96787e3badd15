import Doormat.Http.Grammar
import Doormat.Http.Invariant
import Doormat.Http.Tracking

/-! What the codec records of a message, and the version that it announces with every
message: the one of the first. -/
namespace Doormat.Http

open Bytes Doormat.Parser

variable {υ : Type} {cb : Callbacks υ}

/-! ### The version of a message -/

namespace StructuredData

@[simp] theorem storeHeader_protocolVersion (d : StructuredData) (key value : ByteString) :
    (d.storeHeader key value).protocolVersion = d.protocolVersion := by
  unfold storeHeader
  split
  · rfl
  split
  · rfl
  · rfl

theorem header_protocolVersion {d d' : StructuredData} {key value : ByteString}
    (h : d.header key value = .ok d') : d'.protocolVersion = d.protocolVersion := by
  unfold header at h
  split at h
  · obtain ⟨n, -, hOk⟩ := bind_eq_ok.mp h
    cases hOk
    rfl
  · cases h
    exact storeHeader_protocolVersion d _ _

@[simp] theorem setKeepalive_protocolVersion (d : StructuredData) (b : Bool) :
    (d.setKeepalive b).protocolVersion = d.protocolVersion :=
  storeHeader_protocolVersion _ _ _

@[simp] theorem setProtocol_protocolVersion (d : StructuredData) (v : ProtoVersion) :
    (d.setProtocol v).protocolVersion = v := by
  unfold setProtocol
  split
  case isTrue hSame => exact hSame
  case isFalse =>
    dsimp only
    split
    · cases v with
      | HTTP11 => rfl
      | HTTP10 => exact storeHeader_protocolVersion _ _ _
      | _ => rfl
    · rfl

end StructuredData

theorem completeHeaders_protocolVersion (p : Fields) (m : Message) :
    (Impl.completeHeaders p m).data.protocolVersion = m.data.protocolVersion := by
  unfold Impl.completeHeaders
  rw [Message.data_setData, StructuredData.setKeepalive_protocolVersion]
  cases m with
  | response r => rfl
  | request r =>
      show (Impl.hostFromHeader { r with method := p.method }).protocolVersion = r.protocolVersion
      unfold Impl.hostFromHeader
      split
      · rfl
      · dsimp only
        split
        · rfl
        · rfl

/-- The version that the first line of a message states, as far as the codec tells
versions apart. -/
def ownVersion (p : Fields) : ProtoVersion := if p.httpMinor = 1 then .HTTP11 else .HTTP10

theorem ownVersion_ne_unset (p : Fields) : ownVersion p ≠ .UNSET := by
  unfold ownVersion
  split
  · nofun
  · nofun

/-! ### What is recorded -/

/-- Neither an error nor the end of the headers. -/
def Event.minor : Event → Bool
  | .error _ | .headersDone _ _ => false
  | _ => true

/-- From `d` to `e` nothing has been recorded but minor events, under the same version. -/
structure Minor (d e : Impl υ) : Prop where
  version : e.version = d.version
  trace : ∃ evs, e.trace = d.trace ++ evs ∧ ∀ ev ∈ evs, ev.minor = true

namespace Minor

variable {d e f : Impl υ}

theorem same (hVersion : e.version = d.version) (hTrace : e.trace = d.trace) : Minor d e :=
  ⟨hVersion, [], by rw [hTrace, List.append_nil], fun _ hEv => absurd hEv List.not_mem_nil⟩

theorem one {ev : Event} (hVersion : e.version = d.version) (hTrace : e.trace = d.trace ++ [ev])
    (hMinor : ev.minor = true) : Minor d e := by
  refine ⟨hVersion, [ev], hTrace, ?_⟩
  intro ev' hEv
  rw [List.mem_singleton.mp hEv]
  exact hMinor

theorem trans (h : Minor d e) (h' : Minor e f) : Minor d f := by
  obtain ⟨evs, hTrace, hMinor⟩ := h.trace
  obtain ⟨evs', hTrace', hMinor'⟩ := h'.trace
  refine ⟨h'.version.trans h.version, evs ++ evs', ?_, ?_⟩
  · rw [hTrace', hTrace, List.append_assoc]
  · intro ev hEv
    exact (List.mem_append.mp hEv).elim (hMinor ev) (hMinor' ev)

theorem flushTrailer (cb : Callbacks υ) (d : Impl υ) : Minor d (d.flushTrailer cb) := by
  rw [Impl.flushTrailer]
  split
  · exact .one rfl rfl rfl
  · exact .same rfl rfl

/-- A minor event is in the trace of whoever has it. -/
theorem mem_iff (h : Minor d e) {ev : Event} (hMajor : ev.minor = false) :
    ev ∈ e.trace ↔ ev ∈ d.trace := by
  obtain ⟨evs, hTrace, hMinor⟩ := h.trace
  rw [hTrace, List.mem_append]
  apply or_iff_left
  intro hEv
  rw [hMinor ev hEv] at hMajor
  cases hMajor

end Minor

/-- The end of the headers is recorded, with the version of the codec. -/
structure Announced (d e : Impl υ) (p : Fields) : Prop where
  version : e.version = (d.chooseVersion p).version
  trace : ∃ m evs, e.trace = d.trace ++ evs ++ [.headersDone p m] ∧
    m.data.protocolVersion = e.version ∧ ∀ ev ∈ evs, ev.minor = true

theorem setVersion_trace (p : Fields) (d : Impl υ) : (d.setVersion p).trace = d.trace := by
  unfold Impl.setVersion Impl.chooseVersion
  split
  · rfl
  · rfl

/-- What a callback records. -/
theorem Impl.Accepts.records {d e : Impl υ} {c : Callback} (h : Impl.Accepts cb d c e) :
    Minor d e ∨ ∃ p, c = .headersComplete p ∧ Announced d e p := by
  cases h with
  | messageBegin => exact .inl (.one rfl rfl rfl)
  | messageBeginAgain => exact .inl (.one rfl rfl rfl)
  | chunk => exact .inl (.same rfl rfl)
  | url => exact .inl (.same rfl rfl)
  | status => exact .inl (.same rfl rfl)
  | field => exact .inl (.same rfl rfl)
  | nextField => exact .inl (.one rfl rfl rfl)
  | trailerField => exact .inl ((Minor.flushTrailer cb d).trans (.same rfl rfl))
  | value => exact .inl (.same rfl rfl)
  | ignored => exact .inl (.same rfl rfl)
  | body => exact .inl (.one rfl rfl rfl)
  | headersComplete =>
      rename_i p _ _ _
      refine .inr ⟨p, rfl, rfl, Impl.completeHeaders p (d.setVersion p).object, [], ?_, ?_,
        fun _ hEv => absurd hEv List.not_mem_nil⟩
      · rw [List.append_nil, ← setVersion_trace p d]
        rfl
      · rw [completeHeaders_protocolVersion]
        exact (congrArg _ (Message.data_setData _ _)).trans
          (StructuredData.setProtocol_protocolVersion _ _)
  | lastHeader hMajor hInstalled hGot hHeader =>
      rename_i p data
      refine .inr ⟨p, rfl, rfl, Impl.completeHeaders p ((d.setVersion p).takeHeader data).object,
        [.header (d.setVersion p).key (d.setVersion p).value], ?_, ?_, ?_⟩
      · rw [← setVersion_trace p d]
        rfl
      · rw [completeHeaders_protocolVersion]
        show ((d.setVersion p).object.setData data).data.protocolVersion = _
        rw [Message.data_setData, StructuredData.header_protocolVersion hHeader]
        exact (congrArg _ (Message.data_setData _ _)).trans
          (StructuredData.setProtocol_protocolVersion _ _)
      · intro ev hEv
        rw [List.mem_singleton.mp hEv]
        rfl
  | messageComplete =>
      exact .inl ((Minor.flushTrailer cb d).trans (.one rfl rfl rfl))

/-- No callback takes an event back. -/
theorem Impl.Accepts.extends_trace {d e : Impl υ} {c : Callback} (h : Impl.Accepts cb d c e) : d.trace <+: e.trace := by
  rcases h.records with hMinor | ⟨p, -, hAnnounced⟩
  · obtain ⟨evs, hTrace, -⟩ := hMinor.trace
    exact ⟨evs, hTrace.symm⟩
  · obtain ⟨m, evs, hTrace, -⟩ := hAnnounced.trace
    exact ⟨evs ++ [.headersDone p m], by rw [hTrace, List.append_assoc]⟩

theorem replay_extends_trace {a : Assembly} {d e : Impl υ} {cs : List Callback} (hTracks : Tracks a d)
    (hReplay : d.replay cb cs = .ok e) : d.trace <+: e.trace ∧ ∃ b, Tracks b e := by
  induction cs generalizing a d with
  | nil =>
      cases hReplay
      exact ⟨List.prefix_refl _, a, hTracks⟩
  | cons c cs ih =>
      obtain ⟨f, hApply, hRest⟩ := Impl.replay_cons_eq_ok.mp hReplay
      have hEnds : Impl.Ends cb a d c (d.apply cb c) := Impl.apply_ends hTracks c
      rw [hApply] at hEnds
      obtain ⟨hPrefix, hLast⟩ := ih (Impl.Accepts.tracks hTracks hEnds) hRest
      exact ⟨(Impl.Accepts.extends_trace hEnds).trans hPrefix, hLast⟩

/-- No callback records an error. -/
theorem Impl.Accepts.error_mem {d e : Impl υ} {c : Callback} (h : Impl.Accepts cb d c e)
    {err : Errno} (hErr : .error err ∈ e.trace) : .error err ∈ d.trace := by
  rcases h.records with hMinor | ⟨p, -, hAnnounced⟩
  · exact (hMinor.mem_iff rfl).mp hErr
  · obtain ⟨m, evs, hTrace, -, hMinor⟩ := hAnnounced.trace
    rw [hTrace] at hErr
    rcases List.mem_append.mp hErr with hErr | hErr
    · rcases List.mem_append.mp hErr with hErr | hErr
      · exact hErr
      · exact absurd (hMinor _ hErr) (by simp [Event.minor])
    · cases List.mem_singleton.mp hErr

theorem replay_error_mem {a : Assembly} {d e : Impl υ} {cs : List Callback} (hTracks : Tracks a d)
    (hReplay : d.replay cb cs = .ok e) {err : Errno} (hErr : .error err ∈ e.trace) :
    .error err ∈ d.trace := by
  induction cs generalizing a d with
  | nil =>
      cases hReplay
      exact hErr
  | cons c cs ih =>
      obtain ⟨f, hApply, hRest⟩ := Impl.replay_cons_eq_ok.mp hReplay
      have hEnds : Impl.Ends cb _ _ c (Impl.apply cb _ c) := Impl.apply_ends hTracks c
      rw [hApply] at hEnds
      exact hEnds.error_mem (ih (Impl.Accepts.tracks hTracks hEnds) hRest)

/-! ### The version of all messages -/

/-- The codec announces every message with its version, which is the one of the first. -/
structure Versioned (d : Impl υ) : Prop where
  announced : ∀ p m, .headersDone p m ∈ d.trace → m.data.protocolVersion = d.version
  chosen : d.version ≠ .UNSET → ∃ p m, .headersDone p m ∈ d.trace ∧ d.version = ownVersion p
  unset : d.version = .UNSET → ∀ p m, .headersDone p m ∉ d.trace

namespace Versioned

variable {d e : Impl υ}

theorem minor (h : Versioned d) (hMinor : Minor d e) : Versioned e where
  announced p m hMem := by
    rw [hMinor.version]
    exact h.announced p m ((hMinor.mem_iff rfl).mp hMem)
  chosen hSet := by
    rw [hMinor.version] at hSet
    obtain ⟨p, m, hMem, hVersion⟩ := h.chosen hSet
    exact ⟨p, m, (hMinor.mem_iff rfl).mpr hMem, hMinor.version.trans hVersion⟩
  unset hUnset p m hMem := by
    rw [hMinor.version] at hUnset
    exact h.unset hUnset p m ((hMinor.mem_iff rfl).mp hMem)

theorem announce (h : Versioned d) {p : Fields} (hAnnounced : Announced d e p) : Versioned e := by
  obtain ⟨m, evs, hTrace, hOwn, hMinor⟩ := hAnnounced.trace
  have hMem : ∀ q n, .headersDone q n ∈ e.trace ↔ .headersDone q n ∈ d.trace ∨ (q = p ∧ n = m) := by
    intro q n
    rw [hTrace, List.mem_append, List.mem_append, List.mem_singleton]
    constructor
    · rintro ((hOld | hNew) | hEq)
      · exact .inl hOld
      · exact absurd (hMinor _ hNew) (by simp [Event.minor])
      · cases hEq
        exact .inr ⟨rfl, rfl⟩
    · rintro (hOld | ⟨rfl, rfl⟩)
      · exact .inl (.inl hOld)
      · exact .inr rfl
  have hVersion : e.version = if d.version = .UNSET then ownVersion p else d.version := by
    rw [hAnnounced.version, Impl.chooseVersion]
    split
    · rfl
    · rfl
  constructor
  · intro q n hDone
    rcases (hMem q n).mp hDone with hOld | ⟨rfl, rfl⟩
    · have hSet : d.version ≠ .UNSET := fun hUnset => h.unset hUnset q n hOld
      rw [hVersion, if_neg hSet]
      exact h.announced q n hOld
    · exact hOwn
  · intro _
    by_cases hUnset : d.version = .UNSET
    · rw [if_pos hUnset] at hVersion
      exact ⟨p, m, (hMem p m).mpr (.inr ⟨rfl, rfl⟩), hVersion⟩
    · rw [if_neg hUnset] at hVersion
      obtain ⟨q, n, hOld, hFirst⟩ := h.chosen hUnset
      exact ⟨q, n, (hMem q n).mpr (.inl hOld), hVersion.trans hFirst⟩
  · intro hUnset
    by_cases hBefore : d.version = .UNSET
    · rw [hVersion, if_pos hBefore] at hUnset
      exact absurd hUnset (ownVersion_ne_unset p)
    · rw [hVersion, if_neg hBefore] at hUnset
      exact absurd hUnset hBefore

theorem accepts (h : Versioned d) {c : Callback} (hAccepts : Impl.Accepts cb d c e) : Versioned e := by
  rcases hAccepts.records with hMinor | ⟨p, -, hAnnounced⟩
  · exact h.minor hMinor
  · exact h.announce hAnnounced

end Versioned

/-- The versions, along any run of a decoder. -/
theorem version_invariant (cb : Callbacks υ) :
    Invariant cb assembler (fun v => v.misplaced = false) (fun a d => Tracks a d ∧ Versioned d)
      Versioned (fun _ => True) (fun p _ _ v => Placed p v) (fun _ _ => True) where
  listens :=
    { ok := by
        intro a d c e hBoth _ hApply
        have hEnds : Impl.Ends cb a d c (d.apply cb c) := Impl.apply_ends hBoth.1 c
        rw [hApply] at hEnds
        exact ⟨Impl.Accepts.tracks hBoth.1 hEnds, hBoth.2.accepts hEnds⟩
      failed := by
        intro a d c err e hBoth _ hApply
        have hEnds : Impl.Ends cb a d c (d.apply cb c) := Impl.apply_ends hBoth.1 c
        rw [hApply] at hEnds
        obtain ⟨-, bytes, rfl⟩ := hEnds
        exact hBoth.2.minor (.same rfl rfl)
      fault := fun _ _ _ => trivial
      always := fun hBoth => hBoth.2 }
  step hl h _ := step_placing hl h
  good h := h.unmisplaced
  cut _ h := placed_cut h
  error {d} e h := by
    refine ⟨{}, ⟨Impl.reset_tracks [] false, ?_⟩, placed_fresh []⟩
    have hMem : ∀ p m, .headersDone p m ∈ (d.record (.error e)).trace → .headersDone p m ∈ d.trace := by
      intro p m hDone
      rcases List.mem_append.mp hDone with hDone | hDone
      · exact hDone
      · cases List.mem_singleton.mp hDone
    constructor
    · exact fun p m hDone => h.announced p m (hMem p m hDone)
    · intro hSet
      obtain ⟨p, m, hDone, hVersion⟩ := h.chosen hSet
      exact ⟨p, m, List.mem_append_left _ hDone, hVersion⟩
    · exact fun hUnset p m hDone => h.unset hUnset p m (hMem p m hDone)

/-- Where all messages state the same version, every message is announced with its own. -/
theorem Versioned.own {d : Impl υ} (h : Versioned d)
    (hSame : ∀ p m q n, .headersDone p m ∈ d.trace → .headersDone q n ∈ d.trace →
      ownVersion p = ownVersion q) :
    ∀ p m, .headersDone p m ∈ d.trace → m.data.protocolVersion = ownVersion p := by
  intro p m hDone
  have hSet : d.version ≠ .UNSET := fun hUnset => h.unset hUnset p m hDone
  obtain ⟨q, n, hFirst, hVersion⟩ := h.chosen hSet
  rw [h.announced p m hDone, hVersion]
  exact hSame q n p m hFirst hDone

end Doormat.Http
