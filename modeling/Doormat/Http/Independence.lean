import Mathlib.Data.List.Forall2
import Doormat.Http.Beside

/-! One codec for many messages: whether it makes of each what a new codec makes of it. All
that a message leaves behind in the codec is the version. -/
namespace Doormat.Http

open Bytes Doormat.Parser HttpCodec

variable {υ : Type} {cb : Callbacks υ} {blank : Message} {past : List Event} {version : ProtoVersion}

/-- The callbacks hand over a new object for every message, and do not change it. -/
structure Hands (cb : Callbacks υ) (blank : Message) : Prop where
  object : ∀ m user, (cb.begin m user).1 = some blank
  leaves : ∀ m user, (cb.header m user).1 = m
  fatal : cb.Fatal

/-- The callbacks install `blank` into what they are shown ready, and have it ready for the next message
when the headers are complete, or they are lost from then on. What an error leaves is ready as well, unless
errors spoil the rest. -/
structure Furnishes (cb : Callbacks υ) (blank : Message) (ready : Message → Prop) (lost : υ → Prop)
    (spoils : Event → Prop) : Prop extends Persists cb lost where
  installs : ∀ m user, ready m → (cb.begin m user).1 = some blank
  clears : ∀ m user, lost (cb.header m user).2 ∨ ready (cb.header m user).1
  broken : (∀ e, spoils (.error e)) ∨ ∀ m, ready m

theorem Hands.furnishes (h : Hands cb blank) :
    Furnishes cb blank (fun _ => True) (fun _ => False) fun _ => False where
  begin _ _ hLost := hLost
  header _ _ hLost := hLost
  body _ _ hLost := hLost
  trailer _ _ _ hLost := hLost
  completion hLost := hLost
  error _ _ hLost := hLost
  installs m user _ := h.object m user
  clears _ _ := .inr trivial
  broken := .inr fun _ => trivial

theorem Reuses.furnishes {lost : υ → Prop} (h : Reuses cb blank lost) :
    Furnishes cb blank (fun m => m = blank) lost Event.IsError where
  toPersists := h.toPersists
  installs m user hReady := (h.object m user).trans (congrArg some hReady)
  clears := h.clears
  broken := .inl fun e => ⟨e, rfl⟩

/-! ### Two codecs at the same message -/

/-- The codec `d` is `e` but for its past, its owner and its version; an object that is not
installed does not matter. -/
inductive Alongside (version : ProtoVersion) (past : List Event) : Impl υ → Impl υ → Prop
  | intro {e : Impl υ} {user : υ} {v : ProtoVersion} {object : Message}
      (hOwn : v = .UNSET ∨ v = version) (hAlone : e.version = .UNSET ∨ e.version = version)
      (hObject : e.installed = true → object = e.object) :
      Alongside version past { e.under past user v with object := object } e

namespace Alongside

variable {d e e' : Impl υ}

theorem installed (h : Alongside version past d e) (hInstalled : e.installed = true) :
    ∃ user v, d = e.under past user v ∧ (v = .UNSET ∨ v = version) ∧
      (e.version = .UNSET ∨ e.version = version) := by
  obtain ⟨hOwn, hAlone, hObject⟩ := h
  rename_i user v object
  refine ⟨user, v, ?_, hOwn, hAlone⟩
  rw [hObject hInstalled]
  rfl

theorem trace (h : Alongside version past d e) : d.trace = past ++ e.trace := by
  obtain ⟨-, -, -⟩ := h
  rfl

theorem version_eq (h : Alongside version past d e) : d.version = .UNSET ∨ d.version = version := by
  obtain ⟨hOwn, -, -⟩ := h
  exact hOwn

theorem of_eq (hSame : d = { e.under past d.user d.version with object := d.object })
    (hOwn : d.version = .UNSET ∨ d.version = version)
    (hAlone : e.version = .UNSET ∨ e.version = version)
    (hObject : e.installed = true → d.object = e.object) : Alongside version past d e := by
  rw [hSame]
  exact .intro hOwn hAlone hObject

/-- What both do that does not look at the object. -/
theorem of_same {d' : Impl υ} (h : Alongside version past d e) (hVersion : e'.version = e.version)
    (hInstalled : e'.installed = e.installed) (hObject : e'.object = e.object)
    (hSame : d' = { e'.under past d'.user d.version with object := d.object }) :
    Alongside version past d' e' := by
  obtain ⟨hOwn, hAlone, hOld⟩ := h
  rw [hSame]
  refine .intro hOwn (hVersion ▸ hAlone) ?_
  rw [hInstalled, hObject]
  exact hOld

theorem flushTrailer_keeps (cb : Callbacks υ) (e : Impl υ) :
    (e.flushTrailer cb).version = e.version ∧ (e.flushTrailer cb).installed = e.installed ∧
      (e.flushTrailer cb).object = e.object := by
  rw [Impl.flushTrailer]
  split <;> exact ⟨rfl, rfl, rfl⟩

theorem flushTrailer (h : Alongside version past d e) :
    Alongside version past (d.flushTrailer cb) (e.flushTrailer cb) := by
  obtain ⟨hVersion, hInstalled, hObject⟩ := flushTrailer_keeps cb e
  apply h.of_same hVersion hInstalled hObject
  obtain ⟨-, -, -⟩ := h
  cases hGot : e.gotHeader <;> simp [Impl.flushTrailer, Impl.under, hGot, Impl.record]

theorem begin (hHands : Hands cb blank) (h : Alongside version past d e)
    (hRun : e.onMessageBegin cb = .ok (0, e')) :
    ∃ d', d.onMessageBegin cb = .ok (0, d') ∧ Alongside version past d' e' := by
  have hBegin : ∀ f : Impl υ, f.onMessageBegin cb =
      .ok (0, { f.record .begin with
        user := (cb.begin f.object f.user).2, installed := true, object := blank }) := by
    intro f
    have hObject := hHands.object f.object f.user
    unfold Impl.onMessageBegin
    generalize cb.begin f.object f.user = r at hObject
    obtain ⟨object, user⟩ := r
    cases hObject
    rfl
  rw [hBegin e] at hRun
  cases hRun
  refine ⟨_, hBegin d, ?_⟩
  obtain ⟨hOwn, hAlone, -⟩ := h
  refine of_eq ?_ hOwn hAlone fun _ => rfl
  simp [Impl.under, Impl.record]

theorem chunk (h : Alongside version past d e) {p : Fields} (hRun : e.onChunk p = .ok (0, e')) :
    ∃ d', d.onChunk p = .ok (0, d') ∧ Alongside version past d' e' := by
  cases hFinal : p.bodyIsFinal with
  | true =>
      simp only [Impl.onChunk, hFinal, if_true] at hRun ⊢
      cases hRun
      refine ⟨_, rfl, h.of_same ?_ ?_ ?_ ?_⟩
      · rfl
      · rfl
      · rfl
      · obtain ⟨-, -, -⟩ := h
        simp [Impl.under]
  | false =>
      simp only [Impl.onChunk, hFinal, Bool.false_eq_true, if_false] at hRun ⊢
      cases hRun
      exact ⟨d, rfl, h⟩

/-- What needs an object, both do alike. -/
theorem needs {f : Impl υ → Except Fault (Nat × Impl υ)} (h : Alongside version past d e)
    (hUninstalled : e.installed = false → ∃ err, f e = .error err)
    (hUnder : ∀ user v, f (e.under past user v) = (f e).map (Prod.map id (Impl.under past user v)))
    (hKeeps : ∀ rc e', f e = .ok (rc, e') → e'.version = e.version) (hRun : f e = .ok (0, e')) :
    ∃ d', f d = .ok (0, d') ∧ Alongside version past d' e' := by
  have hInstalled : e.installed = true := by
    cases hCase : e.installed with
    | true => rfl
    | false =>
        obtain ⟨err, hError⟩ := hUninstalled hCase
        cases hError.symm.trans hRun
  obtain ⟨user, v, rfl, hOwn, hAlone⟩ := h.installed hInstalled
  refine ⟨e'.under past user v, ?_, ?_⟩
  · rw [hUnder, hRun]
    rfl
  · have hVersion := hKeeps 0 e' hRun
    exact of_eq rfl hOwn (hVersion ▸ hAlone) fun _ => rfl

theorem url (h : Alongside version past d e) {bytes : ByteString} (hRun : e.onUrl bytes = .ok (0, e')) :
    ∃ d', d.onUrl bytes = .ok (0, d') ∧ Alongside version past d' e' := by
  have hShort : ¬ (e.urline ++ bytes).length > Impl.maxUriLen := by
    intro hLong
    rw [Impl.onUrl, if_pos hLong] at hRun
    cases hRun
  apply h.needs (f := Impl.onUrl bytes) _ (fun _ _ => Impl.onUrl_under bytes)
    (fun _ _ hEq => (Impl.onUrl_keeps hEq).1) hRun
  intro hCase
  refine ⟨.noData, ?_⟩
  rw [Impl.onUrl, if_neg hShort]
  simp [Impl.deref, hCase, bind, Except.bind]

theorem status (h : Alongside version past d e) {code : Nat} {bytes : ByteString}
    (hRun : e.onStatus code bytes = .ok (0, e')) :
    ∃ d', d.onStatus code bytes = .ok (0, d') ∧ Alongside version past d' e' := by
  apply h.needs (f := Impl.onStatus code bytes) _ (fun _ _ => Impl.onStatus_under code bytes)
    (fun _ _ hEq => (Impl.onStatus_keeps hEq).1) hRun
  intro hCase
  exact ⟨.noData, by simp [Impl.onStatus, Impl.deref, hCase, bind, Except.bind]⟩

theorem headerField (h : Alongside version past d e) {bytes : ByteString}
    (hRun : e.onHeaderField bytes = .ok (0, e')) :
    ∃ d', d.onHeaderField bytes = .ok (0, d') ∧ Alongside version past d' e' := by
  cases hGot : e.gotHeader with
  | false =>
      have hIdle : ∀ {f : Impl υ}, f.gotHeader = false → f.headersCompleted = e.headersCompleted →
          f.onHeaderField bytes = if e.headersCompleted then .error .headersCompleted
            else .ok (0, { f with key := f.key ++ bytes }) := by
        intro f hf hCompleted
        rw [Impl.onHeaderField, Impl.processCurrentHeader_idle hf]
        exact if_congr (by rw [hCompleted]) rfl rfl
      have hGot' : d.gotHeader = false := by
        obtain ⟨-, -, -⟩ := h
        exact hGot
      have hCompleted : d.headersCompleted = e.headersCompleted := by
        obtain ⟨-, -, -⟩ := h
        rfl
      rw [hIdle hGot rfl] at hRun
      rw [hIdle hGot' hCompleted]
      split at hRun
      · cases hRun
      case isFalse hNot =>
        cases hRun
        rw [if_neg hNot]
        refine ⟨_, rfl, h.of_same ?_ ?_ ?_ ?_⟩
        · rfl
        · rfl
        · rfl
        · obtain ⟨-, -, -⟩ := h
          simp [Impl.under]
  | true =>
      apply h.needs (f := Impl.onHeaderField bytes) _ (fun _ _ => Impl.onHeaderField_under bytes)
        (fun _ _ hEq => (Impl.onHeaderField_keeps hEq).1) hRun
      intro hCase
      rw [Impl.onHeaderField]
      split
      · exact ⟨_, rfl⟩
      · exact ⟨.noData, by simp [Impl.processCurrentHeader, hGot, Impl.deref, hCase, bind, Except.bind]⟩

theorem headersComplete (hHands : Hands cb blank) (h : Alongside version past d e) {p : Fields}
    (hStates : ownVersion p = version) (hRun : e.onHeadersComplete cb p = .ok (0, e')) :
    ∃ d', d.onHeadersComplete cb p = .ok (0, d') ∧ Alongside version past d' e' := by
  have hMajor : p.httpMajor = 1 := by
    by_contra hNot
    rw [Impl.onHeadersComplete, if_pos hNot] at hRun
    cases hRun
  rw [Beside.onHeadersComplete_eq hMajor] at hRun
  obtain ⟨m, hDeref, hRun⟩ := bind_eq_ok.mp hRun
  obtain ⟨f, hTaken, hRun⟩ := bind_eq_ok.mp hRun
  cases hRun
  have hInstalled : e.installed = true := by
    cases hCase : e.installed with
    | true => rfl
    | false =>
        rw [Impl.deref_error hCase] at hDeref
        cases hDeref
  obtain ⟨user, v, rfl, hOwn, hAlone⟩ := h.installed hInstalled
  have hChosen : ∀ g : Impl υ, g.version = .UNSET ∨ g.version = version →
      g.chooseVersion p = { g with version := version } := by
    intro g hg
    unfold Impl.chooseVersion
    by_cases hUnset : g.version = .UNSET
    · rw [if_pos hUnset, ← hStates]
      rfl
    · rw [if_neg hUnset, ← hg.resolve_left hUnset]
  have hSet : (e.under past user v).setVersion p = (e.setVersion p).under past user version := by
    rw [Impl.setVersion, Impl.setVersion, hChosen e hAlone, hChosen (e.under past user v) hOwn]
    rfl
  have hVersion : f.version = version := by
    rw [(Impl.processCurrentHeader_keeps hTaken).1, Impl.setVersion, hChosen e hAlone]
  refine ⟨(f.under past user version).announceHeaders cb p, ?_, ?_⟩
  · rw [Beside.onHeadersComplete_eq hMajor, Impl.deref_under, hDeref, hSet]
    simp only [bind, Except.bind, Impl.processCurrentHeader_under, hTaken, Except.map]
  · have hLeaves := hHands.leaves (Impl.completeHeaders p f.object)
    refine of_eq ?_ (.inr rfl) (.inr hVersion) fun _ => ?_
    · simp [Impl.announceHeaders, Impl.under, Impl.record]
    · simp [Impl.announceHeaders, Impl.under, Impl.record, hLeaves]

theorem trailerField (h : Alongside version past d e) {bytes : ByteString}
    (hRun : e.onTrailerField cb bytes = .ok (0, e')) :
    ∃ d', d.onTrailerField cb bytes = .ok (0, d') ∧ Alongside version past d' e' := by
  have hFlushed : Alongside version past (d.flushTrailer cb) (e.flushTrailer cb) := h.flushTrailer
  unfold Impl.onTrailerField at hRun ⊢
  generalize d.flushTrailer cb = f at hFlushed
  generalize e.flushTrailer cb = g at hFlushed hRun
  cases hRun
  refine ⟨_, rfl, hFlushed.of_same ?_ ?_ ?_ ?_⟩
  · rfl
  · rfl
  · rfl
  · obtain ⟨-, -, -⟩ := hFlushed
    simp [Impl.under]

theorem value (h : Alongside version past d e) {code : Nat} {bytes : ByteString}
    (hRun : (settings cb).data code .headerValue bytes e = .ok (0, e')) :
    ∃ d', (settings cb).data code .headerValue bytes d = .ok (0, d') ∧
      Alongside version past d' e' := by
  have hValue : ∀ f : Impl υ, (settings cb).data code .headerValue bytes f =
      .ok (0, { f with gotHeader := true, value := f.value ++ bytes }) := by
    intro f
    cases hCompleted : f.headersCompleted <;>
      simp [settings, Settings.data, Impl.onHeaderValue, Impl.onTrailerValue, hCompleted]
  rw [hValue] at hRun
  cases hRun
  refine ⟨_, hValue d, h.of_same ?_ ?_ ?_ ?_⟩
  · rfl
  · rfl
  · rfl
  · obtain ⟨-, -, -⟩ := h
    simp [Impl.under]

theorem body (h : Alongside version past d e) {bytes : ByteString}
    (hRun : e.onBody cb bytes = .ok (0, e')) :
    ∃ d', d.onBody cb bytes = .ok (0, d') ∧ Alongside version past d' e' := by
  have hIgnore : d.ignore = e.ignore := by
    obtain ⟨-, -, -⟩ := h
    rfl
  unfold Impl.onBody at hRun ⊢
  rw [hIgnore]
  split at hRun
  case isTrue hYes =>
    cases hRun
    rw [if_pos hYes]
    exact ⟨d, rfl, h⟩
  case isFalse hNo =>
    cases hRun
    rw [if_neg hNo]
    refine ⟨_, rfl, h.of_same ?_ ?_ ?_ ?_⟩
    · rfl
    · rfl
    · rfl
    · obtain ⟨-, -, -⟩ := h
      simp [Impl.under, Impl.record]

theorem completeMessage (h : Alongside version past d e) :
    Alongside version past (d.completeMessage cb) (e.completeMessage cb) := by
  have hFlushed : Alongside version past (d.flushTrailer cb) (e.flushTrailer cb) := h.flushTrailer
  unfold Impl.completeMessage
  generalize d.flushTrailer cb = f at hFlushed
  generalize e.flushTrailer cb = g at hFlushed
  obtain ⟨hOwn, hAlone, -⟩ := hFlushed
  refine of_eq ?_ hOwn hAlone fun hInstalled => ?_
  · simp [Impl.under, Impl.record, Impl.reset]
  · cases hInstalled

/-- A callback that the one accepts, the other accepts, if a message that it announces states
the version. -/
theorem apply (hHands : Hands cb blank) (h : Alongside version past d e) {c : Callback}
    (hApply : e.apply cb c = .ok e') (hStates : ∀ p, c = .headersComplete p → ownVersion p = version) :
    ∃ d', d.apply cb c = .ok d' ∧ Alongside version past d' e' := by
  have hAccept : ∀ (err : Errno) {f : Impl υ → Except Fault (Nat × Impl υ)},
      (f e = .ok (0, e') → ∃ d', f d = .ok (0, d') ∧ Alongside version past d' e') →
      accept err (f e) = .ok e' → ∃ d', accept err (f d) = .ok d' ∧ Alongside version past d' e' := by
    intro err f hBoth hRun
    obtain ⟨d', hCall, hNext⟩ := hBoth (Impl.accept_eq_ok.mp hRun)
    exact ⟨d', Impl.accept_eq_ok.mpr hCall, hNext⟩
  cases c with
  | notify p n =>
      cases n with
      | messageBegin => exact hAccept _ (f := Impl.onMessageBegin cb) (h.begin hHands) hApply
      | chunkHeader => exact hAccept .cbChunkHeader (f := Impl.onChunk p) h.chunk hApply
      | chunkComplete => exact hAccept .cbChunkComplete (f := Impl.onChunk p) h.chunk hApply
  | data code m bytes =>
      cases m with
      | url => exact hAccept _ (f := Impl.onUrl bytes) h.url hApply
      | status => exact hAccept _ (f := Impl.onStatus code bytes) h.status hApply
      | headerField =>
          have hCompleted : d.headersCompleted = e.headersCompleted := by
            obtain ⟨-, -, -⟩ := h
            rfl
          apply hAccept _ (f := (settings cb).data code .headerField bytes) _ hApply
          intro hRun
          cases hCase : e.headersCompleted with
          | false =>
              simp only [settings, Settings.data, hCompleted, hCase, Bool.not_false, if_true] at hRun ⊢
              exact h.headerField hRun
          | true =>
              simp only [settings, Settings.data, hCompleted, hCase, Bool.not_true, Bool.false_eq_true,
                if_false] at hRun ⊢
              exact h.trailerField hRun
      | headerValue => exact hAccept _ (f := (settings cb).data code .headerValue bytes) h.value hApply
      | body => exact hAccept _ (f := Impl.onBody cb bytes) h.body hApply
  | headersComplete p =>
      exact hAccept _ (f := Impl.onHeadersComplete cb p) (h.headersComplete hHands (hStates p rfl)) hApply
  | messageComplete =>
      cases hApply
      exact ⟨_, rfl, h.completeMessage⟩

end Alongside

/-! ### What the events say -/

namespace Impl.Accepts

variable {d e : Impl υ} {c : Callback}

theorem announces {p : Fields} (h : Impl.Accepts cb d (.headersComplete p) e) :
    ∃ m, .headersDone p m ∈ e.trace := by
  cases h with
  | headersComplete => exact ⟨_, List.mem_append_right _ (List.mem_singleton.mpr rfl)⟩
  | lastHeader => exact ⟨_, List.mem_append_right _ (List.mem_singleton.mpr rfl)⟩

end Impl.Accepts

/-- From the same callbacks the two make the same events, if all messages state the version. -/
theorem Alongside.replay (hHands : Hands cb blank) {a : Assembly} {d e e' : Impl υ} {cs : List Callback}
    (hTracks : Tracks a e) (h : Alongside version past d e) (hReplay : e.replay cb cs = .ok e')
    (hStates : ∀ p m, .headersDone p m ∈ e'.trace → ownVersion p = version) :
    ∃ d', d.replay cb cs = .ok d' ∧ Alongside version past d' e' := by
  induction cs generalizing a d e with
  | nil =>
      cases hReplay
      exact ⟨d, rfl, h⟩
  | cons c cs ih =>
      obtain ⟨f, hApply, hRest⟩ := Impl.replay_cons_eq_ok.mp hReplay
      have hEnds : Impl.Ends cb a e c (e.apply cb c) := Impl.apply_ends hTracks c
      rw [hApply] at hEnds
      have hTracks' := Impl.Accepts.tracks hTracks hEnds
      have hOwn : ∀ p, c = .headersComplete p → ownVersion p = version := by
        intro p hc
        subst hc
        obtain ⟨m, hMem⟩ := Impl.Accepts.announces hEnds
        exact hStates p m ((replay_extends_trace hTracks' hRest).1.subset hMem)
      obtain ⟨d', hBoth, hNext⟩ := h.apply hHands hApply hOwn
      obtain ⟨d'', hAll, hLast⟩ := ih hTracks' hNext hRest
      exact ⟨d'', Impl.replay_cons_eq_ok.mpr ⟨d', hBoth, hAll⟩, hLast⟩

/-! ### Between two messages -/

/-- A message without a target has left nothing of one. -/
def Targeted (a : Assembly) (d : Impl υ) : Prop := a.target = none → d.url = {} ∧ d.connected = false

theorem Targeted.keep {a b : Assembly} {d e : Impl υ} (h : Targeted a d) (hTarget : b.target = a.target)
    (hUrl : e.url = d.url) (hConnected : e.connected = d.connected) : Targeted b e := by
  intro hNone
  rw [hUrl, hConnected]
  exact h (hTarget.symm.trans hNone)

theorem setVersion_target (p : Fields) (d : Impl υ) :
    (d.setVersion p).url = d.url ∧ (d.setVersion p).connected = d.connected := by
  unfold Impl.setVersion Impl.chooseVersion
  split <;> exact ⟨rfl, rfl⟩

theorem Targeted.accepts {a : Assembly} {d e : Impl υ} {c : Callback} (h : Targeted a d)
    (hAccepts : Impl.Accepts cb d c e) : Targeted (assembler.next a c) e := by
  cases hAccepts with
  | messageBegin | messageBeginAgain => exact h
  | chunk hChunk =>
      rename_i p c
      cases c with
      | messageBegin => exact absurd rfl hChunk
      | chunkHeader | chunkComplete => exact h
  | url =>
      rw [Gatherer.next, Assembly.data_url]
      intro h
      cases h
  | status =>
      rw [Gatherer.next, Assembly.data_status]
      exact h
  | field | nextField =>
      rw [Gatherer.next, Assembly.data_headerField]
      exact h.keep (flush_target a) rfl rfl
  | trailerField =>
      obtain ⟨-, hUrl, hConnected⟩ := flushTrailer_object cb d
      rw [Gatherer.next, Assembly.data_headerField]
      exact h.keep (flush_target a) hUrl hConnected
  | value =>
      rw [Gatherer.next, Assembly.data_headerValue]
      exact h
  | ignored | body =>
      rw [Gatherer.next, Assembly.data_body]
      exact h
  | headersComplete =>
      rename_i p _ _ _
      obtain ⟨hUrl, hConnected⟩ := setVersion_target p d
      exact h.keep (flush_target a) hUrl hConnected
  | lastHeader =>
      rename_i p _ _ _ _ _
      obtain ⟨hUrl, hConnected⟩ := setVersion_target p d
      exact h.keep (flush_target a) hUrl hConnected
  | messageComplete => exact fun _ => ⟨rfl, rfl⟩

/-- The target, along any run of a decoder. -/
theorem targeted_invariant (cb : Callbacks υ) :
    Invariant cb assembler (fun v => v.misplaced = false) (fun a d => Tracks a d ∧ Targeted a d)
      (fun _ => True) (fun _ => True) (fun p _ _ v => Placed p v) (fun _ _ => True) where
  listens :=
    { ok := by
        intro a d c e hBoth _ hApply
        have hEnds : Impl.Ends cb a d c (d.apply cb c) := Impl.apply_ends hBoth.1 c
        rw [hApply] at hEnds
        exact ⟨Impl.Accepts.tracks hBoth.1 hEnds, hBoth.2.accepts hEnds⟩
      failed := fun _ _ _ => trivial
      fault := fun _ _ _ => trivial
      always := fun _ => trivial }
  step hl h _ := step_placing hl h
  good h := h.unmisplaced
  cut _ h := placed_cut h
  error _ _ := ⟨{}, ⟨Impl.reset_tracks [] false, fun _ => ⟨rfl, rfl⟩⟩, placed_fresh []⟩

/-- A codec as its callbacks know it, which may be in the middle of a message. -/
structure Running (c : HttpCodec υ) : Prop where
  targeted : Conducted assembler (fun a d => Tracks a d ∧ Targeted a d) (fun p _ _ v => Placed p v) c
  versioned : Conducted assembler (fun a d => Tracks a d ∧ Versioned d) (fun p _ _ v => Placed p v) c

namespace Running

variable {c c' : HttpCodec υ}

theorem init (object : Message) (user : υ) : Running (HttpCodec.init object user) := by
  have hTracks : Tracks {} (Impl.init object user) := Impl.reset_tracks (d := Impl.init object user) [] false
  have hNew : Versioned (Impl.init object user) :=
    ⟨fun _ _ hMem => (nomatch hMem), fun hSet => absurd rfl hSet, fun _ _ _ hMem => (nomatch hMem)⟩
  constructor
  · exact ⟨⟨rfl, rfl⟩, enter_regular_fresh, {}, ⟨hTracks, fun _ => ⟨rfl, rfl⟩⟩, placed_fresh []⟩
  · exact ⟨⟨rfl, rfl⟩, enter_regular_fresh, {}, ⟨hTracks, hNew⟩, placed_fresh []⟩

theorem accepts (h : Running c) (hFatal : cb.Fatal) {pieces : List ByteString}
    (hAccepts : c.accepts cb pieces c') : Running c' := by
  obtain ⟨oks, hAll, -⟩ := hAccepts
  have hFree : ∀ s ∈ c.decodeAllSteps cb pieces, True := fun _ _ => trivial
  have hTargeted := decodeAll_keeps (targeted_invariant cb) hFatal h.targeted hFree
  have hVersioned := decodeAll_keeps (version_invariant cb) hFatal h.versioned hFree
  rw [hAll] at hTargeted hVersioned
  exact ⟨hTargeted, hVersioned⟩

/-- Where a message ends, the codec is reset. -/
theorem reset (h : Running c) (hEnds : c.parser = fresh) : c.impl.reset = c.impl := by
  obtain ⟨a, ⟨hTracks, hTargeted⟩, hEnters⟩ := h.targeted.gathered
  rw [hEnds] at hEnters
  have hIdle : a = { done := a.done } := hEnters.2
  have hTarget := hTargeted (by rw [hIdle])
  rw [hIdle] at hTracks
  obtain ⟨hInstalled, hCompleted, hIgnore, hGot, hKey, hValue, hUrline, hStatus, -⟩ := hTracks
  obtain ⟨parser, impl, ignoreContentLen⟩ := c
  obtain ⟨installed, object, version, ignore, connected, gotHeader, headersCompleted, urline, status,
    key, value, url, user, trace⟩ := impl
  dsimp only at hTarget hInstalled hCompleted hIgnore hGot hKey hValue hUrline hStatus
  rw [hTarget.1, hTarget.2, hInstalled, hCompleted, hIgnore, hGot, hKey, hValue, hUrline, hStatus]
  rfl

end Running

/-! ### Messages one after another -/

/-- The headers that are announced. -/
def announcements (es : List Event) : List (Fields × Message) :=
  es.filterMap fun
    | .headersDone p m => some (p, m)
    | _ => none

theorem mem_announcements {es : List Event} {p : Fields} {m : Message} :
    (p, m) ∈ announcements es ↔ .headersDone p m ∈ es := by
  rw [announcements, List.mem_filterMap]
  constructor
  · intro ⟨ev, hMem, hEq⟩
    cases ev with
    | headersDone q n =>
        cases hEq
        exact hMem
    | begin | header | body | trailer | completion | error => cases hEq
  · intro hMem
    exact ⟨_, hMem, rfl⟩

/-- The pieces are one message: a new codec takes them, announces headers once, completes once
and is then where the next message begins. -/
structure OneMessage (cb : Callbacks υ) (object : Message) (user : υ) (pieces : List ByteString)
    (e : HttpCodec υ) : Prop where
  accepts : (HttpCodec.init object user).accepts cb pieces e
  ends : e.parser = fresh
  announced : (announcements e.impl.trace).length = 1
  completed : e.impl.trace.count .completion = 1

/-- The reads bring the pieces of the messages in order; a read may bring the last piece of a
message together with the first of the next. -/
inductive Brings : List ByteString → List (List ByteString) → Prop
  | nil : Brings [] []
  | apart {reads : List ByteString} {msgs : List (List ByteString)} (pieces : List ByteString)
      (h : Brings reads msgs) : Brings (pieces ++ reads) (pieces :: msgs)
  | together {first : ByteString} {reads : List ByteString} {msgs : List (List ByteString)}
      (pieces : List ByteString) (last : ByteString) (h : Brings (first :: reads) msgs) :
      Brings (pieces ++ (last ++ first) :: reads) ((pieces ++ [last]) :: msgs)

/-- The one codec makes of each message what a new codec makes of it. -/
def Independent (cb : Callbacks υ) (object : Message) (user : υ) (reads : List ByteString)
    (alone : List (HttpCodec υ)) : Prop :=
  ∃ c, (HttpCodec.init object user).accepts cb reads c ∧
    c.impl.trace = alone.flatMap fun e => e.impl.trace

/-- All messages state the same version, as far as the codec tells versions apart. -/
def SameVersion (alone : List (HttpCodec υ)) : Prop :=
  ∃ version, ∀ e ∈ alone, ∀ x ∈ announcements e.impl.trace, ownVersion x.1 = version

/-! ### The runs -/

theorem accepts_cons {c d : HttpCodec υ} {piece : ByteString} {rest : List ByteString} :
    c.accepts cb (piece :: rest) d ↔ ∃ t, c.decode cb piece = .ok (t, true) ∧ t.accepts cb rest d := by
  constructor
  · intro ⟨oks, hAll, hOks⟩
    obtain ⟨⟨t, ok⟩, hPiece, hAll⟩ := bind_eq_ok.mp hAll
    obtain ⟨⟨u, oks'⟩, hRest, hAll⟩ := bind_eq_ok.mp hAll
    cases hAll
    obtain rfl := hOks ok List.mem_cons_self
    exact ⟨t, hPiece, oks', hRest, fun ok hOk => hOks ok (List.mem_cons_of_mem _ hOk)⟩
  · intro ⟨t, hPiece, oks, hRest, hOks⟩
    refine ⟨true :: oks, bind_eq_ok.mpr ⟨_, hPiece, bind_eq_ok.mpr ⟨_, hRest, rfl⟩⟩, ?_⟩
    intro ok hOk
    cases List.mem_cons.mp hOk with
    | inl hFirst => exact hFirst
    | inr hLater => exact hOks ok hLater

theorem accepts_append {c d : HttpCodec υ} {front back : List ByteString} :
    c.accepts cb (front ++ back) d ↔ ∃ t, c.accepts cb front t ∧ t.accepts cb back d := by
  induction front generalizing c with
  | nil =>
      constructor
      · intro h
        exact ⟨c, ⟨[], rfl, nofun⟩, h⟩
      · intro ⟨t, hNone, hBack⟩
        obtain ⟨oks, hAll, -⟩ := hNone
        cases hAll
        exact hBack
  | cons piece front ih =>
      rw [List.cons_append, accepts_cons]
      constructor
      · intro ⟨t, hPiece, hRest⟩
        obtain ⟨u, hFront, hBack⟩ := ih.mp hRest
        exact ⟨u, accepts_cons.mpr ⟨t, hPiece, hFront⟩, hBack⟩
      · intro ⟨u, hFront, hBack⟩
        obtain ⟨t, hPiece, hRest⟩ := accepts_cons.mp hFront
        exact ⟨t, hPiece, ih.mpr ⟨u, hRest, hBack⟩⟩

theorem accepts_unique {c d e : HttpCodec υ} {pieces : List ByteString} (hd : c.accepts cb pieces d)
    (he : c.accepts cb pieces e) : d = e := by
  obtain ⟨oks, hAll, -⟩ := hd
  obtain ⟨oks', hAll', -⟩ := he
  rw [hAll] at hAll'
  exact congrArg Prod.fst (Except.ok.inj hAll')

/-- A read that brings the end of a message and the beginning of the next is as good as two. -/
theorem Running.accepts_together (hFatal : cb.Fatal) {c t e : HttpCodec υ} (h : Running c)
    {front back : List ByteString} {last first : ByteString} (hFront : c.accepts cb (front ++ [last]) t)
    (hEnds : t.parser = fresh) :
    c.accepts cb (front ++ (last ++ first) :: back) e ↔ t.accepts cb (first :: back) e := by
  obtain ⟨u, hPieces, hLast⟩ := accepts_append.mp hFront
  obtain ⟨t', hDecode, hNone⟩ := accepts_cons.mp hLast
  obtain ⟨oks, hEq, -⟩ := hNone
  cases hEq
  have hRunning := h.accepts hFatal hPieces
  have hAppend : u.decode cb (last ++ first) = t.decode cb first :=
    decode_append hFatal hRunning.targeted.ready hRunning.targeted.regular hDecode hEnds first
  constructor
  · intro hAll
    obtain ⟨u', hPieces', hRest⟩ := accepts_append.mp hAll
    obtain rfl := accepts_unique hPieces hPieces'
    obtain ⟨v, hBoth, hBack⟩ := accepts_cons.mp hRest
    rw [hAppend] at hBoth
    exact accepts_cons.mpr ⟨v, hBoth, hBack⟩
  · intro hNext
    obtain ⟨v, hFirst, hBack⟩ := accepts_cons.mp hNext
    rw [← hAppend] at hFirst
    exact accepts_append.mpr ⟨u, hPieces, accepts_cons.mpr ⟨v, hFirst, hBack⟩⟩

/-- Where a message has ended, in a codec that announces messages with the version. -/
structure Between (version : ProtoVersion) (c : HttpCodec υ) : Prop extends Running c where
  ends : c.parser = fresh
  version : c.impl.version = .UNSET ∨ c.impl.version = version

variable {object : Message} {user : υ} {c e : HttpCodec υ}

theorem Between.alongside (h : Between version c) (object : Message) (user : υ) :
    Alongside version c.impl.trace c.impl (Impl.init object user) := by
  refine Alongside.of_eq ?_ h.version (.inl rfl) nofun
  conv_lhs => rw [← h.toRunning.reset h.ends]
  simp [Impl.under, Impl.init, Impl.reset]

/-- One more message. -/
theorem Between.message (hHands : Hands cb blank) (h : Between version c) {pieces : List ByteString}
    (hOne : OneMessage cb object user pieces e)
    (hStates : ∀ p m, .headersDone p m ∈ e.impl.trace → ownVersion p = version) :
    ∃ c', c.accepts cb pieces c' ∧ Between version c' ∧ c'.impl.trace = c.impl.trace ++ e.impl.trace := by
  obtain ⟨p, cs, d, hEmit, hReplay, hEq⟩ :=
    (accepts_iff hHands.fatal ⟨rfl, rfl⟩ enter_regular_fresh).mp hOne.accepts
  have hTracks : Tracks {} (Impl.init object user) := Impl.reset_tracks (d := Impl.init object user) [] false
  have hTrace : e.impl.trace = d.trace := by rw [hEq]; rfl
  have hFresh : p = fresh := by
    have hEnds := hOne.ends
    rw [hEq] at hEnds
    exact hEnds
  rw [hTrace] at hStates ⊢
  obtain ⟨d', hBoth, hNext⟩ := (h.alongside object user).replay hHands hTracks hReplay hStates
  have hStart : emitAll c.parser pieces = some (p, cs) := by
    rw [h.ends]
    exact hEmit
  have hAccepts : c.accepts cb pieces (c.update p d') :=
    (accepts_iff hHands.fatal h.targeted.ready h.targeted.regular).mpr ⟨p, cs, d', hStart, hBoth, rfl⟩
  refine ⟨c.update p d', hAccepts, ⟨h.toRunning.accepts hHands.fatal hAccepts, hFresh, hNext.version_eq⟩, ?_⟩
  exact hNext.trace

/-- All the messages. -/
theorem Between.messages (hHands : Hands cb blank) {reads : List ByteString} {msgs : List (List ByteString)}
    (hBrings : Brings reads msgs) {alone : List (HttpCodec υ)}
    (hOnes : List.Forall₂ (OneMessage cb object user) msgs alone) (h : Between version c)
    (hStates : ∀ e ∈ alone, ∀ p m, .headersDone p m ∈ e.impl.trace → ownVersion p = version) :
    ∃ c', c.accepts cb reads c' ∧ c'.impl.trace = c.impl.trace ++ alone.flatMap fun e => e.impl.trace := by
  induction hBrings generalizing c alone with
  | nil =>
      cases hOnes
      exact ⟨c, ⟨[], rfl, nofun⟩, (List.append_nil _).symm⟩
  | apart pieces hBrings ih =>
      cases hOnes with
      | @cons _ e _ rest hOne hRest =>
          obtain ⟨t, hFirst, hBetween, hTrace⟩ :=
            h.message hHands hOne (hStates e List.mem_cons_self)
          obtain ⟨c', hLater, hTrace'⟩ :=
            ih hRest hBetween fun f hf => hStates f (List.mem_cons_of_mem _ hf)
          refine ⟨c', accepts_append.mpr ⟨t, hFirst, hLater⟩, ?_⟩
          rw [hTrace', hTrace, List.flatMap_cons, List.append_assoc]
  | together pieces last hBrings ih =>
      cases hOnes with
      | @cons _ e _ rest hOne hRest =>
          obtain ⟨t, hFirst, hBetween, hTrace⟩ :=
            h.message hHands hOne (hStates e List.mem_cons_self)
          obtain ⟨c', hLater, hTrace'⟩ :=
            ih hRest hBetween fun f hf => hStates f (List.mem_cons_of_mem _ hf)
          refine ⟨c', ?_, by rw [hTrace', hTrace, List.flatMap_cons, List.append_assoc]⟩
          exact (h.toRunning.accepts_together hHands.fatal hFirst hBetween.ends).mpr hLater

theorem OneMessage.of_mem {msgs : List (List ByteString)} {alone : List (HttpCodec υ)}
    (hOnes : List.Forall₂ (OneMessage cb object user) msgs alone) (he : e ∈ alone) :
    ∃ pieces, OneMessage cb object user pieces e := by
  induction hOnes with
  | nil => cases he
  | @cons pieces f msgs rest hOne hRest ih =>
      cases List.mem_cons.mp he with
      | inl hFirst => exact ⟨pieces, hFirst ▸ hOne⟩
      | inr hLater => exact ih hLater

/-- One codec makes of each message what a new codec makes of it, wherever the reads are cut, if
and only if all messages state the same version. -/
theorem messages_independent_iff (hHands : Hands cb blank) (object : Message) (user : υ)
    {reads : List ByteString} {msgs : List (List ByteString)} (hBrings : Brings reads msgs)
    {alone : List (HttpCodec υ)} (hOnes : List.Forall₂ (OneMessage cb object user) msgs alone) :
    Independent cb object user reads alone ↔ SameVersion alone := by
  constructor
  · intro ⟨c, hAccepts, hTrace⟩
    have hAll : Versioned c.impl := by
      obtain ⟨a, ⟨-, hVersioned⟩, -⟩ :=
        ((Running.init object user).accepts hHands.fatal hAccepts).versioned.gathered
      exact hVersioned
    refine ⟨c.impl.version, ?_⟩
    intro e he ⟨p, m⟩ hx
    have hMem := mem_announcements.mp hx
    have hIn : .headersDone p m ∈ c.impl.trace := by
      rw [hTrace]
      exact List.mem_flatMap.mpr ⟨e, he, hMem⟩
    obtain ⟨pieces, hOne⟩ := OneMessage.of_mem hOnes he
    obtain ⟨a, ⟨-, hOwn⟩, -⟩ :=
      ((Running.init object user).accepts hHands.fatal hOne.accepts).versioned.gathered
    have hSame : m.data.protocolVersion = ownVersion p := by
      apply hOwn.own _ p m hMem
      obtain ⟨y, hy⟩ := List.length_eq_one_iff.mp hOne.announced
      intro p₁ m₁ p₂ m₂ h₁ h₂
      have h₁' := mem_announcements.mpr h₁
      have h₂' := mem_announcements.mpr h₂
      rw [hy, List.mem_singleton] at h₁' h₂'
      exact congrArg (fun y => ownVersion y.1) (h₁'.trans h₂'.symm)
    show ownVersion p = c.impl.version
    rw [← hSame]
    exact hAll.announced p m hIn
  · intro ⟨version, hStates⟩
    have hStart : Between version (HttpCodec.init object user) := ⟨Running.init object user, rfl, .inl rfl⟩
    obtain ⟨c, hAccepts, hTrace⟩ := hStart.messages hHands hBrings hOnes
      fun e he p m hMem => hStates e he (p, m) (mem_announcements.mpr hMem)
    exact ⟨c, hAccepts, hTrace⟩

/-! ### Two requests -/

/-- Callbacks that decode each message into a new request, and do nothing else. -/
def handing : Callbacks Unit where
  begin _ _ := (some (.request .fresh), ())
  header m _ := (m, ())
  body _ _ := ()
  trailer _ _ _ := ()
  completion _ := ()
  error _ _ := ((), true)

theorem handing_hands : Hands handing (.request .fresh) :=
  ⟨fun _ _ => rfl, fun _ _ => rfl, fun _ _ => rfl⟩

/-- The codec that has decoded these pieces. -/
def decoded (pieces : List ByteString) : HttpCodec Unit :=
  match (HttpCodec.init (.request .fresh) ()).decodeAll handing pieces with
  | .ok (c, _) => c
  | .error _ => .init (.request .fresh) ()

/-- The pieces are one message of that version. -/
def isOneMessage (version : ProtoVersion) (pieces : List ByteString) : Bool :=
  match (HttpCodec.init (.request .fresh) ()).decodeAll handing pieces with
  | .error _ => false
  | .ok (c, oks) =>
      oks.all id && decide (c.parser = fresh) && decide (c.impl.trace.count .completion = 1) &&
        decide ((announcements c.impl.trace).map (fun x => ownVersion x.1) = [version])

theorem isOneMessage_elim {version : ProtoVersion} {pieces : List ByteString}
    (h : isOneMessage version pieces = true) :
    OneMessage handing (.request .fresh) () pieces (decoded pieces) ∧
      ∀ x ∈ announcements (decoded pieces).impl.trace, ownVersion x.1 = version := by
  unfold isOneMessage at h
  unfold decoded
  split at h
  case h_1 => cases h
  case h_2 c oks hAll =>
    rw [hAll]
    simp only [Bool.and_eq_true, decide_eq_true_eq] at h
    obtain ⟨⟨⟨hOks, hEnds⟩, hCompleted⟩, hVersions⟩ := h
    have hLength := congrArg List.length hVersions
    rw [List.length_map] at hLength
    refine ⟨⟨⟨oks, hAll, List.all_eq_true.mp hOks⟩, hEnds, hLength, hCompleted⟩, ?_⟩
    intro x hx
    have hMem := List.mem_map_of_mem (f := fun x => ownVersion x.1) hx
    rw [hVersions] at hMem
    exact List.mem_singleton.mp hMem

/-- A request of that version. -/
def plainRequest (version : String) : ByteString := ofString ("GET / HTTP/" ++ version ++ "\r\nhost: a\r\n\r\n")

theorem Brings.joined (first front back : ByteString) :
    Brings [first ++ front, back] [[first], [front, back]] := by
  have hLast := Brings.apart [front, back] .nil
  rw [List.append_nil] at hLast
  exact .together [] first hLast

/-- Two requests, the second of which begins in the read that ends the first. -/
theorem messages_independent_iff_pair :
    Independent handing (.request .fresh) () [plainRequest "1.1" ++ (plainRequest "1.1").take 7,
        (plainRequest "1.1").drop 7]
      [decoded [plainRequest "1.1"], decoded [(plainRequest "1.1").take 7, (plainRequest "1.1").drop 7]] := by
  have hFirst : isOneMessage .HTTP11 [plainRequest "1.1"] = true := by decide +kernel
  have hSecond : isOneMessage .HTTP11 [(plainRequest "1.1").take 7, (plainRequest "1.1").drop 7] = true := by
    decide +kernel
  obtain ⟨hOne, hVersion⟩ := isOneMessage_elim hFirst
  obtain ⟨hOne', hVersion'⟩ := isOneMessage_elim hSecond
  have hSame : SameVersion [decoded [plainRequest "1.1"],
      decoded [(plainRequest "1.1").take 7, (plainRequest "1.1").drop 7]] := by
    refine ⟨.HTTP11, ?_⟩
    intro e he
    cases List.mem_cons.mp he with
    | inl hEq => exact hEq ▸ hVersion
    | inr hRest => exact List.mem_singleton.mp hRest ▸ hVersion'
  exact (messages_independent_iff handing_hands _ _ (Brings.joined _ _ _)
    (.cons hOne (.cons hOne' .nil))).mpr hSame

/-- An HTTP/1.0 request after one of HTTP/1.1 is announced as HTTP/1.1. -/
theorem second_version_lost :
    List.Forall₂ (OneMessage handing (.request .fresh) ()) [[plainRequest "1.1"], [plainRequest "1.0"]]
        [decoded [plainRequest "1.1"], decoded [plainRequest "1.0"]] ∧
      ¬ Independent handing (.request .fresh) () [plainRequest "1.1", plainRequest "1.0"]
        [decoded [plainRequest "1.1"], decoded [plainRequest "1.0"]] := by
  have hFirst : isOneMessage .HTTP11 [plainRequest "1.1"] = true := by decide +kernel
  have hSecond : isOneMessage .HTTP10 [plainRequest "1.0"] = true := by decide +kernel
  refine ⟨.cons (isOneMessage_elim hFirst).1 (.cons (isOneMessage_elim hSecond).1 .nil), ?_⟩
  intro ⟨c, hAccepts, hTrace⟩
  obtain ⟨oks, hAll, -⟩ := hAccepts
  have hOther : (match (HttpCodec.init (.request .fresh) ()).decodeAll handing
        [plainRequest "1.1", plainRequest "1.0"] with
      | .error _ => false
      | .ok (c, _) => decide (c.impl.trace = [decoded [plainRequest "1.1"],
          decoded [plainRequest "1.0"]].flatMap fun e => e.impl.trace)) = false := by decide +kernel
  rw [hAll] at hOther
  exact of_decide_eq_false hOther hTrace

end Doormat.Http
