import Doormat.Http.Reuse
import Doormat.Http.Version

/-! A codec on its own beside one with a past: from the same bytes the two announce the
same messages, whatever their callbacks do with them. -/
namespace Doormat.Http

open Bytes Doormat.Parser

variable {υ υ' : Type} {cb : Callbacks υ} {cb' : Callbacks υ'} {blank : Message} {lost : υ → Prop}
  {past : List Event} {version : ProtoVersion} {given : υ → List Event → Prop}

/-- The codec with other callbacks, another version and a past. -/
def Impl.under (past : List Event) (user : υ) (version : ProtoVersion) (e : Impl υ') : Impl υ where
  installed := e.installed
  object := e.object
  version := version
  ignore := e.ignore
  connected := e.connected
  gotHeader := e.gotHeader
  headersCompleted := e.headersCompleted
  urline := e.urline
  status := e.status
  key := e.key
  value := e.value
  url := e.url
  user := user
  trace := past ++ e.trace

/-- What has been given away stays given, and more is given with every message only. -/
structure Gives (cb : Callbacks υ) (given : υ → List Event → Prop) : Prop where
  more : ∀ {user trace} ev, given user trace → given user (trace ++ [ev])
  begin : ∀ m {user trace}, given user trace → given (cb.begin m user).2 trace
  header : ∀ p m {user trace}, given user trace →
    given (cb.header m user).2 (trace ++ [.headersDone p m])
  body : ∀ bytes {user trace}, given user trace → given (cb.body bytes user) trace
  trailer : ∀ key value {user trace}, given user trace → given (cb.trailer key value user) trace
  completion : ∀ {user trace}, given user trace → given (cb.completion user) trace
  error : ∀ e {user trace}, given user trace → given (cb.error e user).1 trace

/-- A message is announced that states another version. -/
def Event.StatesOther (version : ProtoVersion) (ev : Event) : Prop :=
  ∃ p m, ev = .headersDone p m ∧ ownVersion p ≠ version

/-- The one codec is the other but for its past and its callbacks. Either announces messages
with `version`, once it has announced one. -/
inductive Beside (version : ProtoVersion) (past : List Event) (given : υ → List Event → Prop) :
    Impl υ → Impl υ' → Prop
  | intro {e : Impl υ'} {user : υ} {v : ProtoVersion} (hOwn : v = .UNSET ∨ v = version)
      (hAlone : e.version = .UNSET ∨ e.version = version) (hGiven : given user e.trace) :
      Beside version past given (e.under past user v) e

namespace Impl

variable {e : Impl υ'} {user : υ} {v : ProtoVersion}

theorem deref_under : (e.under past user v).deref = e.deref := rfl

theorem processCurrentHeader_under : (e.under past user v).processCurrentHeader =
    e.processCurrentHeader.map (under past user v) := by
  unfold processCurrentHeader
  rw [deref_under]
  cases hGot : e.gotHeader with
  | false => simp [under, hGot, Except.map]
  | true =>
      rw [if_neg (by simp [under, hGot]), if_neg (by simp)]
      rcases e.deref with f | m
      · rfl
      have hKey : (e.under past user v).key = e.key := rfl
      have hValue : (e.under past user v).value = e.value := rfl
      simp only [bind, Except.bind, hKey, hValue]
      rcases m.data.header e.key e.value with err | data
      · rfl
      · simp [Except.map, under, record]

theorem onUrl_under (bytes : ByteString) : (e.under past user v).onUrl bytes =
    (e.onUrl bytes).map (Prod.map id (under past user v)) := by
  have hUrline : (e.under past user v).urline = e.urline := rfl
  have hUrl : (e.under past user v).url = e.url := rfl
  have hConnected : (e.under past user v).connected = e.connected := rfl
  unfold onUrl
  simp only [hUrline, hUrl, hConnected]
  split
  · rfl
  show (e.deref >>= _) = Except.map _ (e.deref >>= _)
  rcases e.deref with f | m
  · rfl
  cases m with
  | response r => rfl
  | request r =>
      simp only [bind, Except.bind]
      split
      · rcases storeUrl r (e.urline ++ bytes) (httpParserParseUrl bytes e.connected e.url).1 with f | r'
        · rfl
        · rfl
      · rfl

theorem onStatus_under (code : Nat) (bytes : ByteString) : (e.under past user v).onStatus code bytes =
    (e.onStatus code bytes).map (Prod.map id (under past user v)) := by
  unfold onStatus
  rw [deref_under]
  rcases e.deref with f | m
  · rfl
  cases m with
  | request r => rfl
  | response r => rfl

theorem onHeaderField_under (bytes : ByteString) : (e.under past user v).onHeaderField bytes =
    (e.onHeaderField bytes).map (Prod.map id (under past user v)) := by
  have hHeaders : (e.under past user v).headersCompleted = e.headersCompleted := rfl
  unfold onHeaderField
  rw [hHeaders, processCurrentHeader_under]
  split
  · rfl
  rcases e.processCurrentHeader with f | d
  · rfl
  · rfl

theorem onUrl_keeps {bytes : ByteString} {rc : Nat} {e' : Impl υ'}
    (hRun : e.onUrl bytes = .ok (rc, e')) : e'.version = e.version ∧ e'.trace = e.trace := by
  unfold onUrl at hRun
  dsimp only at hRun
  split at hRun
  · cases hRun
    exact ⟨rfl, rfl⟩
  obtain ⟨m, -, hRun⟩ := bind_eq_ok.mp hRun
  cases m with
  | response r => cases hRun
  | request r =>
      dsimp only at hRun
      split at hRun
      · obtain ⟨r', -, hRun⟩ := bind_eq_ok.mp hRun
        cases hRun
        exact ⟨rfl, rfl⟩
      · cases hRun
        exact ⟨rfl, rfl⟩

theorem onStatus_keeps {code : Nat} {bytes : ByteString} {rc : Nat} {e' : Impl υ'}
    (hRun : e.onStatus code bytes = .ok (rc, e')) : e'.version = e.version ∧ e'.trace = e.trace := by
  unfold onStatus at hRun
  obtain ⟨m, -, hRun⟩ := bind_eq_ok.mp hRun
  cases m with
  | request r => cases hRun
  | response r =>
      cases hRun
      exact ⟨rfl, rfl⟩

theorem processCurrentHeader_keeps {e' : Impl υ'} (hRun : e.processCurrentHeader = .ok e') :
    e'.version = e.version ∧ (e'.trace = e.trace ∨ ∃ ev, e'.trace = e.trace ++ [ev]) := by
  unfold processCurrentHeader at hRun
  split at hRun
  · cases hRun
    exact ⟨rfl, .inl rfl⟩
  obtain ⟨m, -, hRun⟩ := bind_eq_ok.mp hRun
  split at hRun
  · cases hRun
  · cases hRun
    exact ⟨rfl, .inr ⟨_, rfl⟩⟩

theorem onHeaderField_keeps {bytes : ByteString} {rc : Nat} {e' : Impl υ'}
    (hRun : e.onHeaderField bytes = .ok (rc, e')) :
    e'.version = e.version ∧ (e'.trace = e.trace ∨ ∃ ev, e'.trace = e.trace ++ [ev]) := by
  unfold onHeaderField at hRun
  split at hRun
  · cases hRun
  obtain ⟨d, hProcess, hRun⟩ := bind_eq_ok.mp hRun
  have hKeeps := processCurrentHeader_keeps hProcess
  cases hRun
  exact hKeeps

end Impl

/-! ### Callback by callback -/

/-- How a callback ends beside the same one of a codec on its own, unless all is spoilt. -/
def Follows (lost : υ → Prop) (version : ProtoVersion) (past : List Event)
    (given : υ → List Event → Prop) :
    Except (Halt υ) (Impl υ) → Except (Halt υ') (Impl υ') → Prop
  | .ok d, r => Spoilt lost (Event.StatesOther version) d ∨
      ∃ e, r = .ok e ∧ Beside version past given d e
  | .error (.failed err d), r => Spoilt lost (Event.StatesOther version) d ∨
      ∃ e, r = .error (.failed err e) ∧ Beside version past given d e
  | .error (.fault _), _ => True

namespace Beside

variable {d : Impl υ} {e : Impl υ'}

/-- A callback that the owner does not notice. -/
theorem accept {user : υ} {v : ProtoVersion} (hOwn : v = .UNSET ∨ v = version)
    (hAlone : e.version = .UNSET ∨ e.version = version) (err : Errno)
    {r : Except Fault (Nat × Impl υ)} {r' : Except Fault (Nat × Impl υ')}
    (hSame : r = r'.map (Prod.map id (Impl.under past user v)))
    (hKept : ∀ rc e', r' = .ok (rc, e') → e'.version = e.version ∧ given user e'.trace) :
    Follows lost version past given (Http.accept err r) (Http.accept err r') := by
  rw [hSame]
  rcases r' with f | ⟨rc, e'⟩
  · trivial
  obtain ⟨hVersion, hGiven⟩ := hKept rc e' rfl
  have hBeside : Beside version past given (e'.under past user v) e' :=
    .intro hOwn (hVersion ▸ hAlone) hGiven
  simp only [Except.map, Prod.map, id, Http.accept]
  by_cases hrc : rc = 0
  · rw [if_neg (not_not_intro hrc), if_neg (not_not_intro hrc)]
    exact .inr ⟨e', rfl, hBeside⟩
  · rw [if_pos hrc, if_pos hrc]
    exact .inr ⟨e', rfl, hBeside⟩

theorem url (h : Beside version past given d e) (code : Nat) (bytes : ByteString) :
    Follows lost version past given (d.apply cb (.data code .url bytes))
      (e.apply cb' (.data code .url bytes)) := by
  obtain ⟨hOwn, hAlone, hGiven⟩ := h
  apply accept hOwn hAlone _ (Impl.onUrl_under bytes)
  intro rc e' hRun
  obtain ⟨hVersion, hTrace⟩ := Impl.onUrl_keeps hRun
  exact ⟨hVersion, hTrace ▸ hGiven⟩

theorem status (h : Beside version past given d e) (code : Nat) (bytes : ByteString) :
    Follows lost version past given (d.apply cb (.data code .status bytes))
      (e.apply cb' (.data code .status bytes)) := by
  obtain ⟨hOwn, hAlone, hGiven⟩ := h
  apply accept hOwn hAlone _ (Impl.onStatus_under code bytes)
  intro rc e' hRun
  obtain ⟨hVersion, hTrace⟩ := Impl.onStatus_keeps hRun
  exact ⟨hVersion, hTrace ▸ hGiven⟩

theorem of_same (hSame : d = e.under past d.user d.version)
    (hOwn : d.version = .UNSET ∨ d.version = version)
    (hAlone : e.version = .UNSET ∨ e.version = version) (hGiven : given d.user e.trace) :
    Beside version past given d e := by
  rw [hSame]
  exact .intro hOwn hAlone hGiven

theorem given_user (h : Beside version past given d e) : given d.user e.trace := by
  obtain ⟨-, -, hGiven⟩ := h
  exact hGiven

/-- The owner does something else. -/
theorem setUser (h : Beside version past given d e) {user : υ} (hGiven : given user e.trace) :
    Beside version past given { d with user := user } e := by
  obtain ⟨hOwn, hAlone, -⟩ := h
  exact of_same rfl hOwn hAlone hGiven

theorem trace (h : Beside version past given d e) : d.trace = past ++ e.trace := by
  obtain ⟨-, -, -⟩ := h
  rfl

/-- The trailer at hand goes to the owner. -/
theorem flushTrailer (h : Beside version past given d e) (hGives : Gives cb given) :
    Beside version past given (d.flushTrailer cb) (e.flushTrailer cb') := by
  obtain ⟨hOwn, hAlone, hGiven⟩ := h
  rename_i user v
  rw [Impl.flushTrailer, Impl.flushTrailer]
  show Beside _ _ _ (if e.gotHeader then _ else _) _
  split
  · refine of_same ?_ hOwn hAlone (hGives.more _ (hGives.trailer _ _ hGiven))
    simp [Impl.under, Impl.record]
  · exact .intro hOwn hAlone hGiven

theorem field (h : Beside version past given d e) (hGives : Gives cb given) (code : Nat)
    (bytes : ByteString) :
    Follows lost version past given (d.apply cb (.data code .headerField bytes))
      (e.apply cb' (.data code .headerField bytes)) := by
  have hFlushed : Beside version past given (d.flushTrailer cb) (e.flushTrailer cb') :=
    h.flushTrailer hGives
  obtain ⟨hOwn, hAlone, hGiven⟩ := h
  rename_i user v
  have hHeaders : (e.under past user v).headersCompleted = e.headersCompleted := rfl
  simp only [Impl.apply, Settings.data, settings, hHeaders]
  cases e.headersCompleted with
  | false =>
      apply accept hOwn hAlone _ (Impl.onHeaderField_under bytes)
      intro rc e' hRun
      obtain ⟨hVersion, hTrace | ⟨ev, hTrace⟩⟩ := Impl.onHeaderField_keeps hRun
      · exact ⟨hVersion, hTrace ▸ hGiven⟩
      · exact ⟨hVersion, hTrace ▸ hGives.more ev hGiven⟩
  | true =>
      refine .inr ⟨_, rfl, ?_⟩
      generalize (e.under past user v).flushTrailer cb = d' at hFlushed
      generalize e.flushTrailer cb' = e' at hFlushed
      obtain ⟨hOwn, hAlone, hGiven⟩ := hFlushed
      exact of_same rfl hOwn hAlone hGiven

theorem value (h : Beside version past given d e) (code : Nat) (bytes : ByteString) :
    Follows lost version past given (d.apply cb (.data code .headerValue bytes))
      (e.apply cb' (.data code .headerValue bytes)) := by
  obtain ⟨hOwn, hAlone, hGiven⟩ := h
  rename_i user v
  have hHeaders : (e.under past user v).headersCompleted = e.headersCompleted := rfl
  simp only [Impl.apply, Settings.data, settings, hHeaders]
  cases hCase : e.headersCompleted with
  | false =>
      simp only [Impl.onHeaderValue, hHeaders, hCase]
      exact .inr ⟨_, rfl, of_same rfl hOwn hAlone hGiven⟩
  | true => exact .inr ⟨_, rfl, of_same rfl hOwn hAlone hGiven⟩

theorem body (h : Beside version past given d e) (hGives : Gives cb given) (code : Nat)
    (bytes : ByteString) :
    Follows lost version past given (d.apply cb (.data code .body bytes))
      (e.apply cb' (.data code .body bytes)) := by
  obtain ⟨hOwn, hAlone, hGiven⟩ := h
  rename_i user v
  have hIgnore : (e.under past user v).ignore = e.ignore := rfl
  simp only [Impl.apply, Settings.data, settings, Impl.onBody, hIgnore]
  cases e.ignore with
  | true => exact .inr ⟨_, rfl, of_same rfl hOwn hAlone hGiven⟩
  | false =>
      refine .inr ⟨_, rfl, of_same ?_ hOwn hAlone (hGives.more _ (hGives.body _ hGiven))⟩
      simp [Impl.under, Impl.record]

theorem notify (h : Beside version past given d e) (hReuses : Reuses cb blank lost)
    (hAlone : Reuses cb' blank fun _ => False) (hGives : Gives cb given) (p : Fields)
    (c : Notification) :
    Follows lost version past given (d.apply cb (.notify p c)) (e.apply cb' (.notify p c)) := by
  obtain ⟨hOwn, hAlone', hGiven⟩ := h
  rename_i user v
  cases c with
  | messageBegin =>
      have hObject := hReuses.object e.object user
      have hObject' := hAlone.object e.object e.user
      have hShown : (e.under past user v).object = e.object := rfl
      have hUser : (e.under past user v).user = user := rfl
      simp only [Impl.apply, Settings.notification, settings, Impl.onMessageBegin, hShown, hUser, hObject, hObject']
      refine .inr ⟨_, rfl, of_same ?_ hOwn hAlone' (hGives.more _ (hGives.begin _ hGiven))⟩
      simp [Impl.under, Impl.record]
  | chunkHeader | chunkComplete =>
      simp only [Impl.apply, Settings.notification, settings, Impl.onChunk]
      refine .inr ⟨_, rfl, ?_⟩
      split
      · exact of_same rfl hOwn hAlone' hGiven
      · exact of_same rfl hOwn hAlone' hGiven

theorem completeMessage (h : Beside version past given d e) (hGives : Gives cb given) :
    Beside version past given (d.completeMessage cb) (e.completeMessage cb') := by
  have hFlushed : Beside version past given (d.flushTrailer cb) (e.flushTrailer cb') :=
    h.flushTrailer hGives
  unfold Impl.completeMessage
  generalize d.flushTrailer cb = d' at hFlushed
  generalize e.flushTrailer cb' = e' at hFlushed
  obtain ⟨hOwn, hAlone, hGiven⟩ := hFlushed
  refine of_same ?_ hOwn hAlone (hGives.more _ (hGives.completion hGiven))
  simp [Impl.under, Impl.record, Impl.reset]

/-- The end of the headers, step by step. -/
theorem onHeadersComplete_eq {p : Fields} (hMajor : p.httpMajor = 1) (d : Impl υ) :
    d.onHeadersComplete cb p =
      d.deref >>= fun _ => (d.setVersion p).processCurrentHeader >>= fun d =>
        .ok (0, d.announceHeaders cb p) := by
  have hInstalled : (d.chooseVersion p).installed = d.installed := by
    unfold Impl.chooseVersion
    split
    · rfl
    · rfl
  have hObject : (d.chooseVersion p).object = d.object := by
    unfold Impl.chooseVersion
    split
    · rfl
    · rfl
  rw [Impl.onHeadersComplete, if_neg (not_not_intro hMajor)]
  dsimp only
  cases hCase : d.installed with
  | false =>
      rw [Impl.deref_error hCase, Impl.deref_error (hInstalled.trans hCase)]
      rfl
  | true =>
      rw [Impl.deref_ok hCase, Impl.deref_ok (hInstalled.trans hCase), hObject]
      rfl

/-- Both announce a message that states the version with that version. -/
theorem setVersion (h : Beside version past given d e) {p : Fields}
    (hStates : ownVersion p = version) : Beside version past given (d.setVersion p) (e.setVersion p) := by
  have hChosen : ∀ {υ : Type} (d : Impl υ), d.version = .UNSET ∨ d.version = version →
      d.chooseVersion p = { d with version := version } := by
    intro υ d hOwn
    unfold Impl.chooseVersion
    by_cases hUnset : d.version = .UNSET
    · rw [if_pos hUnset, ← hStates]
      rfl
    · rw [if_neg hUnset, ← hOwn.resolve_left hUnset]
  obtain ⟨hOwn, hAlone, hGiven⟩ := h
  rename_i user v
  unfold Impl.setVersion
  rw [hChosen _ hAlone, hChosen (e.under past user v) hOwn]
  exact of_same rfl (.inr rfl) (.inr rfl) hGiven

/-- Both clear the object, unless the owner does not. -/
theorem announceHeaders (h : Beside version past given d e) (hReuses : Reuses cb blank lost)
    (hAlone : Reuses cb' blank fun _ => False) (hGives : Gives cb given) (p : Fields) :
    lost (d.announceHeaders cb p).user ∨
      Beside version past given (d.announceHeaders cb p) (e.announceHeaders cb' p) := by
  obtain ⟨hOwn, hAlone', hGiven⟩ := h
  rename_i user v
  have hCleared := (hAlone.clears (Impl.completeHeaders p e.object) e.user).resolve_left id
  refine (hReuses.clears (Impl.completeHeaders p e.object) user).imp_right ?_
  intro hBlank
  refine of_same ?_ hOwn hAlone' (hGives.header p _ hGiven)
  have hObject : (e.under past user v).object = e.object := rfl
  have hUser : (e.under past user v).user = user := rfl
  simp only [Impl.announceHeaders, hObject, hUser, hBlank, hCleared]
  simp [Impl.under, Impl.record]

/-- The header at hand is taken by both. -/
theorem processCurrentHeader (h : Beside version past given d e) (hGives : Gives cb given) {d' : Impl υ}
    (hRun : d.processCurrentHeader = .ok d') :
    ∃ e', e.processCurrentHeader = .ok e' ∧ Beside version past given d' e' := by
  obtain ⟨hOwn, hAlone, hGiven⟩ := h
  rename_i user v
  rw [Impl.processCurrentHeader_under] at hRun
  rcases hTaken : e.processCurrentHeader with f | e'
  · rw [hTaken] at hRun
    cases hRun
  · rw [hTaken] at hRun
    cases hRun
    obtain ⟨hVersion, hTrace⟩ := Impl.processCurrentHeader_keeps hTaken
    refine ⟨e', rfl, .intro hOwn (hVersion ▸ hAlone) ?_⟩
    rcases hTrace with hTrace | ⟨ev, hTrace⟩
    · exact hTrace ▸ hGiven
    · exact hTrace ▸ hGives.more ev hGiven

theorem headersComplete (h : Beside version past given d e) (hReuses : Reuses cb blank lost)
    (hAlone : Reuses cb' blank fun _ => False) (hGives : Gives cb given) (p : Fields) :
    Follows lost version past given (d.apply cb (.headersComplete p))
      (e.apply cb' (.headersComplete p)) := by
  by_cases hMajor : p.httpMajor = 1
  case neg =>
    rw [Impl.apply, Impl.onHeadersComplete, if_pos hMajor]
    trivial
  rw [Impl.apply, Impl.apply, onHeadersComplete_eq hMajor, onHeadersComplete_eq hMajor]
  have hDeref : d.deref = e.deref := by
    obtain ⟨hOwn, hAlone', hGiven⟩ := h
    rfl
  rw [hDeref]
  rcases e.deref with f | m
  · trivial
  rcases hTaken : (d.setVersion p).processCurrentHeader with f | d'
  · trivial
  by_cases hStates : ownVersion p = version
  · obtain ⟨e', hTaken', hBeside⟩ := (h.setVersion hStates).processCurrentHeader hGives hTaken
    rw [hTaken']
    rcases hBeside.announceHeaders hReuses hAlone hGives p with hLost | hAnnounced
    · exact .inl (.inl hLost)
    · exact .inr ⟨_, rfl, hAnnounced⟩
  · refine .inl (.inr ⟨_, List.mem_append_right _ (List.mem_singleton.mpr rfl), p, _, rfl, hStates⟩)

/-- Every callback, beside the same one of the codec on its own. -/
theorem apply (h : Beside version past given d e) (hReuses : Reuses cb blank lost)
    (hAlone : Reuses cb' blank fun _ => False) (hGives : Gives cb given) (c : Callback) :
    Follows lost version past given (d.apply cb c) (e.apply cb' c) := by
  cases c with
  | notify p c => exact h.notify hReuses hAlone hGives p c
  | data code m bytes =>
      cases m with
      | headerField => exact h.field hGives code bytes
      | headerValue => exact h.value code bytes
      | url => exact h.url code bytes
      | body => exact h.body hGives code bytes
      | status => exact h.status code bytes
  | headersComplete p => exact h.headersComplete hReuses hAlone hGives p
  | messageComplete => exact .inr ⟨_, rfl, h.completeMessage hGives⟩

/-- The error goes to the owner, and both start over. -/
theorem failure (h : Beside version past given d e) (hGives : Gives cb given) (err : Errno) :
    Beside version past given
      ({ d.record (.error err) with user := (cb.error err d.user).1 } : Impl υ).reset
      ({ e.record (.error err) with user := (cb'.error err e.user).1 } : Impl υ').reset := by
  obtain ⟨hOwn, hAlone, hGiven⟩ := h
  refine of_same ?_ hOwn hAlone (hGives.more _ (hGives.error err hGiven))
  simp [Impl.under, Impl.record, Impl.reset]

end Beside

/-! ### A whole run -/

/-- The codec holds what some callbacks have told it. -/
def Sound (d : Impl υ) : Prop := ∃ a, Tracks a d

/-- Either all is spoilt, or `r` is what `f` makes of a codec on its own beside `d`. -/
def Abreast {ρ : Type} (lost : υ → Prop) (version : ProtoVersion) (past : List Event)
    (given : υ → List Event → Prop) (f : Impl υ' → ρ) (d : Impl υ) (r : ρ) : Prop :=
  Spoilt lost (Event.StatesOther version) d ∨ ∃ e, r = f e ∧ Beside version past given d e

/-- One thing after the other. -/
theorem Abreast.bind {σ τ : Type} {f : Impl υ' → Except Fault σ} {g : Impl υ' → σ}
    {F : σ → Except Fault τ} {d d₁ : Impl υ} {r : Except Fault τ} {P : Prop}
    (h : Abreast lost version past given (fun e => f e >>= F) d r)
    (hFirst : ∀ q, Abreast lost version past given f d q →
      P ∧ Abreast lost version past given (fun e => .ok (g e)) d₁ q) :
    P ∧ Abreast lost version past given (fun e => F (g e)) d₁ r := by
  rcases h with hSpoilt | ⟨e, rfl, hBeside⟩
  · obtain ⟨hP, hSpoilt | ⟨e, hEq, -⟩⟩ := hFirst (.error .noData) (.inl hSpoilt)
    · exact ⟨hP, .inl hSpoilt⟩
    · cases hEq
  · obtain ⟨hP, hSpoilt | ⟨e', hEq, hBeside'⟩⟩ := hFirst (f e) (.inr ⟨e, rfl, hBeside⟩)
    · exact ⟨hP, .inl hSpoilt⟩
    · refine ⟨hP, .inr ⟨e', ?_, hBeside'⟩⟩
      show (f e >>= F) = F (g e')
      rw [hEq]
      rfl

/-- What comes after a callback. -/
def resume (failed : Flow) (k : Impl υ → Except Fault (Flow × Impl υ)) :
    Except (Halt υ) (Impl υ) → Except Fault (Flow × Impl υ)
  | .ok d => k d
  | .error (.failed _ d) => .ok (failed, d)
  | .error (.fault f) => .error f

theorem accept_bind (err : Errno) (failed : Flow) (k : Impl υ → Except Fault (Flow × Impl υ))
    (r : Except Fault (Nat × Impl υ)) :
    (r >>= fun x => if x.1 ≠ 0 then .ok (failed, x.2) else k x.2) =
      resume failed k (accept err r) := by
  rcases accept_cases err r with ⟨f, hCall, hAccept⟩ | ⟨rc, e, hrc, hCall, hAccept⟩ | ⟨e, hCall, hAccept⟩
  · rw [hAccept, hCall]
    rfl
  · rw [hAccept, hCall]
    exact if_pos hrc
  · rw [hAccept, hCall]
    rfl

section Run

variable (cb) (p : Fields) (ch : UInt8) (n : Nat) (d : Impl υ)

theorem run_data (m : Mark) (bytes : ByteString) (inclusive advance : Bool) (k : Prog) :
    (Prog.data p m inclusive advance k).run (settings cb) ch n (some (m, bytes)) d =
      resume (.error p n m.errno advance) (k.run (settings cb) ch n none)
        (d.apply cb (.data p.statusCode m (if inclusive then bytes ++ [ch] else bytes))) := by
  rw [Prog.run, if_neg (not_not_intro rfl)]
  exact accept_bind m.errno (.error p n m.errno advance) (k.run (settings cb) ch n none) _

theorem run_notify (c : Notification) (advance : Bool) (k : Prog) (marked : Option (Mark × ByteString)) :
    (Prog.notify p c advance k).run (settings cb) ch n marked d =
      resume (.error p n c.errno advance) (k.run (settings cb) ch n marked)
        (d.apply cb (.notify p c)) := by
  rw [Prog.run]
  exact accept_bind c.errno (.error p n c.errno advance) (k.run (settings cb) ch n marked) _

/-- `on_headers_complete` never fails, so that nothing comes after a failure. -/
theorem run_headersComplete (k : Nat → Prog) (marked : Option (Mark × ByteString)) (failed : Flow) :
    (Prog.headersComplete p k).run (settings cb) ch n marked d =
      resume failed ((k 0).run (settings cb) ch n marked) (d.apply cb (.headersComplete p)) := by
  rw [Prog.run]
  show ((d.onHeadersComplete cb p) >>= _) = resume _ _ (accept _ (d.onHeadersComplete cb p))
  rcases hRun : d.onHeadersComplete cb p with f | ⟨rc, d'⟩
  · rfl
  · rw [Impl.onHeadersComplete_code hRun]
    rfl

end Run

theorem Sound.accepts {d d' : Impl υ} {c : Callback} (h : Sound d) (hApply : d.apply cb c = .ok d') :
    Impl.Accepts cb d c d' ∧ Sound d' := by
  obtain ⟨a, hTracks⟩ := h
  have hEnds : Impl.Ends cb a d c (d.apply cb c) := Impl.apply_ends hTracks c
  rw [hApply] at hEnds
  exact ⟨hEnds, _, Impl.Accepts.tracks hTracks hEnds⟩

/-- A callback that fails is a target that is too long. -/
theorem Sound.fails {d d' : Impl υ} {c : Callback} {err : Errno} (h : Sound d)
    (hApply : d.apply cb c = .error (.failed err d')) :
    d'.user = d.user ∧ d'.trace = d.trace ∧ Sound d' := by
  obtain ⟨a, hTracks⟩ := h
  have hEnds : Impl.Ends cb a d c (d.apply cb c) := Impl.apply_ends hTracks c
  rw [hApply] at hEnds
  obtain ⟨-, bytes, rfl⟩ := hEnds
  refine ⟨rfl, rfl, { a with target := some (d.urline ++ bytes) }, ?_⟩
  exact { hTracks with
    urline := rfl
    url := hTracks.url.mono (by simp) }

section Run

variable (hReuses : Reuses cb blank lost) (hAlone : Reuses cb' blank fun _ => False)
  (hGives : Gives cb given)
include hReuses hAlone hGives

/-- A callback, and what comes after it. -/
theorem resume_abreast {d d' : Impl υ} {c : Callback} {failed flow : Flow}
    {k : Impl υ → Except Fault (Flow × Impl υ)} {k' : Impl υ' → Except Fault (Flow × Impl υ')}
    {r : Except Fault (Flow × Impl υ')} (hSound : Sound d)
    (hNext : ∀ {d}, Sound d → Abreast lost version past given k' d r → k d = .ok (flow, d') →
      Sound d' ∧ Abreast lost version past given (fun e => .ok (flow, e)) d' r)
    (h : Abreast lost version past given (fun e => resume failed k' (e.apply cb' c)) d r)
    (hRun : resume failed k (d.apply cb c) = .ok (flow, d')) :
    Sound d' ∧ Abreast lost version past given (fun e => .ok (flow, e)) d' r := by
  rcases hApply : d.apply cb c with (f | ⟨err, d₁⟩) | d₁
  · rw [hApply] at hRun
    cases hRun
  · rw [hApply] at hRun
    obtain ⟨rfl, rfl⟩ := Prod.mk.inj (Except.ok.inj hRun)
    obtain ⟨hUser, hTrace, hFailed⟩ := hSound.fails hApply
    refine ⟨hFailed, ?_⟩
    rcases h with hSpoilt | ⟨e, rfl, hBeside⟩
    · exact .inl (hSpoilt.mono (hUser ▸ id) fun ev hEv => hTrace ▸ hEv)
    · have hFollows : Follows lost version past given (d.apply cb c) (e.apply cb' c) :=
        hBeside.apply hReuses hAlone hGives c
      rw [hApply] at hFollows
      rcases hFollows with hSpoilt | ⟨e', hApply', hBeside'⟩
      · exact .inl hSpoilt
      · exact .inr ⟨e', congrArg (resume failed k') hApply', hBeside'⟩
  · rw [hApply] at hRun
    obtain ⟨hAccepts, hSound₁⟩ := hSound.accepts hApply
    apply hNext hSound₁ _ hRun
    rcases h with hSpoilt | ⟨e, rfl, hBeside⟩
    · exact .inl (hSpoilt.accepts hReuses.toPersists hAccepts)
    · have hFollows : Follows lost version past given (d.apply cb c) (e.apply cb' c) :=
        hBeside.apply hReuses hAlone hGives c
      rw [hApply] at hFollows
      rcases hFollows with hSpoilt | ⟨e', hApply', hBeside'⟩
      · exact .inl hSpoilt
      · exact .inr ⟨e', congrArg (resume failed k') hApply', hBeside'⟩

theorem run_abreast {prog : Prog} {ch : UInt8} {n : Nat} {marked : Option (Mark × ByteString)}
    {d d' : Impl υ} {flow : Flow} {r : Except Fault (Flow × Impl υ')} (hSound : Sound d)
    (h : Abreast lost version past given (fun e => prog.run (settings cb') ch n marked e) d r)
    (hRun : prog.run (settings cb) ch n marked d = .ok (flow, d')) :
    Sound d' ∧ Abreast lost version past given (fun e => .ok (flow, e)) d' r := by
  induction prog generalizing n marked d with
  | next p loop =>
      cases hRun
      exact ⟨hSound, h⟩
  | leave p =>
      cases hRun
      exact ⟨hSound, h⟩
  | fail p e =>
      cases hRun
      exact ⟨hSound, h⟩
  | abort => cases hRun
  | mark m k ih => exact ih hSound h hRun
  | data p m inclusive advance k ih =>
      rcases marked with _ | ⟨set, bytes⟩
      · exact ih hSound h hRun
      by_cases hm : set = m
      · subst hm
        simp only [run_data] at h hRun
        exact resume_abreast hReuses hAlone hGives hSound ih h hRun
      · simp only [Prog.run, ne_eq, hm, not_false_eq_true, if_true] at h hRun
        exact ih hSound h hRun
  | count p v k ih =>
      simp only [Prog.run] at h hRun
      split at hRun
      case isTrue hLarge =>
        simp only [if_pos hLarge] at h
        cases hRun
        exact ⟨hSound, h⟩
      case isFalse hWithin =>
        simp only [if_neg hWithin] at h
        exact ih hSound h hRun
  | clearNread k ih => exact ih hSound h hRun
  | assertNread v k ih =>
      simp only [Prog.run] at h hRun
      split at hRun
      case isTrue hEq =>
        simp only [if_pos hEq] at h
        exact ih hSound h hRun
      case isFalse => cases hRun
  | notify p c advance k ih =>
      simp only [run_notify] at h hRun
      exact resume_abreast hReuses hAlone hGives hSound ih h hRun
  | headersComplete p k ih =>
      simp only [run_headersComplete _ _ _ _ _ _ _ flow] at h hRun
      exact resume_abreast hReuses hAlone hGives hSound (ih 0) h hRun
  | messageComplete p k ih =>
      have hApply : d.apply cb .messageComplete = .ok (d.completeMessage cb) := rfl
      obtain ⟨hAccepts, hSound₁⟩ := hSound.accepts hApply
      apply ih fresh.toFields hSound₁ _ hRun
      rcases h with hSpoilt | ⟨e, rfl, hBeside⟩
      · exact .inl (hSpoilt.accepts hReuses.toPersists hAccepts)
      · exact .inr ⟨_, rfl, hBeside.completeMessage hGives⟩

theorem executeLoop_abreast {bytes : ByteString} {l : Locals} {parsed n : Nat} {d d' : Impl υ}
    {p : HttpParser} {r : Except Fault (HttpParser × Nat × Impl υ')} (hSound : Sound d)
    (h : Abreast lost version past given (executeLoop (settings cb') l bytes parsed) d r)
    (hRun : executeLoop (settings cb) l bytes parsed d = .ok (p, n, d')) :
    Sound d' ∧ Abreast lost version past given (fun e => .ok (p, n, e)) d' r := by
  induction bytes generalizing l parsed d with
  | nil =>
      rw [executeLoop] at hRun
      obtain ⟨⟨flow, d₁⟩, hStep, hRest⟩ := bind_eq_ok.mp hRun
      simp only [executeLoop] at h
      obtain ⟨hSound₁, hNext⟩ := h.bind fun q hq =>
        run_abreast hReuses hAlone hGives hSound hq hStep
      cases flow with
      | next l' =>
          cases hRest
          exact ⟨hSound₁, hNext⟩
      | ret q consumed =>
          cases hRest
          exact ⟨hSound₁, hNext⟩
  | cons ch rest ih =>
      rw [executeLoop] at hRun
      obtain ⟨⟨flow, d₁⟩, hStep, hRest⟩ := bind_eq_ok.mp hRun
      simp only [executeLoop] at h
      obtain ⟨hSound₁, hNext⟩ := h.bind fun q hq =>
        run_abreast hReuses hAlone hGives hSound hq hStep
      cases flow with
      | next l' => exact ih hSound₁ hNext hRest
      | ret q consumed =>
          cases hRest
          exact ⟨hSound₁, hNext⟩

/-- The codec with other callbacks. -/
def HttpCodec.beside (c : HttpCodec υ) (e : Impl υ') : HttpCodec υ' :=
  { parser := c.parser, impl := e, ignoreContentLen := c.ignoreContentLen }

/-- The rule for a call of `decode`. -/
theorem decodeLoop_abreast (hFatal : cb.Fatal) (hFatal' : cb'.Fatal) {fuel : Nat}
    {c c' : HttpCodec υ} {data : ByteString} {ok : Bool} {r : Except Fault (HttpCodec υ' × Bool)}
    (hc : c.Ready) (hSound : Sound c.impl)
    (h : Abreast lost version past given (fun e => (c.beside e).decodeLoop cb' fuel data) c.impl r)
    (hRun : c.decodeLoop cb fuel data = .ok (c', ok)) :
    (c'.Ready ∧ Sound c'.impl) ∧
      Abreast lost version past given (fun e => .ok (c'.beside e, ok)) c'.impl r := by
  induction fuel generalizing c data with
  | zero =>
      rw [HttpCodec.decodeLoop] at hRun
      split at hRun
      case isTrue hData =>
        cases hRun
        rw [hData] at h
        exact ⟨⟨hc, hSound⟩, h⟩
      case isFalse => cases hRun
  | succ fuel ih =>
      by_cases hData : data = []
      · rw [hData, decodeLoop_nil] at hRun
        cases hRun
        rw [hData] at h
        exact ⟨⟨hc, hSound⟩, h⟩
      have hExecute : (fun e : Impl υ' => (c.beside e).decodeLoop cb' (fuel + 1) data) =
          fun e => executeLoop (settings cb') (enter c.parser) data 0 e >>=
            fun x => (c.beside x.2.2).afterExecute cb' fuel data x := by
        funext e
        have hLoop : execute (settings cb') (c.beside e).parser data e =
            executeLoop (settings cb') (enter c.parser) data 0 e := execute_loop hc.errno hData e
        rw [decodeLoop_succ fuel _ hData]
        show execute (settings cb') (c.beside e).parser data e >>= _ = _
        rw [hLoop]
        rfl
      rw [hExecute] at h
      rw [decodeLoop_succ fuel c hData, execute_loop hc.errno hData] at hRun
      obtain ⟨⟨p, n, d⟩, hLoop, hAfter⟩ := bind_eq_ok.mp hRun
      obtain ⟨hSound₁, hNext⟩ := h.bind fun q hq =>
        executeLoop_abreast hReuses hAlone hGives hSound hq hLoop
      by_cases hp : p.errno = none
      · rw [afterExecute_ok hc _ _ _ hp] at hAfter
        apply ih (c := c.update p d) ⟨hp, hc.contentLen⟩ hSound₁ _ hAfter
        rcases hNext with hSpoilt | ⟨e, rfl, hBeside⟩
        · exact .inl hSpoilt
        · refine .inr ⟨e, ?_, hBeside⟩
          exact afterExecute_ok (c := c.beside e) ⟨hc.errno, hc.contentLen⟩ fuel n data hp e
      · obtain ⟨err, hErr⟩ := Option.ne_none_iff_exists'.mp hp
        have hUser := hFatal err d.user
        have hStop : c.afterExecute cb fuel data (p, n, d) =
            .ok (c.update fresh
              ({ d.record (.error err) with user := (cb.error err d.user).1 } : Impl υ).reset, false) := by
          simp [HttpCodec.afterExecute, HttpCodec.onParserError, HttpCodec.update, hErr, hUser]
        rw [hStop] at hAfter
        cases hAfter
        refine ⟨⟨⟨rfl, hc.contentLen⟩, {}, Impl.reset_tracks [] false⟩, ?_⟩
        rcases hNext with hSpoilt | ⟨e, rfl, hBeside⟩
        · exact .inl (hSpoilt.mono (hReuses.error err) fun ev hEv => List.mem_append_left _ hEv)
        · have hFailed : Beside version past given _
              ({ e.record (.error err) with user := (cb'.error err e.user).1 } : Impl υ').reset :=
            hBeside.failure hGives err
          refine .inr ⟨_, ?_, hFailed⟩
          have hUser' := hFatal' err e.user
          simp [HttpCodec.afterExecute, HttpCodec.onParserError, HttpCodec.update, HttpCodec.beside,
            hErr, hUser']

end Run

/-! ### A codec on its own -/

/-- Callbacks that decode every message into one object, and do nothing else. -/
def Callbacks.alone (blank : Message) : Callbacks Unit where
  begin m _ := (some m, ())
  header _ _ := (blank, ())
  body _ _ := ()
  trailer _ _ _ := ()
  completion _ := ()
  error _ _ := ((), true)

theorem Callbacks.alone_reuses (blank : Message) : Reuses (alone blank) blank fun _ => False where
  object _ _ := rfl
  clears _ _ := .inr rfl
  begin _ _ := id
  header _ _ := id
  body _ _ := id
  trailer _ _ _ := id
  completion := id
  error _ _ := id

/-- Successive calls of `decode`, up to one that fails. -/
def HttpCodec.decodeWhile (cb : Callbacks υ) (c : HttpCodec υ) :
    List ByteString → Except Fault (HttpCodec υ)
  | [] => .ok c
  | piece :: rest => do
      let (c, ok) ← c.decode cb piece
      if ok then c.decodeWhile cb rest else .ok c

end Doormat.Http
