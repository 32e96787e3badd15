import Doormat.Protocol.Handler

/-! What the operations of a connection do, said once: the outcomes of `do_write`, the
outcomes of the notifications about local content, and the fields that a write leaves
alone. -/
namespace Doormat.Protocol

open Bytes Doormat.Http

theorem bind_eq_ok {α β : Type} {x : Except Fault α} {f : α → Except Fault β} {b : β} :
    x >>= f = .ok b ↔ ∃ a, x = .ok a ∧ f a = .ok b := by
  cases x with
  | error e =>
      constructor
      · nofun
      · rintro ⟨a, hx, -⟩
        cases hx
  | ok a =>
      constructor
      · exact fun hf => ⟨a, rfl, hf⟩
      · rintro ⟨a', hx, hf⟩
        cases hx
        exact hf

theorem bind_eq_error {α β : Type} {x : Except Fault α} {f : α → Except Fault β} {e : Fault} :
    x >>= f = .error e ↔ x = .error e ∨ ∃ a, x = .ok a ∧ f a = .error e := by
  cases x with
  | error e' =>
      constructor
      · intro hx
        cases hx
        exact .inl rfl
      · rintro (hx | ⟨a, hx, -⟩)
        · cases hx
          rfl
        · cases hx
  | ok a =>
      constructor
      · exact fun hf => .inr ⟨a, rfl, hf⟩
      · rintro (hx | ⟨a', hx, hf⟩)
        · cases hx
        · cases hx
          exact hf

/-- What a state of an object that requires no continue tells of it. -/
def LocalState.Of (l : Local) : LocalState → Prop
  | .sendContinue => False
  | .headersReceived => l.headers.isSome
  | .bodyReceived => l.headers = none ∧ l.content ≠ []
  | .trailerReceived => l.headers = none ∧ l.content = [] ∧ l.trailers ≠ []
  | .ended => l.headers = none ∧ l.content = [] ∧ l.trailers = [] ∧ l.ended = true
  | .pending => l.headers = none ∧ l.content = [] ∧ l.trailers = [] ∧ l.ended = false

theorem Local.getState_of_continue {l : Local} (h : l.continueRequired = true) :
    l.getState = (.sendContinue, { l with continueRequired := false }) := by
  rw [Local.getState, if_pos h]

theorem Local.getState_of_not_continue {l : Local} (h : l.continueRequired = false) :
    l.getState.2 = l ∧ LocalState.Of l l.getState.1 := by
  rw [Local.getState, if_neg (by simp [h])]
  split
  case isTrue hHeaders => exact ⟨rfl, hHeaders⟩
  case isFalse hHeaders =>
    have hNone : l.headers = none := by simpa using hHeaders
    split
    case isTrue hContent => exact ⟨rfl, hNone, hContent⟩
    case isFalse hContent =>
      have hEmpty : l.content = [] := by simpa using hContent
      split
      case isTrue hTrailers => exact ⟨rfl, hNone, hEmpty, hTrailers⟩
      case isFalse hTrailers =>
        have hNoTrailer : l.trailers = [] := by simpa using hTrailers
        split
        case isTrue hEnded => exact ⟨rfl, hNone, hEmpty, hNoTrailer, hEnded⟩
        case isFalse hEnded => exact ⟨rfl, hNone, hEmpty, hNoTrailer, by simpa using hEnded⟩

namespace Http1

variable {c c' : Http1} {id : Nat}

@[simp] theorem setLocal_locals_self (c : Http1) (id : Nat) (l : Local) :
    (c.setLocal id l).locals id = l := Function.update_self _ _ _

theorem setLocal_locals_of_ne {j : Nat} {l : Local} (h : j ≠ id) :
    (c.setLocal id l).locals j = c.locals j := Function.update_of_ne h _ _

theorem setLocal_self (c : Http1) (id : Nat) : c.setLocal id (c.locals id) = c := by
  rw [setLocal, Function.update_eq_self]


/-- A call of `do_write` does nothing, or finds nothing to write, or starts a write. The
branch of `connector::do_write` that stops the connector is none of the outcomes: `on_write`
returns true only with output. -/
theorem connectorDoWrite_cases (c : Http1) :
    (c.connectorDoWrite = c ∧ (c.writing.isSome ∨ c.stopped)) ∨
    (c.writing = none ∧ c.stopped = false ∧ (c.connected = false ∨ c.serialization = []) ∧
      c.connectorDoWrite = c.noteIdle { c with out := [] }.postFeedbacks) ∨
    (c.writing = none ∧ c.stopped = false ∧ c.connected ∧ c.serialization ≠ [] ∧
      c.connectorDoWrite = { c with out := c.serialization, serialization := [] }.asyncWrite) := by
  by_cases hBusy : (c.writing.isSome || c.stopped) = true
  · left
    rw [connectorDoWrite, if_pos hBusy]
    exact ⟨rfl, Bool.or_eq_true _ _ |>.mp hBusy⟩
  right
  have hFree : c.writing = none ∧ c.stopped = false := by simpa using hBusy
  rw [connectorDoWrite, if_neg hBusy, onWrite]
  by_cases hOutput : (c.connected && c.serialization ≠ []) = true
  · right
    rw [if_pos hOutput]
    have hParts : c.connected = true ∧ c.serialization ≠ [] := by simpa using hOutput
    simp [hFree, hParts]
  · left
    rw [if_neg hOutput]
    have hNothing : c.connected = false ∨ c.serialization = [] := by
      by_cases hConnected : c.connected = true
      · simpa [hConnected] using hOutput
      · simpa using Or.inl hConnected
    simp [hFree, hNothing]

/-- What `do_write` keeps. -/
theorem connectorDoWrite_keeps {α : Type} (f : Http1 → α)
    (hOut : ∀ (c : Http1) b s, f { c with out := b, serialization := s } = f c)
    (hIdle : ∀ (c : Http1) i, f { c with idleWrites := i } = f c)
    (hPost : ∀ c : Http1, f c.postFeedbacks = f c) (hWrite : ∀ c : Http1, f c.asyncWrite = f c)
    (c : Http1) : f c.connectorDoWrite = f c := by
  rcases connectorDoWrite_cases c with ⟨hEq, -⟩ | ⟨-, -, -, hEq⟩ | ⟨-, -, -, -, hEq⟩
  · rw [hEq]
  · rw [hEq, noteIdle]
    split
    · rw [hIdle, hPost, hOut]
    · rw [hPost, hOut]
  · rw [hEq, hWrite, hOut]

theorem doWrite_keeps {α : Type} (f : Http1 → α)
    (hOut : ∀ (c : Http1) b s, f { c with out := b, serialization := s } = f c)
    (hIdle : ∀ (c : Http1) i, f { c with idleWrites := i } = f c)
    (hPost : ∀ c : Http1, f c.postFeedbacks = f c) (hWrite : ∀ c : Http1, f c.asyncWrite = f c)
    (c : Http1) : f c.doWrite = f c := by
  rw [doWrite]
  split
  · exact connectorDoWrite_keeps f hOut hIdle hPost hWrite c
  · rfl

/-- What the completion of a write keeps. -/
theorem written_keeps {α : Type} (f : Http1 → α)
    (hOut : ∀ (c : Http1) b s, f { c with out := b, serialization := s } = f c)
    (hIdle : ∀ (c : Http1) i, f { c with idleWrites := i } = f c)
    (hPost : ∀ c : Http1, f c.postFeedbacks = f c) (hWrite : ∀ c : Http1, f c.asyncWrite = f c)
    (hDone : ∀ (c : Http1) n ws, f { c with writing := none, outstanding := n, completed := ws } = f c)
    (hPosted : ∀ (c : Http1) ps, f (c.post ps) = f c) (hStop : ∀ c : Http1, f c.stop = f c)
    (c : Http1) (r : WriteResult) : f (c.written r) = f c := by
  rw [written]
  split
  · rfl
  · cases r with
    | ok =>
        dsimp only
        rw [connectorDoWrite_keeps f hOut hIdle hPost hWrite, hPosted, hDone]
    | failed =>
        dsimp only
        rw [hPosted, hStop, hDone]
    | cancelled =>
        dsimp only
        rw [hPosted, hDone]

/-! ### Fields that a write leaves alone -/

@[simp] theorem doWrite_role (c : Http1) : c.doWrite.role = c.role :=
  doWrite_keeps Http1.role (fun _ _ _ => rfl) (fun _ _ => rfl) (fun _ => rfl) (fun _ => rfl) c

@[simp] theorem doWrite_persistent (c : Http1) : c.doWrite.persistent = c.persistent :=
  doWrite_keeps Http1.persistent (fun _ _ _ => rfl) (fun _ _ => rfl) (fun _ => rfl) (fun _ => rfl) c

@[simp] theorem doWrite_localObjects (c : Http1) : c.doWrite.localObjects = c.localObjects :=
  doWrite_keeps Http1.localObjects (fun _ _ _ => rfl) (fun _ _ => rfl) (fun _ => rfl) (fun _ => rfl) c

@[simp] theorem doWrite_remoteObjects (c : Http1) : c.doWrite.remoteObjects = c.remoteObjects :=
  doWrite_keeps Http1.remoteObjects (fun _ _ _ => rfl) (fun _ _ => rfl) (fun _ => rfl) (fun _ => rfl) c

@[simp] theorem doWrite_locals (c : Http1) : c.doWrite.locals = c.locals :=
  doWrite_keeps Http1.locals (fun _ _ _ => rfl) (fun _ _ => rfl) (fun _ => rfl) (fun _ => rfl) c

@[simp] theorem doWrite_remotes (c : Http1) : c.doWrite.remotes = c.remotes :=
  doWrite_keeps Http1.remotes (fun _ _ _ => rfl) (fun _ _ => rfl) (fun _ => rfl) (fun _ => rfl) c

@[simp] theorem doWrite_opened (c : Http1) : c.doWrite.opened = c.opened :=
  doWrite_keeps Http1.opened (fun _ _ _ => rfl) (fun _ _ => rfl) (fun _ => rfl) (fun _ => rfl) c

@[simp] theorem doWrite_encoder (c : Http1) : c.doWrite.encoder = c.encoder :=
  doWrite_keeps Http1.encoder (fun _ _ _ => rfl) (fun _ _ => rfl) (fun _ => rfl) (fun _ => rfl) c

@[simp] theorem doWrite_connected (c : Http1) : c.doWrite.connected = c.connected :=
  doWrite_keeps Http1.connected (fun _ _ _ => rfl) (fun _ _ => rfl) (fun _ => rfl) (fun _ => rfl) c

@[simp] theorem doWrite_userClose (c : Http1) : c.doWrite.userClose = c.userClose :=
  doWrite_keeps Http1.userClose (fun _ _ _ => rfl) (fun _ _ => rfl) (fun _ => rfl) (fun _ => rfl) c

@[simp] theorem doWrite_log (c : Http1) : c.doWrite.log = c.log :=
  doWrite_keeps Http1.log (fun _ _ _ => rfl) (fun _ _ => rfl) (fun _ => rfl) (fun _ => rfl) c

@[simp] theorem doWrite_errors (c : Http1) : c.doWrite.errors = c.errors :=
  doWrite_keeps Http1.errors (fun _ _ _ => rfl) (fun _ _ => rfl) (fun _ => rfl) (fun _ => rfl) c

@[simp] theorem doWrite_stopped (c : Http1) : c.doWrite.stopped = c.stopped :=
  doWrite_keeps Http1.stopped (fun _ _ _ => rfl) (fun _ _ => rfl) (fun _ => rfl) (fun _ => rfl) c

@[simp] theorem doWrite_serialised (c : Http1) : c.doWrite.serialised = c.serialised :=
  doWrite_keeps Http1.serialised (fun _ _ _ => rfl) (fun _ _ => rfl) (fun _ => rfl) (fun _ => rfl) c

@[simp] theorem written_role (c : Http1) (r : WriteResult) : (c.written r).role = c.role :=
  written_keeps Http1.role (fun _ _ _ => rfl) (fun _ _ => rfl) (fun _ => rfl) (fun _ => rfl)
    (fun _ _ _ => rfl) (fun _ _ => rfl) (fun _ => rfl) c r

@[simp] theorem written_persistent (c : Http1) (r : WriteResult) : (c.written r).persistent = c.persistent :=
  written_keeps Http1.persistent (fun _ _ _ => rfl) (fun _ _ => rfl) (fun _ => rfl) (fun _ => rfl)
    (fun _ _ _ => rfl) (fun _ _ => rfl) (fun _ => rfl) c r

@[simp] theorem written_localObjects (c : Http1) (r : WriteResult) : (c.written r).localObjects = c.localObjects :=
  written_keeps Http1.localObjects (fun _ _ _ => rfl) (fun _ _ => rfl) (fun _ => rfl) (fun _ => rfl)
    (fun _ _ _ => rfl) (fun _ _ => rfl) (fun _ => rfl) c r

@[simp] theorem written_remoteObjects (c : Http1) (r : WriteResult) : (c.written r).remoteObjects = c.remoteObjects :=
  written_keeps Http1.remoteObjects (fun _ _ _ => rfl) (fun _ _ => rfl) (fun _ => rfl) (fun _ => rfl)
    (fun _ _ _ => rfl) (fun _ _ => rfl) (fun _ => rfl) c r

@[simp] theorem written_locals (c : Http1) (r : WriteResult) : (c.written r).locals = c.locals :=
  written_keeps Http1.locals (fun _ _ _ => rfl) (fun _ _ => rfl) (fun _ => rfl) (fun _ => rfl)
    (fun _ _ _ => rfl) (fun _ _ => rfl) (fun _ => rfl) c r

@[simp] theorem written_remotes (c : Http1) (r : WriteResult) : (c.written r).remotes = c.remotes :=
  written_keeps Http1.remotes (fun _ _ _ => rfl) (fun _ _ => rfl) (fun _ => rfl) (fun _ => rfl)
    (fun _ _ _ => rfl) (fun _ _ => rfl) (fun _ => rfl) c r

@[simp] theorem written_opened (c : Http1) (r : WriteResult) : (c.written r).opened = c.opened :=
  written_keeps Http1.opened (fun _ _ _ => rfl) (fun _ _ => rfl) (fun _ => rfl) (fun _ => rfl)
    (fun _ _ _ => rfl) (fun _ _ => rfl) (fun _ => rfl) c r

@[simp] theorem written_encoder (c : Http1) (r : WriteResult) : (c.written r).encoder = c.encoder :=
  written_keeps Http1.encoder (fun _ _ _ => rfl) (fun _ _ => rfl) (fun _ => rfl) (fun _ => rfl)
    (fun _ _ _ => rfl) (fun _ _ => rfl) (fun _ => rfl) c r

@[simp] theorem written_connected (c : Http1) (r : WriteResult) : (c.written r).connected = c.connected :=
  written_keeps Http1.connected (fun _ _ _ => rfl) (fun _ _ => rfl) (fun _ => rfl) (fun _ => rfl)
    (fun _ _ _ => rfl) (fun _ _ => rfl) (fun _ => rfl) c r

@[simp] theorem written_userClose (c : Http1) (r : WriteResult) : (c.written r).userClose = c.userClose :=
  written_keeps Http1.userClose (fun _ _ _ => rfl) (fun _ _ => rfl) (fun _ => rfl) (fun _ => rfl)
    (fun _ _ _ => rfl) (fun _ _ => rfl) (fun _ => rfl) c r

@[simp] theorem written_log (c : Http1) (r : WriteResult) : (c.written r).log = c.log :=
  written_keeps Http1.log (fun _ _ _ => rfl) (fun _ _ => rfl) (fun _ => rfl) (fun _ => rfl)
    (fun _ _ _ => rfl) (fun _ _ => rfl) (fun _ => rfl) c r

@[simp] theorem written_errors (c : Http1) (r : WriteResult) : (c.written r).errors = c.errors :=
  written_keeps Http1.errors (fun _ _ _ => rfl) (fun _ _ => rfl) (fun _ => rfl) (fun _ => rfl)
    (fun _ _ _ => rfl) (fun _ _ => rfl) (fun _ => rfl) c r

@[simp] theorem written_serialised (c : Http1) (r : WriteResult) : (c.written r).serialised = c.serialised :=
  written_keeps Http1.serialised (fun _ _ _ => rfl) (fun _ _ => rfl) (fun _ => rfl) (fun _ => rfl)
    (fun _ _ _ => rfl) (fun _ _ => rfl) (fun _ => rfl) c r

/-! ### Closures -/

theorem noteIdle_posted (c d : Http1) : (c.noteIdle d).posted = d.posted := by
  rw [noteIdle]
  split
  · rfl
  · rfl

/-- A write posts feedbacks only. -/
theorem connectorDoWrite_posted {p : Posted} (h : p ∈ c.connectorDoWrite.posted) :
    p ∈ c.posted ∨ ∃ f, p = .feedback f true := by
  rcases connectorDoWrite_cases c with ⟨hEq, -⟩ | ⟨-, -, -, hEq⟩ | ⟨-, -, -, -, hEq⟩
  · rw [hEq] at h
    exact .inl h
  · rw [hEq, noteIdle_posted] at h
    rcases List.mem_append.mp h with h | h
    · exact .inl h
    · obtain ⟨f, -, rfl⟩ := List.mem_map.mp h
      exact .inr ⟨f, rfl⟩
  · rw [hEq] at h
    exact .inl h

theorem doWrite_posted {p : Posted} (h : p ∈ c.doWrite.posted) :
    p ∈ c.posted ∨ ∃ f, p = .feedback f true := by
  rw [doWrite] at h
  split at h
  · exact connectorDoWrite_posted h
  · exact .inl h

theorem written_posted {r : WriteResult} {p : Posted} (h : p ∈ (c.written r).posted) :
    p ∈ c.posted ∨ ∃ f success, p = .feedback f success := by
  have hMapped : ∀ {ps : List Posted} {fs : List Feedback} {success : Bool},
      p ∈ ps ++ fs.map (fun f => Posted.feedback f success) →
        p ∈ ps ∨ ∃ f success, p = .feedback f success := by
    intro ps fs success hp
    rcases List.mem_append.mp hp with hp | hp
    · exact .inl hp
    · obtain ⟨f, -, rfl⟩ := List.mem_map.mp hp
      exact .inr ⟨f, success, rfl⟩
  rw [written] at h
  split at h
  · exact .inl h
  · cases r with
    | ok =>
        rcases connectorDoWrite_posted h with h | ⟨f, rfl⟩
        · exact hMapped h
        · exact .inr ⟨f, true, rfl⟩
    | failed => exact hMapped h
    | cancelled => exact hMapped h

/-! ### The notifications about local content -/

theorem encoded_eq_ok {r : Except EncoderAssertion (ByteString × Encoder)}
    {p : ByteString × Encoder} : encoded r = .ok p ↔ r = .ok p := by
  cases r with
  | error a =>
      constructor
      · nofun
      · nofun
  | ok q =>
      constructor
      · intro h
        cases h
        rfl
      · intro h
        cases h
        rfl

theorem encoded_bind {r : Except EncoderAssertion (ByteString × Encoder)}
    {f : ByteString × Encoder → Http1} :
    (encoded r >>= fun p => .ok (f p)) = .ok c' ↔
      ∃ bytes encoder, r = .ok (bytes, encoder) ∧ c' = f (bytes, encoder) := by
  rw [bind_eq_ok]
  constructor
  · rintro ⟨⟨bytes, encoder⟩, hEncoded, hEq⟩
    cases hEq
    exact ⟨bytes, encoder, encoded_eq_ok.mp hEncoded, rfl⟩
  · rintro ⟨bytes, encoder, hEncoded, rfl⟩
    exact ⟨(bytes, encoder), encoded_eq_ok.mpr hEncoded, rfl⟩

theorem encoded_bind_error {r : Except EncoderAssertion (ByteString × Encoder)}
    {f : ByteString × Encoder → Http1} {e : Fault}
    (h : (encoded r >>= fun p => .ok (f p)) = .error e) : ∃ a, r = .error a ∧ e = .encoder a := by
  cases r with
  | error a =>
      cases h
      exact ⟨a, rfl, rfl⟩
  | ok p => cases h

/-- `notify_local_headers` before it serialises: the headers are taken, and a `Connection`
header decides the flag. -/
def takeHeaders (c : Http1) (id : Nat) (m : Message) : Http1 :=
  { c.setLocal id { c.locals id with headers := none } with
    persistent := if m.data.has hfConnection then m.data.getHeader hfConnection = hvKeepalive
      else c.persistent }

theorem notifyLocalHeaders_ok {m : Message} : c.notifyLocalHeaders id m = .ok c' ↔
    ∃ bytes encoder, c.encoder.encodeHeader m = .ok (bytes, encoder) ∧
      c' = ({ (c.takeHeaders id m).record (.sent m.data) with encoder := encoder }.serialise
        id bytes).doWrite := by
  unfold notifyLocalHeaders takeHeaders
  split <;> exact encoded_bind

theorem notifyLocalBody_ok : c.notifyLocalBody id = .ok c' ↔
    ∃ bytes encoder, c.encoder.encodeBody (c.locals id).content = .ok (bytes, encoder) ∧
      c' = ({ c.setLocal id { c.locals id with content := [] } with encoder := encoder }.serialise
        id bytes).doWrite :=
  encoded_bind

theorem notifyLocalTrailer_ok {key value : ByteString} :
    c.notifyLocalTrailer id key value = .ok c' ↔
    ∃ bytes encoder, c.encoder.encodeTrailer key value = .ok (bytes, encoder) ∧
      c' = ({ c.setLocal id { c.locals id with trailers := (c.locals id).trailers.tail } with
        encoder := encoder }.serialise id bytes).doWrite :=
  encoded_bind

/-- The feedback that `poll_local` queues, before `do_write`. -/
def queueFeedback (c : Http1) (id : Nat) : Http1 :=
  { c.record (.ended id) with
    pendingClearCallbacks := c.pendingClearCallbacks ++ [⟨id, c.serialised.length⟩] }

theorem notifyLocalEnd_ok : c.notifyLocalEnd id = .ok c' ↔
    ∃ bytes encoder, c.encoder.encodeEom = .ok (bytes, encoder) ∧
      c' = (({ c with encoder := encoder }.serialise id bytes).queueFeedback id).doWrite :=
  encoded_bind

theorem notifyContinue_ok : c.notifyContinue id = .ok c' ↔
    ∃ header first eom encoder, c.encoder.encodeHeader continueResponse = .ok (header, first) ∧
      first.encodeEom = .ok (eom, encoder) ∧
      c' = ({ c with encoder := encoder }.serialise id (header ++ eom)).doWrite := by
  unfold notifyContinue
  rw [bind_eq_ok]
  constructor
  · rintro ⟨⟨header, first⟩, hHeader, hRest⟩
    obtain ⟨eom, encoder, hEom, hEq⟩ := encoded_bind.mp hRest
    exact ⟨header, first, eom, encoder, encoded_eq_ok.mp hHeader, hEom, hEq⟩
  · rintro ⟨header, first, eom, encoder, hHeader, hEom, hEq⟩
    exact ⟨(header, first), encoded_eq_ok.mpr hHeader, encoded_bind.mpr ⟨eom, encoder, hEom, hEq⟩⟩

theorem popFront_ok : c.popFront = .ok c' ↔ ∃ id rest, c.localObjects = id :: rest ∧
    c' = { c.record (.removed id) with localObjects := rest } := by
  unfold popFront
  cases hLocals : c.localObjects with
  | nil =>
      constructor
      · nofun
      · nofun
  | cons id rest =>
      constructor
      · intro hRun
        cases hRun
        exact ⟨id, rest, rfl, rfl⟩
      · rintro ⟨_, _, hEq, rfl⟩
        cases hEq
        rfl

/-! ### Decoded headers -/

theorem isContinue_setData (m : Message) (d : StructuredData) :
    isContinue (m.setData d) = isContinue m := by
  cases m with
  | request r => rfl
  | response r => rfl

/-- `decoded_headers` as far as the flag and the log are concerned. -/
def takeDecoded (c : Http1) (m : StructuredData) (taken : Bool) : Http1 :=
  { c.record (.received m taken) with
    persistent := if taken then c.updatePersistent m else c.persistent }

theorem decodedHeaders_eq (garbage : Nat) (m : Message) (c : Http1) :
    (c.decodedHeaders garbage m).2 =
      match c.getCurrent with
      | (none, d) => d.takeDecoded m.data false
      | (some id, d) =>
          let d := d.takeDecoded m.data true
          let shown := m.setData (m.data.setKeepalive d.persistent)
          if d.role = .server then d.remoteEvent id (.headers shown)
          else
            let d : Http1 := { d with managingContinue := isContinue m }
            if d.managingContinue then d else d.remoteEvent id (.headers shown) := by
  rw [decodedHeaders]
  rcases c.getCurrent with ⟨current, d⟩
  cases current with
  | none => rfl
  | some id =>
      cases hRole : d.role with
      | server => simp [takeDecoded, record, hRole]
      | client => simp [takeDecoded, record, hRole, isContinue_setData]

end Http1

end Doormat.Protocol
