import Doormat.Protocol.Kept

/-! Invariants of a connection: what the primitive operations preserve, every run
preserves, whatever the application does in its callbacks. -/
namespace Doormat.Protocol

open Bytes Doormat.Http

def RemoteEvent.isHeaders : RemoteEvent → Bool
  | .headers _ => true
  | _ => false

/-- The remote object has been given no headers but those of `r`. -/
def Remote.Shows (r' r : Remote) : Prop := ∀ m, .headers m ∈ r'.received → .headers m ∈ r.received

theorem Remote.shows_append {r : Remote} {e : RemoteEvent} (h : e.isHeaders = false)
    (terminated : Bool) : Remote.Shows { terminated, received := r.received ++ [e] } r := by
  intro m hMem
  rcases List.mem_append.mp hMem with hOld | hNew
  · exact hOld
  · rw [← List.mem_singleton.mp hNew] at h
    cases h

/-- `P` is kept by what a connection does on the remote side, but for the headers. -/
structure RemoteSteady (P : Http1 → Prop) : Prop where
  setRemote : ∀ {c} id r, r.Shows (c.remotes id) → P c → P (c.setRemote id r) := by
    exact fun _ _ _ h => h
  postEnd : ∀ {c} id, P c → P (c.post [.remoteEnded id]) := by exact fun _ h => h
  error : ∀ {c} e, P c → P (c.error e) := by exact fun _ h => h
  flags : ∀ {c} b b', P c → P { c with decodingError := b, managingContinue := b' } := by
    exact fun _ _ h => h
  remoteTail : ∀ {c}, P c → P { c with remoteObjects := c.remoteObjects.tail } := by
    exact fun h => h

/-- `P` is kept by all that a connection does on the remote side. -/
structure RemoteStable (P : Http1 → Prop) : Prop extends RemoteSteady P where
  shows : ∀ {c} id data m, P c → P ((c.takeDecoded data true).remoteEvent id (.headers m)) := by
    exact fun _ _ _ h => h
  received : ∀ {c} m taken, P c → P (c.takeDecoded m taken) := by exact fun _ _ h => h

namespace RemoteSteady

variable {P : Http1 → Prop} {c : Http1}

theorem remoteEvent (h : RemoteSteady P) (id : Nat) (e : RemoteEvent) (he : e.isHeaders = false)
    (hc : P c) : P (c.remoteEvent id e) := h.setRemote _ _ (Remote.shows_append he _) hc

theorem remoteEnd (h : RemoteSteady P) (id : Nat) (e : RemoteEvent) (he : e.isHeaders = false)
    (hc : P c) : P (c.remoteEnd id e) := by
  have hEnded := fun terminated => h.setRemote id _ (Remote.shows_append he terminated) hc
  unfold Http1.remoteEnd
  dsimp only
  split
  · exact hc
  split
  · exact hEnded _
  · exact h.postEnd _ (hEnded _)

theorem remoteContinue (h : RemoteSteady P) (id : Nat) (hc : P c) : P (c.remoteContinue id) := by
  unfold Http1.remoteContinue
  split
  · exact hc
  · exact h.remoteEvent _ _ rfl hc

theorem getCurrent (h : RemoteSteady P) (hc : P c) : P c.getCurrent.2 := by
  unfold Http1.getCurrent
  split
  · exact hc
  split
  · exact h.error _ (h.flags true c.managingContinue hc)
  split
  · exact h.error _ hc
  · exact hc

theorem decodedBody (h : RemoteSteady P) (bytes : ByteString) (hc : P c) : P (c.decodedBody bytes) := by
  have hCurrent := h.getCurrent hc
  unfold Http1.decodedBody
  split
  case h_1 hEq =>
    rw [hEq] at hCurrent
    exact hCurrent
  case h_2 hEq =>
    rw [hEq] at hCurrent
    exact h.remoteEvent _ _ rfl hCurrent

theorem decodedTrailer (h : RemoteSteady P) (key value : ByteString) (hc : P c) :
    P (c.decodedTrailer key value) := by
  have hCurrent := h.getCurrent hc
  unfold Http1.decodedTrailer
  split
  case h_1 hEq =>
    rw [hEq] at hCurrent
    exact hCurrent
  case h_2 hEq =>
    rw [hEq] at hCurrent
    split
    · exact hCurrent
    · exact h.remoteEvent _ _ rfl hCurrent

theorem decodingEnd (h : RemoteSteady P) (hc : P c) : P c.decodingEnd := by
  have hCurrent := h.getCurrent hc
  unfold Http1.decodingEnd
  split
  case h_1 hEq =>
    rw [hEq] at hCurrent
    exact hCurrent
  case h_2 hEq =>
    rw [hEq] at hCurrent
    split
    · exact h.remoteTail (h.remoteEnd _ _ rfl hCurrent)
    dsimp only
    split
    · exact h.remoteContinue _ (h.remoteTail hCurrent)
    · exact h.remoteEnd _ _ rfl (h.remoteTail hCurrent)

end RemoteSteady

theorem RemoteStable.decodedHeaders {P : Http1 → Prop} {c : Http1} (h : RemoteStable P) (garbage : Nat) (m : Message) (hc : P c) :
    P (c.decodedHeaders garbage m).2 := by
  have hCurrent := h.getCurrent hc
  rw [Http1.decodedHeaders_eq]
  split
  case h_1 d hEq =>
    rw [hEq] at hCurrent
    exact h.received m.data false hCurrent
  case h_2 id d hEq =>
    rw [hEq] at hCurrent
    dsimp only
    split
    · exact h.shows id m.data _ hCurrent
    split
    · exact h.flags (d.takeDecoded m.data true).decodingError (Http1.isContinue m)
        (h.received m.data true hCurrent)
    · exact h.flags (d.takeDecoded m.data true).decodingError (Http1.isContinue m)
        (h.shows id m.data _ hCurrent)

/-- Does the closure report a success? -/
def Posted.succeeds : Posted → Bool
  | .feedback _ success => success
  | _ => false

/-- `P` is kept by the primitive operations of a connection, but for the delivery of headers;
writes complete in the ways that `W` admits. An operation that changes nothing `P` speaks
of needs no proof. -/
structure Steady (P : Http1 → Prop) (W : Http1 → WriteResult → Prop) : Prop where
  setLocal : ∀ {c} id l, P c → P (c.setLocal id l) := by exact fun _ _ h => h
  setRemote : ∀ {c} id r, r.Shows (c.remotes id) → P c → P (c.setRemote id r) := by
    exact fun _ _ _ h => h
  post : ∀ {c} p, Posted.succeeds p = false → P c → P (c.post [p]) := by exact fun _ _ h => h
  unpost : ∀ {c}, P c → P { c with posted := c.posted.tail } := by exact fun h => h
  running : ∀ {c} r, P c → P { c with running := r } := by exact fun _ h => h
  error : ∀ {c} e, P c → P (c.error e) := by exact fun _ h => h
  opens : ∀ {c}, c.connected = true → P c → P { c with
    opened := c.opened + 1
    remoteObjects := c.remoteObjects ++ [c.opened]
    localObjects := c.localObjects ++ [c.opened] } := by exact fun _ h => h
  clear : ∀ {c}, P c → P { c with remoteObjects := [], localObjects := [] } := by exact fun h => h
  userClose : ∀ {c}, P c → P { c with userClose := true } := by exact fun h => h
  stop : ∀ {c}, P c → P c.stop := by exact fun h => h
  persistentSet : ∀ {c} b, P c → P { c.record (.persistentSet b) with persistent := b } := by
    exact fun _ h => h
  encoder : ∀ {c} e, P c → P { c with encoder := e } := by exact fun _ h => h
  serialise : ∀ {c} id bytes, P c → P (c.serialise id bytes) := by exact fun _ _ h => h
  doWrite : ∀ {c}, P c → P c.doWrite
  sent : ∀ {c} id m, P c → P ((c.takeHeaders id m).record (.sent m.data)) := by
    exact fun _ _ h => h
  feedback : ∀ {c} id, P c → P (c.queueFeedback id) := by exact fun _ h => h
  removed : ∀ {c} id, P c → P { c.record (.removed id) with localObjects := c.localObjects.tail } := by
    exact fun _ h => h
  flags : ∀ {c} b b', P c → P { c with decodingError := b, managingContinue := b' } := by
    exact fun _ _ h => h
  remoteTail : ∀ {c}, P c → P { c with remoteObjects := c.remoteObjects.tail } := by
    exact fun h => h
  localTail : ∀ {c}, P c → P { c with localObjects := c.localObjects.tail } := by exact fun h => h
  written : ∀ {c} r, W c r → P c → P (c.written r)
  disconnect : ∀ {c}, c.writing = none → P c → P { c with connected := false } := by
    exact fun _ h => h
  drained : ∀ {c}, P c → P { c with pendingClearCallbacks := [] } := by exact fun h => h

/-- `P` is kept by all the primitive operations of a connection. -/
structure Stable (P : Http1 → Prop) (W : Http1 → WriteResult → Prop) : Prop extends Steady P W where
  shows : ∀ {c} id data m, P c → P ((c.takeDecoded data true).remoteEvent id (.headers m)) := by
    exact fun _ _ _ h => h
  received : ∀ {c} m taken, P c → P (c.takeDecoded m taken) := by exact fun _ _ h => h

namespace Steady

variable {P : Http1 → Prop} {W : Http1 → WriteResult → Prop} {c c' : Http1}

theorem foldl {α : Type} {f : Http1 → α → Http1} (hf : ∀ c a, P c → P (f c a)) (as : List α)
    (hc : P c) : P (as.foldl f c) := by
  induction as generalizing c with
  | nil => exact hc
  | cons a as ih => exact ih (hf c a hc)

theorem remote (h : Steady P W) : RemoteSteady P where
  setRemote := h.setRemote
  postEnd _ := h.post _ rfl
  error := h.error
  flags := h.flags
  remoteTail := h.remoteTail

theorem getUserHandlers (h : Steady P W) (hc : P c) : P c.getUserHandlers := by
  rw [Http1.getUserHandlers]
  split
  case isTrue => exact hc
  case isFalse hLost => exact h.opens (by simpa using hLost) hc

theorem popFront (h : Steady P W) (hc : P c) (hRun : c.popFront = .ok c') : P c' := by
  unfold Http1.popFront at hRun
  split at hRun
  case h_1 => cases hRun
  case h_2 id rest hLocals =>
    cases hRun
    have hRemoved := h.removed id hc
    rwa [hLocals] at hRemoved

theorem takePosted (h : Steady P W) {p : Posted} {rest : List Posted} (hPosted : c.posted = p :: rest)
    (hc : P c) : P { c with posted := rest } := by
  have hTail := h.unpost hc
  rwa [hPosted] at hTail

theorem localError (h : Steady P W) (e : ErrorCode) (id : Nat) (hc : P c) :
    P (c.localError e id) := by
  unfold Http1.localError
  dsimp only
  split
  · exact h.post _ rfl (h.setLocal _ _ hc)
  · exact h.setLocal _ _ hc

theorem localCleared (h : Steady P W) (id : Nat) (hc : P c) : P (c.localCleared id) := by
  unfold Http1.localCleared
  dsimp only
  split
  · exact h.post _ rfl (h.setLocal _ _ hc)
  · exact h.setLocal _ _ hc

theorem notifyAll (h : Steady P W) (e : ErrorCode) (hc : P c) : P (c.notifyAll e) := by
  apply h.clear
  apply foldl
  · intro c id hc
    split
    · exact h.localError e id hc
    · exact hc
  · exact foldl (fun c id hc => h.remote.remoteEnd id (.error e) rfl hc) _ hc

theorem close (h : Steady P W) (hc : P c) : P c.close := by
  apply h.notifyAll
  split
  · exact h.stop (h.userClose hc)
  · exact h.userClose hc

theorem loseConnector (h : Steady P W) (hWriting : c.writing = none) (hc : P c) :
    P c.loseConnector := by
  have hLost := h.disconnect hWriting hc
  unfold Http1.loseConnector Http1.onConnectorNulled
  split
  · exact hLost
  · apply h.drained
    apply foldl
    · intro c f hc
      exact h.localError _ f.id hc
    · exact h.error _ (h.notifyAll _ hLost)

theorem decodingStart (h : Steady P W) (hc : P c) : P c.decodingStart := by
  unfold Http1.decodingStart
  dsimp only
  split
  · exact h.getUserHandlers (h.flags false false hc)
  · exact h.flags false false hc

theorem decodingFailure (h : Steady P W) (hc : P c) (hRun : c.decodingFailure = .ok c') : P c' := by
  have hCurrent := h.remote.getCurrent hc
  unfold Http1.decodingFailure at hRun
  split at hRun
  case h_1 hEq =>
    cases hRun
    rw [hEq] at hCurrent
    exact hCurrent
  case h_2 id d hEq =>
    rw [hEq] at hCurrent
    have hEnded := h.remoteTail (h.remote.remoteEnd id (.error .decoding) rfl hCurrent)
    dsimp only at hRun
    split at hRun
    · cases hRun
    · cases hRun
      apply h.localTail
      split
      · exact h.localError _ _ hEnded
      · exact hEnded

theorem notifyLocalHeaders (h : Steady P W) {id : Nat} {m : Message} (hc : P c)
    (hRun : c.notifyLocalHeaders id m = .ok c') : P c' := by
  obtain ⟨bytes, encoder, -, rfl⟩ := Http1.notifyLocalHeaders_ok.mp hRun
  exact h.doWrite (h.serialise _ _ (h.encoder _ (h.sent _ _ hc)))

theorem notifyLocalBody (h : Steady P W) {id : Nat} (hc : P c)
    (hRun : c.notifyLocalBody id = .ok c') : P c' := by
  obtain ⟨bytes, encoder, -, rfl⟩ := Http1.notifyLocalBody_ok.mp hRun
  exact h.doWrite (h.serialise _ _ (h.encoder _ (h.setLocal _ _ hc)))

theorem notifyLocalTrailer (h : Steady P W) {id : Nat} {key value : ByteString} (hc : P c)
    (hRun : c.notifyLocalTrailer id key value = .ok c') : P c' := by
  obtain ⟨bytes, encoder, -, rfl⟩ := Http1.notifyLocalTrailer_ok.mp hRun
  exact h.doWrite (h.serialise _ _ (h.encoder _ (h.setLocal _ _ hc)))

theorem notifyLocalEnd (h : Steady P W) {id : Nat} (hc : P c)
    (hRun : c.notifyLocalEnd id = .ok c') : P c' := by
  obtain ⟨bytes, encoder, -, rfl⟩ := Http1.notifyLocalEnd_ok.mp hRun
  exact h.doWrite (h.feedback _ (h.serialise _ _ (h.encoder _ hc)))

theorem notifyContinue (h : Steady P W) {id : Nat} (hc : P c)
    (hRun : c.notifyContinue id = .ok c') : P c' := by
  obtain ⟨header, first, eom, encoder, -, -, rfl⟩ := Http1.notifyContinue_ok.mp hRun
  exact h.doWrite (h.serialise _ _ (h.encoder _ hc))

/-- What the primitive operations keep, the application and the closures keep. -/
theorem locallyKept (h : Steady P W) (G : Http1 → Op → Prop) :
    LocallyKept P (fun _ => P) G where
  edit _ hc := h.setLocal _ _ hc
  create _ _ hc := h.getUserHandlers hc
  ends _ _ _ hc := h.setLocal _ _ hc
  continues _ hc := h.setLocal _ _ hc
  postEnd _ _ hc := h.post _ rfl hc
  runEnd hPosted hc := h.setLocal _ _ (h.running _ (h.takePosted hPosted hc))
  ran hc := h.running none hc
  close _ hc := h.close hc
  persistentSet b hc := h.persistentSet b hc
  headers _ _ hc hRun := h.notifyLocalHeaders hc hRun
  body _ hc hRun := h.notifyLocalBody hc hRun
  trailer _ hc hRun := h.notifyLocalTrailer hc hRun
  finish _ _ hc hRun := h.notifyLocalEnd hc hRun
  interim _ _ hc hRun := h.notifyContinue (h.setLocal _ _ hc) hRun
  removed hc hRun := h.popFront hc hRun
  expired _ _ hc := h.notifyAll _ (h.error _ hc)
  cleared hPosted hc := h.localCleared _ (h.takePosted hPosted hc)
  failed hPosted hc := h.localError _ _ (h.takePosted hPosted hc)
  remoteEnded hPosted hc := h.setRemote _ _ (fun _ hShown => hShown) (h.takePosted hPosted hc)
  called hPosted hc := h.takePosted hPosted hc

/-- The application may do anything in its callbacks. -/
theorem callbackKeeps (h : Steady P W) (sent : Http1 → List UserOp) :
    CallbackKeeps P (fun _ => P) sent := (h.locallyKept fun _ _ => True).callbackKeeps sent

/-- What the application does in a callback. -/
theorem calls (h : Steady P W) (sent sent' : Http1 → List UserOp) (fuel : Nat) (hc : P c)
    (hRun : (sent' c).foldlM (Http1.userOp (Http1.notifyLocalContent sent fuel)) c = .ok c') : P c' :=
  (h.locallyKept fun _ _ => True).calls sent sent' fuel hc hRun

end Steady

namespace Stable

variable {P : Http1 → Prop} {W : Http1 → WriteResult → Prop}

theorem decodedHeaders (h : Stable P W) {c : Http1} (garbage : Nat) (m : Message) (hc : P c) :
    P (c.decodedHeaders garbage m).2 :=
  RemoteStable.decodedHeaders
    { toRemoteSteady := h.remote, shows := h.shows, received := h.received } garbage m hc

/-- What the primitive operations keep, the functions of the connection keep. -/
theorem kept (h : Stable P W) :
    Kept P (fun _ => P) fun c op => ∀ r, op = .written r → W c r where
  toLocallyKept := h.locallyKept _
  decodingStart _ hc := h.decodingStart hc
  decodedHeaders garbage m hc := h.decodedHeaders garbage m hc
  decodedBody bytes hc := h.remote.decodedBody bytes hc
  decodedTrailer key value hc := h.remote.decodedTrailer key value hc
  decodingEnd hc := h.remote.decodingEnd hc
  decodingFailure _ hc hRun := h.decodingFailure hc hRun
  written r hr hc := h.written r (hr r rfl) hc
  stop hc := h.stop hc
  lost hWriting hc := h.loseConnector hWriting hc

end Stable

namespace Http1

/-- The writes of a run complete in the ways that `W` admits. -/
def WritesWithin (W : Http1 → WriteResult → Prop) (sent : Http1 → List UserOp) (fuel : Nat)
    (c : Http1) (ops : List Op) : Prop :=
  c.Guarded (fun c op => ∀ r, op = .written r → W c r) sent fuel ops

theorem writesWithin_of_forall {W : Http1 → WriteResult → Prop} (sent : Http1 → List UserOp)
    (fuel : Nat) (c : Http1) (ops : List Op) (h : ∀ r, .written r ∈ ops → ∀ c, W c r) :
    c.WritesWithin W sent fuel ops := by
  apply guarded_of_forall
  rintro op hOp c r rfl
  exact h r hOp c

theorem writesWithin_true (sent : Http1 → List UserOp) (fuel : Nat) (c : Http1)
    (ops : List Op) : c.WritesWithin (fun _ _ => True) sent fuel ops :=
  writesWithin_of_forall sent fuel c ops fun _ _ _ => trivial

end Http1

/-- The rule for a run. -/
theorem Stable.run {P : Http1 → Prop} {W : Http1 → WriteResult → Prop} (h : Stable P W)
    {sent : Http1 → List UserOp} {fuel : Nat} {c c' : Http1} {ops : List Op} (hc : P c)
    (hWrites : c.WritesWithin W sent fuel ops) (hRun : c.run sent fuel ops = .ok c') : P c' :=
  h.kept.run (h.callbackKeeps sent) hc hWrites hRun

end Doormat.Protocol
