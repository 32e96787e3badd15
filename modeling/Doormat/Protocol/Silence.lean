import Doormat.Protocol.Queues

/-! An object whose end has been serialised says no more, as long as `on_request_sent` gives no
headers to the request that it reports. -/
namespace Doormat.Protocol

open Bytes Doormat.Http

/-- Nothing is serialised for an object behind its end. -/
def Silent (log : List Happening) : Prop :=
  ∀ before after id bytes, log = before ++ .ended id :: after → .serialised id bytes ∉ after

theorem Silent.concat {log : List Happening} (h : Silent log) {e : Happening}
    (he : ∀ id bytes, e = .serialised id bytes → .ended id ∉ log) : Silent (log ++ [e]) := by
  intro before after id bytes hEq hMem
  rcases List.eq_nil_or_concat after with rfl | ⟨rest, last, rfl⟩
  · cases hMem
  · rw [List.concat_eq_append] at hEq hMem
    rw [← List.cons_append, ← List.append_assoc] at hEq
    obtain ⟨rfl, hLast⟩ := List.append_inj' hEq rfl
    obtain rfl := List.singleton_inj.mp hLast
    rcases List.mem_append.mp hMem with hOld | hNew
    · exact h before rest id bytes rfl hOld
    · exact he id bytes (List.mem_singleton.mp hNew).symm
        (List.mem_append_right _ List.mem_cons_self)

/-- Neither a serialisation nor an end. -/
def Happening.minor : Happening → Bool
  | .serialised _ _ | .ended _ => false
  | _ => true

namespace Http1

/-- All of the first object has been serialised. -/
structure Spent (c : Http1) (id : Nat) : Prop where
  front : c.localObjects.head? = some id
  encoder : c.encoder.state = .ZERO
  headers : (c.locals id).headers = none
  ended : (c.locals id).ended = true

/-- Objects whose end has been serialised are silent. The only one that may still be queued is
`mid`, which is at the front and about to be removed. -/
structure Hushed (mid : Option Nat) (c : Http1) : Prop where
  queued : Queued c
  noContinue : c.role = .client → ∀ id, (c.locals id).continueRequired = false
  logged : ∀ id, .ended id ∈ c.log → id < c.opened
  silent : Silent c.log
  waiting : ∀ id ∈ c.localObjects, .ended id ∈ c.log → mid = some id ∧ c.Spent id

namespace Hushed

variable {mid : Option Nat} {c d c' : Http1} {id : Nat}

theorem start (role : Role) : Hushed none { role := role } where
  queued := Queued.start role
  noContinue _ _ := rfl
  logged _ h := by cases h
  silent before after id bytes h := by
    have hNil := congrArg List.length h
    simp at hNil
  waiting := nofun

/-- Where no ended object is queued, none is about to be removed. -/
theorem weaken (h : Hushed none c) (mid : Option Nat) : Hushed mid c :=
  { h with
    waiting := by
      intro id hQueued hEnded
      cases (h.waiting id hQueued hEnded).1 }

/-- A step that leaves the queue, the encoder and the log alone. -/
theorem frame (h : Hushed mid c) (hQueued : Queued d) (hRole : d.role = c.role)
    (hQueue : d.localObjects = c.localObjects) (hOpened : d.opened = c.opened)
    (hEncoder : d.encoder = c.encoder) (hLog : d.log = c.log)
    (hLocals : ∀ id, (d.locals id).continueRequired = (c.locals id).continueRequired ∧
      ((c.locals id).headers = none → mid = some id → (d.locals id).headers = none) ∧
      ((c.locals id).ended = true → (d.locals id).ended = true)) : Hushed mid d where
  queued := hQueued
  noContinue hClient id := (hLocals id).1.trans (h.noContinue (hRole ▸ hClient) id)
  logged := by
    rw [hLog, hOpened]
    exact h.logged
  silent := by
    rw [hLog]
    exact h.silent
  waiting := by
    intro id hId hEnded
    rw [hQueue] at hId
    rw [hLog] at hEnded
    obtain ⟨hMid, hSpent⟩ := h.waiting id hId hEnded
    refine ⟨hMid, ?_, ?_, (hLocals id).2.1 hSpent.headers hMid, (hLocals id).2.2 hSpent.ended⟩
    · rw [hQueue]
      exact hSpent.front
    · rw [hEncoder]
      exact hSpent.encoder

/-- An edit of a local object. -/
theorem setLocal (h : Hushed mid c) {l : Local}
    (hContinue : l.continueRequired = (c.locals id).continueRequired)
    (hHeaders : (c.locals id).headers = none → mid = some id → l.headers = none)
    (hEnded : (c.locals id).ended = true → l.ended = true) : Hushed mid (c.setLocal id l) := by
  refine h.frame (d := c.setLocal id l) ?_ rfl rfl rfl rfl rfl ?_
  · exact Queued.stable.setLocal id l h.queued
  · intro j
    by_cases hj : j = id
    · subst hj
      rw [setLocal_locals_self]
      exact ⟨hContinue, hHeaders, hEnded⟩
    · rw [setLocal_locals_of_ne hj]
      exact ⟨rfl, fun hNone _ => hNone, fun hEnded => hEnded⟩

theorem doWrite (h : Hushed mid c) : Hushed mid c.doWrite := by
  apply h.frame (Queued.stable.doWrite h.queued) (doWrite_role c) (doWrite_localObjects c)
    (doWrite_opened c) (doWrite_encoder c) (doWrite_log c)
  intro id
  rw [doWrite_locals]
  exact ⟨rfl, fun hNone _ => hNone, fun hEnded => hEnded⟩

/-- A happening that is neither a serialisation nor an end. -/
theorem record (h : Hushed mid c) {e : Happening} (he : e.minor = true) :
    Hushed mid (c.record e) := by
  have hSame : ∀ id, .ended id ∈ c.log ++ [e] → .ended id ∈ c.log := by
    intro id hMem
    rcases List.mem_append.mp hMem with hOld | hNew
    · exact hOld
    · rw [← List.mem_singleton.mp hNew] at he
      cases he
  exact
  { h with
    queued := { h.queued with }
    logged := fun id hEnded => h.logged id (hSame id hEnded)
    silent := by
      apply h.silent.concat
      rintro id bytes rfl
      cases he
    waiting := by
      intro id hId hEnded
      obtain ⟨hMid, hSpent⟩ := h.waiting id hId (hSame id hEnded)
      exact ⟨hMid, { hSpent with }⟩ }

/-- The first object has not been ended. -/
theorem front_going (h : Hushed none c) {rest : List Nat} (hFront : c.localObjects = id :: rest) :
    .ended id ∉ c.log := by
  intro hEnded
  have hQueued : id ∈ c.localObjects := by
    rw [hFront]
    exact List.mem_cons_self
  cases (h.waiting id hQueued hEnded).1

/-- What the first object holds is encoded. -/
theorem speaks (h : Hushed none c) {rest : List Nat} {l : Local} {e : Encoder} {bytes : ByteString}
    (hFront : c.localObjects = id :: rest)
    (hContinue : c.role = .client → l.continueRequired = false) :
    Hushed none ({ c.setLocal id l with encoder := e }.serialise id bytes) := by
  have hSame : ∀ j, .ended j ∈ c.log ++ [.serialised id bytes] → .ended j ∈ c.log := by
    intro j hMem
    exact (List.mem_append.mp hMem).resolve_right fun hNew => by
      cases List.mem_singleton.mp hNew
  exact
  { queued := { h.queued with }
    noContinue := by
      intro hClient j
      show (Function.update c.locals id l j).continueRequired = false
      by_cases hj : j = id
      · subst hj
        rw [Function.update_self]
        exact hContinue hClient
      · rw [Function.update_of_ne hj]
        exact h.noContinue hClient j
    logged := fun j hEnded => h.logged j (hSame j hEnded)
    silent := by
      apply h.silent.concat
      intro j bytes' hEq
      cases hEq
      exact h.front_going hFront
    waiting := by
      intro j hj hEnded
      cases (h.waiting j hj (hSame j hEnded)).1 }

/-- The end of the first object is serialised. -/
theorem finish (h : Hushed none c) {rest : List Nat} {e : Encoder} {bytes : ByteString}
    (hFront : c.localObjects = id :: rest) (hState : e.state = .ZERO)
    (hOver : LocalState.Of (c.locals id) .ended) :
    Hushed (some id) (({ c with encoder := e }.serialise id bytes).queueFeedback id) := by
  have hSpeaks : Hushed none
      ({ c.setLocal id (c.locals id) with encoder := e }.serialise id bytes) :=
    h.speaks hFront fun hClient => h.noContinue hClient id
  rw [setLocal_self] at hSpeaks
  have hQueued : id ∈ c.localObjects := by
    rw [hFront]
    exact List.mem_cons_self
  have hOld : ∀ j, .ended j ∈ (c.log ++ [.serialised id bytes]) ++ [.ended id] →
      j = id ∨ .ended j ∈ c.log ++ [.serialised id bytes] := by
    intro j hMem
    rcases List.mem_append.mp hMem with hOld | hNew
    · exact .inr hOld
    · cases List.mem_singleton.mp hNew
      exact .inl rfl
  exact
  { hSpeaks with
    queued := { h.queued with }
    logged := by
      intro j hMem
      rcases hOld j hMem with rfl | hOld
      · exact h.queued.localsOpened j hQueued
      · exact hSpeaks.logged j hOld
    silent := hSpeaks.silent.concat nofun
    waiting := by
      intro j hj hMem
      rcases hOld j hMem with rfl | hOld
      · refine ⟨rfl, ?_, hState, hOver.1, hOver.2.2.2⟩
        show c.localObjects.head? = some j
        rw [hFront, List.head?_cons]
      · cases (hSpeaks.waiting j hj hOld).1 }

/-- The first object of the queue is removed. -/
theorem removed (h : Hushed mid c) (hRun : c.popFront = .ok c') : Hushed none c' := by
  have hQueued := Queued.stable.popFront h.queued hRun
  obtain ⟨first, rest, hFront, rfl⟩ := popFront_ok.mp hRun
  have hRecord := h.record (e := .removed first) rfl
  refine { hRecord with queued := hQueued, waiting := ?_ }
  intro j hj hEnded
  have hMem : j ∈ c.localObjects := by
    rw [hFront]
    exact List.mem_cons_of_mem _ hj
  -- an object that has ended is the first one, which is no longer queued
  have hHead := (hRecord.waiting j hMem hEnded).2.front
  have hHead : c.localObjects.head? = some j := hHead
  rw [hFront] at hHead
  cases hHead
  have hNodup := h.queued.locals
  rw [hFront] at hNodup
  exact absurd hj (List.nodup_cons.mp hNodup).1

/-- A new object goes to the end of the queue. -/
theorem opens (h : Hushed mid c) : Hushed mid c.getUserHandlers := by
  rw [getUserHandlers]
  split
  · exact h
  case isFalse hLost =>
  refine { h with queued := Queued.stable.opens (by simpa using hLost) h.queued, logged := ?_, waiting := ?_ }
  · exact fun j hEnded => Nat.lt_succ_of_lt (h.logged j hEnded)
  · intro j hj hEnded
    rcases List.mem_append.mp hj with hOld | hNew
    · obtain ⟨hMid, hSpent⟩ := h.waiting j hOld hEnded
      refine ⟨hMid, { hSpent with front := ?_ }⟩
      show (c.localObjects ++ [c.opened]).head? = some j
      rw [List.head?_append, hSpent.front, Option.some_or]
    · rw [List.mem_singleton.mp hNew] at hEnded
      exact absurd (h.logged _ hEnded) (Nat.lt_irrefl _)

theorem clear (h : Hushed mid c) : Hushed none { c with remoteObjects := [], localObjects := [] } :=
  { h with
    queued := Queued.stable.clear h.queued
    waiting := nofun }

theorem remote (mid : Option Nat) : RemoteStable (Hushed mid) where
  setRemote id r hShows h :=
    h.frame (Queued.stable.setRemote id r hShows h.queued) rfl rfl rfl rfl rfl
      fun _ => ⟨rfl, fun hNone _ => hNone, fun hEnded => hEnded⟩
  shows id data m h :=
    (h.record (e := .received data true) rfl).frame (Queued.stable.shows id data m h.queued)
      rfl rfl rfl rfl rfl fun _ => ⟨rfl, fun hNone _ => hNone, fun hEnded => hEnded⟩
  postEnd _ h :=
    h.frame { h.queued with } rfl rfl rfl rfl rfl
      fun _ => ⟨rfl, fun hNone _ => hNone, fun hEnded => hEnded⟩
  error e h :=
    h.frame (Queued.stable.error e h.queued) rfl rfl rfl rfl rfl
      fun _ => ⟨rfl, fun hNone _ => hNone, fun hEnded => hEnded⟩
  flags b b' h :=
    h.frame (Queued.stable.flags b b' h.queued) rfl rfl rfl rfl rfl
      fun _ => ⟨rfl, fun hNone _ => hNone, fun hEnded => hEnded⟩
  received m taken h :=
    (h.record (e := .received m taken) rfl).frame (Queued.stable.received m taken h.queued)
      rfl rfl rfl rfl rfl fun _ => ⟨rfl, fun hNone _ => hNone, fun hEnded => hEnded⟩
  remoteTail h :=
    h.frame (Queued.stable.remoteTail h.queued) rfl rfl rfl rfl rfl
      fun _ => ⟨rfl, fun hNone _ => hNone, fun hEnded => hEnded⟩

/-- Closures come and go, and the write path moves on. -/
theorem still (h : Hushed mid c) (hRole : d.role = c.role)
    (hQueue : d.localObjects = c.localObjects) (hRemotes : d.remoteObjects = c.remoteObjects)
    (hOpened : d.opened = c.opened) (hEncoder : d.encoder = c.encoder) (hLog : d.log = c.log)
    (hLocals : d.locals = c.locals) : Hushed mid d := by
  refine h.frame ?_ hRole hQueue hOpened hEncoder hLog ?_
  · constructor
    · exact hQueue ▸ h.queued.locals
    · rw [hQueue, hOpened]
      exact h.queued.localsOpened
    · exact hRemotes ▸ h.queued.remotes
    · rw [hRemotes, hOpened]
      exact h.queued.remotesOpened
  · intro id
    rw [hLocals]
    exact ⟨rfl, fun hNone _ => hNone, fun hEnded => hEnded⟩

theorem localError (h : Hushed mid c) (e : ErrorCode) (id : Nat) :
    Hushed mid (c.localError e id) := by
  have hTold : Hushed mid (c.setLocal id { c.locals id with
      ended := (c.locals id).ended || c.role = .server
      myself := false
      received := (c.locals id).received ++ [.error e] }) := by
    apply h.setLocal
    · rfl
    · exact fun hNone _ => hNone
    · exact fun ended => by simp [ended]
  rw [Http1.localError]
  split
  · exact hTold.still rfl rfl rfl rfl rfl rfl rfl
  · exact hTold

theorem localCleared (h : Hushed mid c) (id : Nat) : Hushed mid (c.localCleared id) := by
  have hTold : Hushed mid (c.setLocal id { c.locals id with
      ended := (c.locals id).ended || c.role = .server
      myself := false
      received := (c.locals id).received ++ [.cleared] }) := by
    apply h.setLocal
    · rfl
    · exact fun hNone _ => hNone
    · exact fun ended => by simp [ended]
  rw [Http1.localCleared]
  split
  · exact hTold.still rfl rfl rfl rfl rfl rfl rfl
  · exact hTold

/-- Everybody is told of an error, and the queues are cleared. -/
theorem notifyAll (h : Hushed mid c) (e : ErrorCode) : Hushed none (c.notifyAll e) := by
  have hLocal : ∀ c id, Hushed mid c → Hushed mid (if c.alive id then c.localError e id else c) := by
    intro c id hc
    split
    · exact hc.localError e id
    · exact hc
  have hRemote := Steady.foldl (fun c id hc => (remote mid).remoteEnd id (.error e) rfl hc)
    c.remoteObjects h
  exact (Steady.foldl hLocal _ hRemote).clear

theorem close (h : Hushed mid c) : Hushed none c.close := by
  rw [Http1.close]
  refine notifyAll (?_ : Hushed mid _) _
  dsimp only
  split
  · exact h.still rfl rfl rfl rfl rfl rfl rfl
  · exact h.still rfl rfl rfl rfl rfl rfl rfl

theorem expired (h : Hushed mid c) (e : ErrorCode) : Hushed none ((c.error e).notifyAll e) :=
  ((remote mid).error e h).notifyAll e

end Hushed

/-- What the functions of a connection do to objects that have ended. -/
theorem Hushed.kept : Kept (Hushed none) (fun id => Hushed (some id)) fun _ _ => True where
  edit hEdit h := by
    apply h.setLocal hEdit.continueRequired
    · exact fun _ hMid => by cases hMid
    · rw [hEdit.ended]
      exact fun hEnded => hEnded
  create _ _ h := h.opens
  ends _ _ _ h := h.setLocal rfl (fun hNone _ => hNone) fun _ => rfl
  continues {c id} hServer h := by
    have hQueued := Queued.stable.setLocal id { c.locals id with continueRequired := true } h.queued
    refine { h with queued := hQueued, noContinue := ?_, waiting := ?_ }
    · intro hClient
      cases hServer.symm.trans hClient
    · intro j hj hEnded
      cases (h.waiting j hj hEnded).1
  postEnd _ _ h := h.still rfl rfl rfl rfl rfl rfl rfl
  runEnd {c id rest} _ h := by
    have hTaken : Hushed none { c with posted := rest, running := some id } :=
      h.still rfl rfl rfl rfl rfl rfl rfl
    exact hTaken.setLocal rfl (fun hNone _ => hNone) fun _ => rfl
  ran h := h.still rfl rfl rfl rfl rfl rfl rfl
  close _ h := h.close
  persistentSet b h := (h.record (e := .persistentSet b) rfl).still rfl rfl rfl rfl rfl rfl rfl
  headers {c c' id rest m} hFront _ h hRun := by
    obtain ⟨bytes, encoder, -, rfl⟩ := notifyLocalHeaders_ok.mp hRun
    have hSent : Hushed none (c.record (.sent m.data)) := h.record rfl
    have hSpeaks : Hushed none ({ (c.record (.sent m.data)).setLocal id
        { c.locals id with headers := none } with encoder := encoder }.serialise id bytes) :=
      hSent.speaks hFront fun hClient => h.noContinue hClient id
    apply Hushed.doWrite
    exact hSpeaks.still rfl rfl rfl rfl rfl rfl rfl
  body {c c' id rest} hFront h hRun := by
    obtain ⟨bytes, encoder, -, rfl⟩ := notifyLocalBody_ok.mp hRun
    apply Hushed.doWrite
    apply h.speaks hFront
    exact fun hClient => h.noContinue hClient id
  trailer {c c' id rest key value} hFront h hRun := by
    obtain ⟨bytes, encoder, -, rfl⟩ := notifyLocalTrailer_ok.mp hRun
    apply Hushed.doWrite
    apply h.speaks hFront
    exact fun hClient => h.noContinue hClient id
  finish hFront hOver h hRun := by
    obtain ⟨bytes, encoder, hEncode, rfl⟩ := notifyLocalEnd_ok.mp hRun
    exact (h.finish hFront (Encoder.encodeEom_state hEncode) hOver).doWrite
  interim hFront _ h hRun := by
    obtain ⟨header, first, eom, encoder, -, -, rfl⟩ := notifyContinue_ok.mp hRun
    apply Hushed.doWrite
    apply h.speaks hFront
    exact fun _ => rfl
  removed h hRun := h.removed hRun
  expired _ _ h := h.expired _
  cleared {c f rest} _ h := by
    have hTaken : Hushed none { c with posted := rest } := h.still rfl rfl rfl rfl rfl rfl rfl
    exact hTaken.localCleared f.id
  failed {c f rest} _ h := by
    have hTaken : Hushed none { c with posted := rest } := h.still rfl rfl rfl rfl rfl rfl rfl
    exact hTaken.localError .missingStreamElement f.id
  remoteEnded {c id rest} _ h := by
    have hTaken : Hushed none { c with posted := rest } := h.still rfl rfl rfl rfl rfl rfl rfl
    exact (Hushed.remote none).setRemote _ _ (fun _ hShown => hShown) hTaken
  called _ h := h.still rfl rfl rfl rfl rfl rfl rfl
  decodingStart {c} _ h := by
    have hFlags := (Hushed.remote none).flags false false h
    rw [Http1.decodingStart]
    dsimp only
    split
    · exact hFlags.opens
    · exact hFlags
  decodedHeaders garbage m h := (Hushed.remote none).decodedHeaders garbage m h
  decodedBody bytes h := (Hushed.remote none).decodedBody bytes h
  decodedTrailer key value h := (Hushed.remote none).decodedTrailer key value h
  decodingEnd h := (Hushed.remote none).decodingEnd h
  decodingFailure {c c'} _ h hRun := by
    have hCurrent := (Hushed.remote none).getCurrent h
    unfold Http1.decodingFailure at hRun
    split at hRun
    case h_1 hEq =>
      cases hRun
      rw [hEq] at hCurrent
      exact hCurrent
    case h_2 id d hEq =>
      rw [hEq] at hCurrent
      have hEnded := (Hushed.remote none).remoteTail
        ((Hushed.remote none).remoteEnd id (.error .decoding) rfl hCurrent)
      dsimp only at hRun
      split at hRun
      · cases hRun
      case h_2 last hLast =>
        cases hRun
        have hTold : Hushed none (if Http1.alive { d.remoteEnd id (.error .decoding) with
            remoteObjects := (d.remoteEnd id (.error .decoding)).remoteObjects.tail } last then
              Http1.localError { d.remoteEnd id (.error .decoding) with
                remoteObjects := (d.remoteEnd id (.error .decoding)).remoteObjects.tail } .decoding last
            else { d.remoteEnd id (.error .decoding) with
              remoteObjects := (d.remoteEnd id (.error .decoding)).remoteObjects.tail }) := by
          split
          · exact hEnded.localError .decoding last
          · exact hEnded
        refine { hTold with queued := Queued.stable.localTail hTold.queued, waiting := ?_ }
        intro j hj hMem
        cases (hTold.waiting j (List.mem_of_mem_tail hj) hMem).1
  written {c} r _ h := by
    apply h.still (written_role c r) (written_localObjects c r) (written_remoteObjects c r)
      (written_opened c r) (written_encoder c r) (written_log c r) (written_locals c r)
  stop h := h.still rfl rfl rfl rfl rfl rfl rfl
  lost {c} _ h := by
    have hLost : Hushed none { c with connected := false } := h.still rfl rfl rfl rfl rfl rfl rfl
    rw [loseConnector, onConnectorNulled]
    split
    · exact hLost
    · have hAll := (Hushed.remote none).error .closedByClient (hLost.notifyAll .closedByClient)
      have hTold := Steady.foldl (P := Hushed none)
        (fun c f hc => hc.localError .missingStreamElement f.id)
        (({ c with connected := false }.notifyAll .closedByClient).error
          .closedByClient).pendingClearCallbacks hAll
      exact hTold.still rfl rfl rfl rfl rfl rfl rfl

/-! ### What the application does in `on_request_sent` -/

/-- The callback gives no headers to the request at the front, which is the one that it reports. -/
def HoldsBack (sent : Http1 → List UserOp) : Prop :=
  ∀ c id rest, c.localObjects = id :: rest → ∀ m, .headers id m ∉ sent c

section Callback

variable {mid : Option Nat} {c c' : Http1} {id : Nat} {inner sent : Http1 → List UserOp} {fuel : Nat}

/-- An object of which all has been serialised is not polled again without an assertion. -/
theorem Spent.pollLocal (h : c.Spent id) (hContinue : (c.locals id).continueRequired = false)
    {b : Bool} : c.pollLocal id ≠ .ok (c', b) := by
  intro hRun
  rw [Http1.pollLocal, Nat.add_comm, Nat.add_succ, Http1.pollLoop] at hRun
  obtain ⟨hSame, hState⟩ := Local.getState_of_not_continue hContinue
  rcases hGet : (c.locals id).getState with ⟨state, l⟩
  rw [hGet] at hRun hSame hState
  dsimp only at hSame
  rw [hSame] at hRun
  dsimp only at hRun
  rw [setLocal_self] at hRun
  cases state with
  | sendContinue => exact hState
  | headersReceived =>
      rw [LocalState.Of, h.headers] at hState
      cases hState
  | bodyReceived =>
      obtain ⟨d, hStep, -⟩ := bind_eq_ok.mp hRun
      obtain ⟨bytes, encoder, hEncode, -⟩ := notifyLocalBody_ok.mp hStep
      simp [Encoder.encodeBody, h.encoder] at hEncode
  | trailerReceived =>
      cases hTrailers : (c.locals id).trailers with
      | nil => exact hState.2.2 hTrailers
      | cons trailer trailers =>
          simp only [hTrailers] at hRun
          obtain ⟨d, hStep, -⟩ := bind_eq_ok.mp hRun
          obtain ⟨bytes, encoder, hEncode, -⟩ := notifyLocalTrailer_ok.mp hStep
          simp [Encoder.encodeTrailer, h.encoder] at hEncode
  | ended =>
      obtain ⟨d, hStep, -⟩ := bind_eq_ok.mp hRun
      obtain ⟨bytes, encoder, hEncode, -⟩ := notifyLocalEnd_ok.mp hStep
      simp [Encoder.encodeEom, h.encoder] at hEncode
  | pending =>
      have hEnded := h.ended
      rw [hState.2.2.2] at hEnded
      cases hEnded

/-- Either no ended object is queued, or all of the first one has been serialised. -/
theorem Hushed.none_or_front (h : Hushed mid c) :
    Hushed none c ∨ ∃ id rest, mid = some id ∧ c.localObjects = id :: rest ∧ c.Spent id := by
  by_cases hEnded : ∃ id ∈ c.localObjects, .ended id ∈ c.log
  · obtain ⟨id, hQueued, hMem⟩ := hEnded
    obtain ⟨hMid, hSpent⟩ := h.waiting id hQueued hMem
    obtain ⟨rest, hFront⟩ := List.head?_eq_some_iff.mp hSpent.front
    exact .inr ⟨id, rest, hMid, hFront, hSpent⟩
  · refine .inl { h with waiting := ?_ }
    intro id hQueued hMem
    exact absurd ⟨id, hQueued, hMem⟩ hEnded

/-- `notify_local_content` within the callback. -/
theorem Hushed.notifyLocalContent (h : Hushed mid c) (hClient : c.role = .client)
    (hNotify : ∀ {c c'}, Hushed none c → Http1.notifyLocalContent inner fuel c = .ok c' → Hushed none c')
    (hRun : Http1.notifyLocalContent inner fuel c = .ok c') : Hushed none c' := by
  rcases h.none_or_front with hNone | ⟨id, rest, -, hFront, hSpent⟩
  · exact hNotify hNone hRun
  cases fuel with
  | zero => cases hRun
  | succ fuel =>
      rw [Http1.notifyLocalContent, hFront] at hRun
      dsimp only at hRun
      split at hRun
      case isTrue =>
        obtain ⟨⟨d, b⟩, hPoll, -⟩ := bind_eq_ok.mp hRun
        exact absurd hPoll (hSpent.pollLocal (h.noContinue hClient id))
      case isFalse =>
        -- an expired object has the queues cleared, and the loop ends
        have hCleared := h.expired .missingStreamElement
        cases fuel with
        | zero => cases hRun
        | succ fuel =>
            rw [Http1.notifyLocalContent] at hRun
            cases hRun
            exact hCleared

/-- A call of the application within the callback. -/
theorem Hushed.userOp (h : Hushed (some id) c) (hClient : c.role = .client)
    (hNotify : ∀ {c c'}, Hushed none c → Http1.notifyLocalContent inner fuel c = .ok c' → Hushed none c')
    {op : UserOp} (hFree : ∀ m, op ≠ .headers id m)
    (hRun : Http1.userOp (Http1.notifyLocalContent inner fuel) c op = .ok c') : Hushed (some id) c' := by
  have hContent : ∀ j l, (if c.usable j then Http1.notifyLocalContent inner fuel (c.setLocal j l)
      else .ok c) = .ok c' → Hushed (some id) (c.setLocal j l) → Hushed (some id) c' := by
    intro j l hRun hSet
    split at hRun
    · exact (hSet.notifyLocalContent hClient hNotify hRun).weaken _
    · cases hRun
      exact h
  have hMark : ∀ j l, Except.ok (ε := Fault) (if c.usable j then c.setLocal j l else c) = .ok c' →
      Hushed (some id) (c.setLocal j l) → Hushed (some id) c' := by
    intro j l hRun hSet
    cases hRun
    split
    · exact hSet
    · exact h
  cases op with
  | create =>
      cases hRun
      rw [if_pos hClient]
      exact h.opens
  | headers j m =>
      apply hContent j _ hRun
      apply h.setLocal
      · rfl
      · intro _ hMid
        cases hMid
        exact absurd rfl (hFree m)
      · exact fun hEnded => hEnded
  | body j bytes => exact hContent j _ hRun (h.setLocal rfl (fun hNone _ => hNone) fun hEnded => hEnded)
  | trailer j key value =>
      exact hContent j _ hRun (h.setLocal rfl (fun hNone _ => hNone) fun hEnded => hEnded)
  | finish j =>
      simp only [Http1.userOp] at hRun
      split at hRun
      · cases hRun
        exact h
      rw [if_neg (by rw [hClient]; decide)] at hRun
      obtain ⟨d, hStep, hRest⟩ := bind_eq_ok.mp hRun
      cases hRest
      have hSet : Hushed (some id) (c.setLocal j { c.locals j with ended := true }) :=
        h.setLocal rfl (fun hNone _ => hNone) fun _ => rfl
      have hd := hSet.notifyLocalContent hClient hNotify hStep
      have hOwn : Hushed none (d.setLocal j { d.locals j with myself := true }) :=
        hd.setLocal rfl (fun hNone _ => hNone) fun hEnded => hEnded
      exact hOwn.weaken _
  | sendContinue j =>
      simp only [Http1.userOp, hClient] at hRun
      rw [if_neg (by simp)] at hRun
      cases hRun
      exact h
  | onError j => exact hMark j _ hRun (h.setLocal rfl (fun hNone _ => hNone) fun hEnded => hEnded)
  | onWrite j => exact hMark j _ hRun (h.setLocal rfl (fun hNone _ => hNone) fun hEnded => hEnded)
  | drop j => exact hMark j _ hRun (h.setLocal rfl (fun hNone _ => hNone) fun hEnded => hEnded)
  | close =>
      cases hRun
      exact h.close.weaken _
  | setPersistent b =>
      cases hRun
      exact (h.record (e := .persistentSet b) rfl).still rfl rfl rfl rfl rfl rfl rfl

/-- The application may do anything else in its callback. -/
theorem HoldsBack.keeps (hSent : HoldsBack sent) :
    CallbackKeeps (Hushed none) (fun id => Hushed (some id)) sent := by
  intro inner fuel id c c' hClient hNotify h hRun
  have hRole := (role_stable .client).locallyKept fun _ _ => True
  have hOps : ∀ {ops : List UserOp} {c}, (∀ op ∈ ops, ∀ m, op ≠ .headers id m) → c.role = .client →
      Hushed (some id) c → ops.foldlM (Http1.userOp (Http1.notifyLocalContent inner fuel)) c = .ok c' →
        Hushed (some id) c' := by
    intro ops
    induction ops with
    | nil =>
        intro c _ _ h hRun
        cases hRun
        exact h
    | cons op ops ih =>
        intro c hFree hClient h hRun
        rw [List.foldlM_cons] at hRun
        obtain ⟨d, hStep, hRest⟩ := bind_eq_ok.mp hRun
        apply ih (fun op hOp => hFree op (List.mem_cons_of_mem _ hOp)) _ _ hRest
        · exact hRole.userOp (hRole.notifyLocalContent (hRole.callbackKeeps inner)) trivial hClient hStep
        · exact h.userOp hClient hNotify (hFree op List.mem_cons_self) hStep
  rcases h.none_or_front with hNone | ⟨j, rest, hMid, hFront, -⟩
  · exact (Hushed.kept.toLocallyKept.userOps hNotify hNone hRun).weaken _
  · cases hMid
    apply hOps _ hClient h hRun
    rintro op hOp m rfl
    exact hSent c id rest hFront m hOp

end Callback

/-- In any run, what an object has serialised comes before its end, as long as the callback holds
back. -/
theorem silent_throughout {role : Role} {sent : Http1 → List UserOp} {fuel : Nat} {ops : List Op} {c : Http1}
    (hSent : HoldsBack sent) (hRun : run sent fuel { role := role } ops = .ok c) : Silent c.log := by
  have hGuarded := guarded_of_forall (G := fun _ _ => True) sent fuel { role := role } ops
    fun _ _ _ => trivial
  exact (Hushed.kept.run hSent.keeps (Hushed.start role) hGuarded hRun).silent

end Http1

end Doormat.Protocol
