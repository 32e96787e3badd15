import Doormat.Protocol.Feedback
import Doormat.Protocol.Polling

/-! The queue of a client: every request is ended once and removed once, in this order, with one
feedback for its end, and none that has ended waits at the front. -/
namespace Doormat.Protocol

open Bytes Doormat.Http

namespace Http1

variable {c c' d : Http1} {id : Nat}

/-! ### Feedbacks -/

/-- The feedbacks that are given about an object: those it has been told of, those that wait for a
write or have been captured by one, and those that are posted. -/
def feedbacks (c : Http1) (id : Nat) : Nat :=
  (c.locals id).received.length + about c.pendingClearCallbacks id +
    about ((c.writing.map Write.feedbacks).getD []) id + postedAbout c.posted id

theorem owed_eq_feedbacks (c : Http1) (id : Nat) : c.owed id = c.localObjects.count id + c.feedbacks id := by
  rw [owed, feedbacks]
  omega

/-- The feedbacks about an object are as many as its ends, unless the connection has been closed or
has failed; one in the queue is owed one more. -/
def Fed (c : Http1) : Prop :=
  c.Broken ∨ ∀ id, c.owed id = c.localObjects.count id + c.log.count (.ended id)

namespace Fed

/-- A step that leaves the queue alone and owes what was owed. -/
theorem frame (h : Fed c) (hBroken : c.Broken → d.Broken) (hOwed : d.owed = c.owed)
    (hQueue : d.localObjects = c.localObjects)
    (hEnds : ∀ id, d.log.count (.ended id) = c.log.count (.ended id)) : Fed d := by
  refine h.imp hBroken fun hFed id => ?_
  rw [hOwed, hQueue, hEnds]
  exact hFed id

theorem set (h : Fed c) {l : Local} (hReceived : l.received = (c.locals id).received) : Fed (c.setLocal id l) :=
  h.frame (fun hBroken => hBroken) (setLocal_owed (by rw [hReceived])) rfl fun _ => rfl

theorem doWrite (h : Fed c) : Fed c.doWrite := by
  apply h.frame _ (doWrite_owed c) (doWrite_localObjects c)
  · intro id
    rw [doWrite_log]
  · rw [Broken, Broken, doWrite_userClose, doWrite_errors]
    exact fun hBroken => hBroken

/-- A happening that the queue does not count. -/
theorem record (h : Fed c) {e : Happening} (he : e.counts = false) : Fed (c.record e) :=
  h.frame (fun hBroken => hBroken) rfl rfl fun _ => count_append_of_not_counts he rfl

theorem serialise (h : Fed c) (e : Encoder) (id : Nat) (bytes : ByteString) :
    Fed ({ c with encoder := e }.serialise id bytes) :=
  h.frame (fun hBroken => hBroken) rfl rfl fun _ => count_append_of_not_counts rfl rfl

/-- A closure that is no feedback is taken or posted. -/
theorem reposted (h : Fed c) {ps : List Posted}
    (hSame : ∀ id, postedAbout ps id = postedAbout c.posted id) : Fed { c with posted := ps } := by
  refine h.frame (fun hBroken => hBroken) ?_ rfl fun _ => rfl
  funext id
  rw [owed, owed]
  show _ + postedAbout ps id = _
  rw [hSame]

theorem opens (h : Fed c) : Fed c.getUserHandlers := by
  rw [getUserHandlers]
  split
  · exact h
  · refine h.imp (fun hBroken => hBroken) fun hFed id => ?_
    have hOwed := hFed id
    rw [owed] at hOwed ⊢
    show (c.locals id).received.length + (c.localObjects ++ [c.opened]).count id +
      about c.pendingClearCallbacks id + about ((c.writing.map Write.feedbacks).getD []) id +
        postedAbout c.posted id = (c.localObjects ++ [c.opened]).count id + c.log.count (.ended id)
    omega

/-- The end of a message is serialised, and its feedback waits for a write. -/
theorem finish (h : Fed c) : Fed (c.queueFeedback id) := by
  refine h.imp (fun hBroken => hBroken) fun hFed j => ?_
  have hOwed : (c.queueFeedback id).owed j = c.owed j + if id = j then 1 else 0 := by
    rw [owed, owed]
    show _ + _ + about (c.pendingClearCallbacks ++ [_]) j + _ + _ = _
    rw [about, List.countP_append, List.countP_singleton]
    simp only [decide_eq_true_eq]
    show (c.locals j).received.length + c.localObjects.count j +
      (about c.pendingClearCallbacks j + _) + about ((c.writing.map Write.feedbacks).getD []) j +
        postedAbout c.posted j = _
    omega
  have hEnds : (c.queueFeedback id).log.count (.ended j) = c.log.count (.ended j) + if id = j then 1 else 0 := by
    show (c.log ++ [Happening.ended id]).count (.ended j) = _
    simp [List.count_append, List.count_singleton]
  show _ = c.localObjects.count j + _
  rw [hOwed, hEnds, hFed j, Nat.add_assoc]

theorem removed (h : Fed c) (hRun : c.popFront = .ok c') : Fed c' := by
  obtain ⟨first, rest, hFront, rfl⟩ := popFront_ok.mp hRun
  refine h.imp (fun hBroken => hBroken) fun hFed j => ?_
  have hOwed := hFed j
  have hEnds : (c.log ++ [Happening.removed first]).count (.ended j) = c.log.count (.ended j) := by
    simp [List.count_append]
  rw [owed, hFront] at hOwed
  rw [owed]
  show _ + rest.count j + _ + _ + _ = rest.count j + (c.log ++ [Happening.removed first]).count (.ended j)
  rw [hEnds]
  show (c.locals j).received.length + rest.count j + about c.pendingClearCallbacks j +
    about ((c.writing.map Write.feedbacks).getD []) j + postedAbout c.posted j = _
  omega

/-- A feedback is taken, and its object is told. -/
theorem told {f : Feedback} {success : Bool} {rest : List Posted} (h : Fed c)
    (hPosted : c.posted = .feedback f success :: rest) (hBroken : c.Broken → d.Broken)
    (hQueue : d.localObjects = c.localObjects) (hLog : d.log = c.log)
    (hOwed : ∀ j, d.owed j = ({ c with posted := rest } : Http1).owed j + if j = f.id then 1 else 0) : Fed d := by
  apply h.frame hBroken _ hQueue
  · intro id
    rw [hLog]
  · funext j
    have hAbout : postedAbout c.posted j = postedAbout rest j + if j = f.id then 1 else 0 := by
      rw [hPosted, postedAbout, List.countP_cons, postedAbout]
      simp only [Posted.feeds, decide_eq_true_eq, eq_comm (a := f.id)]
    rw [hOwed, owed, owed, hAbout]
    exact Nat.add_assoc _ _ _

theorem remote : RemoteStable Fed where
  setRemote _ _ _ h := h.frame (fun hBroken => hBroken) rfl rfl fun _ => rfl
  shows _ m _ h := (h.record (e := .received m true) rfl).frame (fun hBroken => hBroken) rfl rfl fun _ => rfl
  postEnd id h := by
    apply h.reposted
    intro j
    rw [postedAbout_append]
    rfl
  error e h := by
    refine h.frame (fun hBroken => ?_) rfl rfl fun _ => rfl
    exact hBroken.imp_right fun _ => by simp [Http1.error]
  flags _ _ h := h.frame (fun hBroken => hBroken) rfl rfl fun _ => rfl
  received m taken h := h.record rfl
  remoteTail h := h.frame (fun hBroken => hBroken) rfl rfl fun _ => rfl

end Fed

/-- A connection that has been closed or has failed stays so. -/
theorem notifyAll_broken (c : Http1) (e : ErrorCode) : (c.notifyAll e).Broken ↔ c.Broken := by
  rw [Broken, Broken, notifyAll_userClose, notifyAll_errors]

/-- What the functions of a connection do to the feedbacks. -/
theorem Fed.kept : Kept Fed (fun _ => Fed) OrderlyStep where
  edit hEdit h := h.set hEdit.received
  create _ _ h := h.opens
  ends _ _ _ h := h.set rfl
  continues _ h := h.set rfl
  postEnd _ _ h := by
    apply h.reposted
    intro j
    rw [postedAbout_append]
    rfl
  runEnd {c id rest} hPosted h := by
    have hTaken : Fed { c with posted := rest } := by
      apply h.reposted
      intro j
      rw [hPosted]
      rfl
    have hRuns : Fed { c with posted := rest, running := some id } :=
      hTaken.frame (fun hBroken => hBroken) rfl rfl fun _ => rfl
    exact hRuns.set rfl
  ran h := h.frame (fun hBroken => hBroken) rfl rfl fun _ => rfl
  close {c} _ _ := by
    refine .inl (.inl ?_)
    rw [Http1.close]
    dsimp only
    split
    · exact notifyAll_userClose _ _
    · exact notifyAll_userClose _ _
  persistentSet b h :=
    (h.record (e := .persistentSet b) rfl).frame (fun hBroken => hBroken) rfl rfl fun _ => rfl
  headers {c c' id rest m} _ _ h hRun := by
    obtain ⟨bytes, encoder, -, rfl⟩ := notifyLocalHeaders_ok.mp hRun
    have hTaken : Fed (c.setLocal id { c.locals id with headers := none }) := h.set rfl
    have hSent : Fed ((c.takeHeaders id m).record (.sent m.data)) :=
      (hTaken.record (e := .sent m.data) rfl).frame (fun hBroken => hBroken) rfl rfl fun _ => rfl
    exact (hSent.serialise encoder id bytes).doWrite
  body {c c' id rest} _ h hRun := by
    obtain ⟨bytes, encoder, -, rfl⟩ := notifyLocalBody_ok.mp hRun
    have hTaken : Fed (c.setLocal id { c.locals id with content := [] }) := h.set rfl
    exact (hTaken.serialise encoder id bytes).doWrite
  trailer {c c' id rest key value} _ h hRun := by
    obtain ⟨bytes, encoder, -, rfl⟩ := notifyLocalTrailer_ok.mp hRun
    have hTaken : Fed (c.setLocal id { c.locals id with trailers := (c.locals id).trailers.tail }) := h.set rfl
    exact (hTaken.serialise encoder id bytes).doWrite
  finish {c c' id rest} _ _ h hRun := by
    obtain ⟨bytes, encoder, -, rfl⟩ := notifyLocalEnd_ok.mp hRun
    exact (h.serialise encoder id bytes).finish.doWrite
  interim {c c' id rest} _ _ h hRun := by
    obtain ⟨header, first, eom, encoder, -, -, rfl⟩ := notifyContinue_ok.mp hRun
    have hTaken : Fed (c.setLocal id { c.locals id with continueRequired := false }) := h.set rfl
    exact (hTaken.serialise encoder id (header ++ eom)).doWrite
  removed h hRun := h.removed hRun
  expired _ _ _ := .inl ((notifyAll_broken _ _).mpr (.inr (by simp [Http1.error])))
  cleared {c f rest} hPosted h := by
    refine h.told hPosted ?_ ?_ ?_ fun j => localCleared_owed _ f.id j
    · rw [Broken, Broken, localCleared_keeps Http1.userClose (fun _ _ _ => rfl) fun _ _ => rfl,
        localCleared_keeps Http1.errors (fun _ _ _ => rfl) fun _ _ => rfl]
      exact fun hBroken => hBroken
    · exact localCleared_keeps Http1.localObjects (fun _ _ _ => rfl) (fun _ _ => rfl) _ _
    · exact localCleared_keeps Http1.log (fun _ _ _ => rfl) (fun _ _ => rfl) _ _
  failed {c f rest} hPosted h := by
    refine h.told hPosted ?_ ?_ ?_ fun j => localError_owed _ .missingStreamElement f.id j
    · rw [Broken, Broken, localError_keeps Http1.userClose (fun _ _ _ => rfl) fun _ _ => rfl,
        localError_keeps Http1.errors (fun _ _ _ => rfl) fun _ _ => rfl]
      exact fun hBroken => hBroken
    · exact localError_localObjects _ _ _
    · exact localError_keeps Http1.log (fun _ _ _ => rfl) (fun _ _ => rfl) _ _ _
  remoteEnded hPosted h := by
    refine Fed.remote.setRemote _ _ (fun _ hShown => hShown) (h.reposted ?_)
    intro j
    rw [hPosted]
    rfl
  called hPosted h := by
    apply h.reposted
    intro j
    rw [hPosted]
    rfl
  decodingStart {c} _ h := by
    have hFlags := Fed.remote.flags false false h
    rw [Http1.decodingStart]
    dsimp only
    split
    · exact hFlags.opens
    · exact hFlags
  decodedHeaders garbage m h := Fed.remote.decodedHeaders garbage m h
  decodedBody bytes h := Fed.remote.decodedBody bytes h
  decodedTrailer key value h := Fed.remote.decodedTrailer key value h
  decodingEnd h := Fed.remote.decodingEnd h
  decodingFailure {c c'} hGuard h hRun := by
    have hCurrent := Fed.remote.getCurrent h
    rcases hEq : c.getCurrent with ⟨current, d⟩
    rw [hEq] at hCurrent
    have hNone : current = none := by simpa [OrderlyStep, hEq] using hGuard
    subst hNone
    rw [Http1.decodingFailure, hEq] at hRun
    cases hRun
    exact hCurrent
  written {c} r _ h := by
    apply h.frame _ (written_owed c r) (written_localObjects c r)
    · intro id
      rw [written_log]
    · rw [Broken, Broken, written_userClose, written_errors]
      exact fun hBroken => hBroken
  stop h := h.frame (fun hBroken => hBroken) rfl rfl fun _ => rfl
  lost {c} _ h := by
    rw [loseConnector, onConnectorNulled]
    split
    case isTrue hClosed => exact .inl (.inl hClosed)
    case isFalse =>
      refine .inl (.inr ?_)
      dsimp only
      rw [foldl_keeps Http1.errors fun (c : Http1) (f : Feedback) =>
        localError_keeps Http1.errors (fun _ _ _ => rfl) (fun _ _ => rfl) c .missingStreamElement f.id]
      simp [Http1.error]

/-- A callback that only opens transactions, sets the persistency and edits objects. -/
theorem Fed.callback {sent : Http1 → List UserOp} (h : Tamed sent) : CallbackKeeps Fed (fun _ => Fed) sent :=
  h.keeps (fun _ hFed => hFed.opens) (fun hEdit hFed => hFed.set hEdit.received)
    fun b hFed => (hFed.record (e := .persistentSet b) rfl).frame (fun hBroken => hBroken) rfl rfl fun _ => rfl

/-! ### The front of the queue -/

/-- The request at the front of the queue has not ended. -/
def FrontOpen (c : Http1) : Prop := ∀ id, c.localObjects.head? = some id → (c.locals id).ended = false

namespace FrontOpen

theorem frame (h : FrontOpen c) (hQueue : d.localObjects = c.localObjects)
    (hEnded : ∀ id, (d.locals id).ended = (c.locals id).ended) : FrontOpen d := by
  intro id hHead
  rw [hQueue] at hHead
  rw [hEnded]
  exact h id hHead

theorem of_nil (h : c.localObjects = []) : FrontOpen c := by
  intro id hHead
  rw [h] at hHead
  cases hHead

theorem set (h : FrontOpen c) {l : Local} (hEnded : l.ended = (c.locals id).ended) : FrontOpen (c.setLocal id l) := by
  apply h.frame (d := c.setLocal id l) rfl
  intro j
  by_cases hj : j = id
  · subst hj
    rw [setLocal_locals_self, hEnded]
  · rw [setLocal_locals_of_ne hj]

theorem localError (h : FrontOpen c) (hRole : c.role = .client) (e : ErrorCode) (id : Nat) :
    FrontOpen (c.localError e id) := by
  rw [Http1.localError]
  split
  · exact h.set (by simp [hRole])
  · exact h.set (by simp [hRole])

theorem localCleared (h : FrontOpen c) (hRole : c.role = .client) (id : Nat) : FrontOpen (c.localCleared id) := by
  rw [Http1.localCleared]
  split
  · exact h.set (by simp [hRole])
  · exact h.set (by simp [hRole])

/-- The first request of an empty queue is a new one. -/
theorem opens (h : FrontOpen c) (hOrder : Orderly none c) : FrontOpen c.getUserHandlers := by
  rw [getUserHandlers]
  split
  · exact h
  · intro id hHead
    have hHead : (c.localObjects ++ [c.opened]).head? = some id := hHead
    show (c.locals id).ended = false
    cases hLocals : c.localObjects with
    | nil =>
        rw [hLocals] at hHead
        cases hHead
        exact (hOrder.fresh _ (Nat.le_refl _)).2.2
    | cons first rest =>
        rw [hLocals] at hHead
        exact h id (by rw [hLocals]; exact hHead)

theorem remote : RemoteStable FrontOpen where
  setRemote _ _ _ h := h
  shows _ _ _ h := h
  postEnd _ h := h
  error _ h := h
  flags _ _ h := h
  received _ _ h := h
  remoteTail h := h

end FrontOpen

variable {sent : Http1 → List UserOp} {fuel : Nat}

/-- A call of `notify_local_content` takes every request off the queue that has ended, up to the
first one that has not. -/
theorem Orderly.frontOpen (h : Orderly none c)
    (hSent : CallbackKeeps (Orderly none) (fun id => Orderly (some id)) sent)
    (hRun : notifyLocalContent sent fuel c = .ok c') : c'.FrontOpen := by
  induction fuel generalizing c with
  | zero => cases hRun
  | succ fuel ih =>
      rw [Http1.notifyLocalContent] at hRun
      split at hRun
      case h_1 hNil =>
        cases hRun
        exact .of_nil hNil
      case h_2 id rest hFront =>
        split at hRun
        case isFalse hDead => exact ih (Orderly.kept.expired hFront (by simpa using hDead) h) hRun
        case isTrue =>
          obtain ⟨⟨d, finished⟩, hPoll, hRun⟩ := bind_eq_ok.mp hRun
          dsimp only at hRun
          obtain ⟨hFinished, hTouches, hLocal⟩ := pollLoop_drains (h.noContinue id) hPoll
          have hQueue := hTouches.localObjects.trans hFront
          cases finished with
          | false =>
              -- the loop breaks at a request that has not ended
              cases hRun
              intro j hHead
              rw [hQueue, List.head?_cons] at hHead
              cases hHead
              rw [hLocal]
              exact hFinished.symm
          | true =>
              have hd : Orderly (some id) d := (Orderly.kept.pollLoop hFront h hPoll).2.2 rfl
              rw [if_pos rfl, if_pos hd.client] at hRun
              obtain ⟨e, hCallback, hRun⟩ := bind_eq_ok.mp hRun
              obtain ⟨f, hPop, hRest⟩ := bind_eq_ok.mp hRun
              have he := hSent sent fuel id d e hd.client
                (fun hc => Orderly.kept.notifyLocalContent hSent hc) hd hCallback
              exact ih (he.removed hPop) hRest

/-- A call of the application leaves no request at the front that has ended. -/
theorem FrontOpen.userOp (hFront : FrontOpen c) (h : Orderly none c)
    (hSent : CallbackKeeps (Orderly none) (fun id => Orderly (some id)) sent) {op : UserOp}
    (hGuard : OrderlyStep c (.user op)) (hRun : Http1.userOp (notifyLocalContent sent fuel) c op = .ok c') :
    c'.FrontOpen := by
  have hContent : ∀ id l, (if c.usable id then notifyLocalContent sent fuel (c.setLocal id l) else .ok c) = .ok c' →
      Edited (c.locals id) l → FrontOpen c' := by
    intro id l hRun hEdit
    split at hRun
    · exact (h.edit hEdit).frontOpen hSent hRun
    · cases hRun
      exact hFront
  have hMark : ∀ id l, Except.ok (ε := Fault) (if c.usable id then c.setLocal id l else c) = .ok c' →
      l.ended = (c.locals id).ended → FrontOpen c' := by
    intro id l hRun hEnded
    cases hRun
    split
    · exact hFront.set hEnded
    · exact hFront
  cases op with
  | create =>
      cases hRun
      split
      · exact hFront.opens h
      · exact hFront
  | headers id m => exact hContent id _ hRun ⟨rfl, fun held => held, rfl, fun _ => rfl, rfl⟩
  | body id bytes => exact hContent id _ hRun ⟨rfl, fun held => held, rfl, fun some => some, rfl⟩
  | trailer id key value =>
      exact hContent id _ hRun ⟨rfl, fun held => held, rfl, fun some => some, rfl⟩
  | finish id =>
      simp only [Http1.userOp] at hRun
      split at hRun
      · cases hRun
        exact hFront
      case isFalse hUsable =>
        have hUsable : c.usable id = true := by simpa using hUsable
        rw [if_neg h.not_server] at hRun
        obtain ⟨d, hStep, hRest⟩ := bind_eq_ok.mp hRun
        cases hRest
        exact ((Orderly.kept.ends hGuard hUsable h.client h).frontOpen hSent hStep).set rfl
  | sendContinue id =>
      simp only [Http1.userOp] at hRun
      rw [if_neg (by simp [h.client])] at hRun
      cases hRun
      exact hFront
  | onError id => exact hMark id _ hRun rfl
  | onWrite id => exact hMark id _ hRun rfl
  | drop id => exact hMark id _ hRun rfl
  | close =>
      cases hRun
      apply FrontOpen.of_nil
      rw [Http1.close]
      dsimp only
      split
      · rfl
      · rfl
  | setPersistent b =>
      cases hRun
      exact hFront.frame rfl fun _ => rfl

/-- So does every step. -/
theorem FrontOpen.step (hFront : FrontOpen c) (h : Orderly none c)
    (hSent : CallbackKeeps (Orderly none) (fun id => Orderly (some id)) sent) {op : Op}
    (hGuard : OrderlyStep c op) (hRun : c.step sent fuel op = .ok c') : c'.FrontOpen := by
  cases op with
  | user op => exact hFront.userOp h hSent hGuard hRun
  | posted =>
      rw [Http1.step] at hRun
      unfold Http1.runPosted at hRun
      split at hRun
      case h_1 =>
        cases hRun
        exact hFront
      case h_2 hPosted =>
        have hEnds := h.noEnd _ (by rw [hPosted]; exact List.mem_cons_self)
        cases hEnds
      case h_3 success rest hPosted =>
        have hTaken : FrontOpen { c with posted := rest } := hFront
        cases hRun
        split
        · exact hTaken.localCleared h.client _
        · exact hTaken.localError h.client _ _
      case h_4 =>
        cases hRun
        exact hFront
      case h_5 =>
        cases hRun
        exact hFront
  | decodingStart =>
      cases hRun
      rw [Http1.decodingStart, if_neg h.not_server]
      exact hFront
  | decodedHeaders m =>
      cases hRun
      exact FrontOpen.remote.decodedHeaders 0 m hFront
  | decodedBody bytes =>
      cases hRun
      exact FrontOpen.remote.decodedBody bytes hFront
  | decodedTrailer key value =>
      cases hRun
      exact FrontOpen.remote.decodedTrailer key value hFront
  | decodingEnd =>
      cases hRun
      exact FrontOpen.remote.decodingEnd hFront
  | decodingFailure =>
      have hCurrent := FrontOpen.remote.getCurrent hFront
      rcases hEq : c.getCurrent with ⟨current, d⟩
      rw [hEq] at hCurrent
      have hNone : current = none := by simpa [OrderlyStep, hEq] using hGuard
      subst hNone
      rw [Http1.step, Http1.decodingFailure, hEq] at hRun
      cases hRun
      exact hCurrent
  | written r =>
      cases hRun
      apply hFront.frame (written_localObjects c r)
      intro id
      rw [written_locals]
  | readFailed =>
      cases hRun
      exact hFront
  | connectorLost =>
      cases hRun
      split
      · rw [loseConnector, onConnectorNulled]
        split
        · exact hFront
        · apply FrontOpen.of_nil
          dsimp only
          rw [foldl_keeps Http1.localObjects fun (c : Http1) (f : Feedback) => localError_localObjects c _ f.id]
          rfl
      · exact hFront

/-- So does a run. -/
theorem FrontOpen.run {ops : List Op} (hFront : FrontOpen c) (h : Orderly none c)
    (hSent : CallbackKeeps (Orderly none) (fun id => Orderly (some id)) sent)
    (hSteps : Guarded OrderlyStep sent fuel c ops) (hRun : c.run sent fuel ops = .ok c') : c'.FrontOpen := by
  induction ops generalizing c with
  | nil =>
      cases hRun
      exact hFront
  | cons op ops ih =>
      obtain ⟨d, hStep, hRest⟩ := run_cons.mp hRun
      exact ih (hFront.step h hSent hSteps.1 hStep) (Orderly.kept.step hSent hSteps.1 h hStep) (hSteps.2 d hStep) hRest

/-! ### Runs -/

/-- Every request is ended at most once, and removed as often as it has been ended, after
its end; one that waits has not been ended, and the one at the front has not ended; one that is
gone has been ended, unless the connection has been closed or has failed, and so long there is one
feedback for every end. -/
structure EndedOnce (c : Http1) : Prop where
  ended : ∀ id, c.log.count (.ended id) ≤ 1
  removed : ∀ id, c.log.count (.removed id) = c.log.count (.ended id)
  ordered : ∀ id before after, c.log = before ++ .removed id :: after → .ended id ∈ before
  waiting : ∀ id ∈ c.localObjects, c.log.count (.ended id) = 0
  front : c.FrontOpen
  gone : ∀ id < c.opened, id ∉ c.localObjects → c.log.count (.ended id) = 1 ∨ c.Broken
  fed : c.Broken ∨ ∀ id, c.feedbacks id = c.log.count (.ended id)

/-- The queue of a client, in any run: as long as the callback `on_request_sent` only opens
transactions, sets the persistency and edits callbacks and references, no request that has ended
without headers comes to the front of the queue, and no decoding failure strikes a response that is
being decoded, every request is ended and removed once, the end of no message is encoded twice, and
nothing is removed from an empty queue. -/
theorem client_queue_ends_once (sent : Http1 → List UserOp) (fuel : Nat) (ops : List Op)
    (hTamed : Tamed sent) (hSteps : Guarded OrderlyStep sent fuel { role := .client } ops) :
    (∀ e, run sent fuel { role := .client } ops = .error e → ¬ QueueFault e) ∧
      ∀ c, run sent fuel { role := .client } ops = .ok c → EndedOnce c := by
  have hKeeps : CallbackKeeps (Orderly none) (fun id => Orderly (some id)) sent :=
    hTamed.keeps (fun _ h => h.opens) (fun hEdit h => h.edit hEdit)
      fun b h => { h.record (e := .persistentSet b) rfl nofun with }
  constructor
  · intro e hRun
    exact Orderly.blamed.run Orderly.kept hKeeps hTamed.blamed Orderly.start hSteps hRun
  · intro c hRun
    have h : Orderly none c := Orderly.kept.run hKeeps Orderly.start hSteps hRun
    have hFed : Fed c := Fed.kept.run (Fed.callback hTamed) (.inr fun _ => rfl) hSteps hRun
    constructor
    · exact h.once
    · intro id
      rw [h.counted id, if_neg nofun, Nat.add_zero]
    · exact h.ordered
    · exact fun id hId => h.waiting id hId nofun
    · exact (FrontOpen.of_nil rfl).run Orderly.start hKeeps hSteps hRun
    · exact h.gone
    · refine hFed.imp_right fun hOwed id => ?_
      have hSum := hOwed id
      rw [owed_eq_feedbacks] at hSum
      omega

/-- A request with its headers and its end. -/
def requestOps : List Op :=
  let request := Message.request
    { HttpRequest.fresh with toStructuredData := StructuredData.fresh.setProtocol .HTTP11 }
  [.user .create, .user (.headers 0 request), .user (.finish 0)]

/-- A callback that opens the next transaction. -/
theorem client_queue_ends_once_opening :
    (∀ e, run (fun _ => [.create]) 9 { role := .client } requestOps = .error e → ¬ QueueFault e) ∧
      ∀ c, run (fun _ => [.create]) 9 { role := .client } requestOps = .ok c → EndedOnce c := by
  apply client_queue_ends_once
  · intro c op hOp
    rw [List.mem_singleton.mp hOp]
    rfl
  · refine .cons rfl trivial (.cons rfl trivial (.cons rfl ?_ trivial))
    exact fun _ _ => ⟨.inr ⟨_, List.mem_cons_of_mem _ List.mem_cons_self⟩, trivial⟩

/-- A callback that opens the next transaction and sends its headers. -/
def eagerCallback (c : Http1) : List UserOp :=
  let request := Message.request
    { HttpRequest.fresh with toStructuredData := StructuredData.fresh.setProtocol .HTTP11 }
  [.create, .headers c.opened request]

/-- The headers of the second request make the loop poll the first one again, which is
still at the front of the queue: the end of its message is encoded twice. -/
theorem client_queue_ends_twice :
    run eagerCallback 9 { role := .client } requestOps = .error (.encoder .eom) := by
  rfl

end Http1

end Doormat.Protocol
