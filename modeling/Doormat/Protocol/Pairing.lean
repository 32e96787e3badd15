import Mathlib.Data.List.GetD
import Doormat.Protocol.Contract

/-! The responses of a client connection and its transactions. A response has nothing that names its
transaction: it belongs to the first one whose final response has not ended, and the front of
`remote_objects` should be that one. -/
namespace Doormat.Protocol

open Bytes Doormat.Http

/-! ### The responses to a transaction -/

/-- The message is a `100 Continue`. -/
def isInterim (es : List Event) : Bool := es.any fun
  | .headersDone p _ => p.statusCode = 100
  | _ => false

/-- How many final responses have ended. -/
def finals (ms : List (List Event)) : Nat := ms.countP fun es => !isInterim es && isOver es

/-- With `n` transactions, every response that has been announced belongs to one of them. -/
def Asked (n : Nat) (ms : List (List Event)) : Prop :=
  ∀ i (_ : i < ms.length), isAnnounced ms[i] = true → finals (ms.take i) < n

instance (n : Nat) (ms : List (List Event)) : Decidable (Asked n ms) :=
  inferInstanceAs (Decidable (∀ i (_ : i < ms.length), isAnnounced ms[i] = true → finals (ms.take i) < n))

/-- The connection has been closed by the application, or an error has struck all its transactions. -/
def Http1.Cut (c : Http1) : Prop := c.userClose = true ∨ ∃ e ∈ c.errors, e.cuts = true

instance (c : Http1) : Decidable c.Cut :=
  inferInstanceAs (Decidable (c.userClose = true ∨ ∃ e ∈ c.errors, e.cuts = true))

/-- The server answers what it has been asked: when a step announces a response, the transaction of that
response has been opened before the step. -/
def Connection.Answered (app : Application) (fuel garbage : Nat) : Connection → List Input → Prop
  | _, [] => True
  | c, inp :: ins => ∀ d, c.step app fuel garbage inp = .ok d →
      (∀ h, c.handler = .ok h → Asked h.opened (messagesOf d.codec.impl.trace)) ∧ d.Answered app fuel garbage ins

instance Connection.decidableAnswered (app : Application) (fuel garbage : Nat) :
    (ins : List Input) → (c : Connection) → Decidable (c.Answered app fuel garbage ins)
  | [], _ => .isTrue trivial
  | inp :: ins, c =>
      match hStep : c.step app fuel garbage inp with
      | .error _ => .isTrue fun d hRun => by
          rw [hStep] at hRun
          cases hRun
      | .ok d =>
          have : Decidable (d.Answered app fuel garbage ins) := decidableAnswered app fuel garbage ins d
          match hHandler : c.handler with
          | .error _ => decidable_of_iff (d.Answered app fuel garbage ins) (by simp [Answered, hStep, hHandler])
          | .ok h =>
              decidable_of_iff (Asked h.opened (messagesOf d.codec.impl.trace) ∧ d.Answered app fuel garbage ins)
                (by simp [Answered, hStep, hHandler])

/-! ### Messages that are final responses -/

/-- No response is an interim one. -/
def AllFinal (ms : List (List Event)) : Prop := ∀ es ∈ ms, isInterim es = false

variable {ms past : List (List Event)} {now : List Event} {ev : Event} {n : Nat}

theorem finals_over (h : AllFinal ms) (hOver : ∀ es ∈ ms, isOver es = true) : finals ms = ms.length := by
  rw [finals, List.countP_eq_length]
  intro es hEs
  rw [h es hEs, hOver es hEs]
  rfl

theorem finals_open (past : List (List Event)) (h : isOver now = false) : finals (past ++ [now]) = finals past := by
  rw [finals, List.countP_append, List.countP_singleton, h, Bool.and_false]
  rfl

theorem finals_le (ms : List (List Event)) : finals ms ≤ ms.length := List.countP_le_length

/-- The final responses before the one at hand. -/
theorem finals_atHand (h : AtHand ms past now) (hFinal : AllFinal ms) :
    finals ms = past.length ∧ finals past = past.length := by
  obtain ⟨rfl, hOver, hOpen⟩ := h
  have hPast := finals_over (fun es hEs => hFinal es (List.mem_append_left _ hEs)) hOver
  exact ⟨(finals_open past hOpen).trans hPast, hPast⟩

theorem Asked.begin (h : Asked n (ms ++ [[]])) : Asked n ms := by
  intro i hi hAnnounced
  have hMore := h i (by simp; omega)
  rw [List.getElem_append_left hi, List.take_append_of_le_length hi.le] at hMore
  exact hMore hAnnounced

/-- One event less. -/
theorem Asked.front (h : Asked n (past ++ [now ++ [ev]])) : Asked n (past ++ [now]) := by
  intro i hi hAnnounced
  have hi' : i < (past ++ [now ++ [ev]]).length := by simpa using hi
  have hMore := h i hi'
  have hLe : i ≤ past.length := by simpa [Nat.lt_succ_iff] using hi
  rw [List.take_append_of_le_length hLe] at hMore ⊢
  apply hMore
  rcases hLe.lt_or_eq with hBelow | rfl
  · rw [List.getElem_append_left hBelow] at hAnnounced ⊢
    exact hAnnounced
  · rw [List.getElem_concat_length rfl] at hAnnounced ⊢
    rw [isAnnounced_append, hAnnounced, Bool.true_or]

/-- The response at hand has been announced. -/
theorem Asked.last (h : Asked n (past ++ [now])) (hAnnounced : isAnnounced now = true) : finals past < n := by
  have hLast := h past.length (by simp)
  rw [List.getElem_concat_length rfl, List.take_left] at hLast
  exact hLast hAnnounced

/-! ### The remote side of a client -/

/-- The transactions of a client and its responses, all of them final; `n` transactions have been opened
before the read at hand. -/
structure Pairing (n : Nat) (ms : List (List Event)) (s : RemoteSide) : Prop where
  role : s.role = .client
  opened : n ≤ s.opened
  ended : finals ms ≤ s.opened
  waiting : s.remoteObjects = List.range' (finals ms) (s.opened - finals ms)
  told : ∀ id, List.Forall₂ Conveys (toldOf (ms.getD id [])) (s.remotes id).received
  terminated : ∀ id, finals ms ≤ id → (s.remotes id).terminated = false
  ending : ∀ id, finals ms ≤ id → .remoteEnded id ∉ s.ending
  answered : ∀ past now, AtHand ms past now → isAnnounced now = true → finals ms < s.opened
  decodingError : s.decodingError = false
  managingContinue : s.managingContinue = false

theorem getD_concat (past : List (List Event)) (now : List Event) (id : Nat) :
    (past ++ [now]).getD id [] = if id = past.length then now else past.getD id [] := by
  rcases Nat.lt_trichotomy id past.length with hBelow | rfl | hAbove
  · rw [List.getD_append _ _ _ _ hBelow, if_neg hBelow.ne]
  · rw [if_pos rfl, List.getD_append_right _ _ _ _ le_rfl, Nat.sub_self]
    rfl
  · rw [if_neg hAbove.ne', List.getD_eq_default _ _ (by simp; omega), List.getD_eq_default _ _ hAbove.le]

theorem AtHand.unique {past' : List (List Event)} {now' : List Event} (h : AtHand (past ++ [now]) past' now') :
    past' = past ∧ now' = now := by
  obtain ⟨hPast, hNow⟩ := List.append_inj' h.messages rfl
  exact ⟨hPast.symm, (List.cons.inj hNow).1.symm⟩

namespace Pairing

variable {s : RemoteSide}

/-- The first transaction whose final response has not ended is at the front. -/
theorem front (h : Pairing n ms s) (hMore : finals ms < s.opened) :
    s.remoteObjects = finals ms :: List.range' (finals ms + 1) (s.opened - (finals ms + 1)) := by
  have hSize : s.opened - finals ms = s.opened - (finals ms + 1) + 1 := by omega
  rw [h.waiting, hSize, List.range'_succ]

/-- A response begins. -/
theorem begin (h : Pairing n ms s) : Pairing n (ms ++ [[]]) s := by
  have hFinals : finals (ms ++ [[]]) = finals ms := finals_open ms rfl
  constructor
  · exact h.role
  · exact h.opened
  · rw [hFinals]
    exact h.ended
  · rw [hFinals]
    exact h.waiting
  · intro id
    rw [getD_concat]
    split
    case isTrue hLast =>
      have hNone := h.told id
      rwa [List.getD_eq_default _ _ hLast.ge] at hNone
    case isFalse => exact h.told id
  · rw [hFinals]
    exact h.terminated
  · rw [hFinals]
    exact h.ending
  · intro past now hHand hAnnounced
    rw [(AtHand.unique hHand).2] at hAnnounced
    cases hAnnounced
  · exact h.decodingError
  · exact h.managingContinue

/-- A single header line is not told. -/
theorem line (h : Pairing n (past ++ [now]) s) (hOpen : isOver now = false) (hNew : isAnnounced now = false)
    (key value : ByteString) : Pairing n (past ++ [now ++ [.header key value]]) s := by
  have hFinals : finals (past ++ [now ++ [.header key value]]) = finals (past ++ [now]) := by
    rw [finals_open past hOpen, finals_open past (by rw [isOver_append, hOpen]; rfl)]
  constructor
  · exact h.role
  · exact h.opened
  · rw [hFinals]
    exact h.ended
  · rw [hFinals]
    exact h.waiting
  · intro id
    have hTold := h.told id
    rw [getD_concat] at hTold ⊢
    split at hTold
    case isTrue hLast =>
      rw [if_pos hLast, toldOf_open hOpen]
      exact (List.append_nil _).symm ▸ hTold
    case isFalse hOther => rwa [if_neg hOther]
  · rw [hFinals]
    exact h.terminated
  · rw [hFinals]
    exact h.ending
  · intro past' now' hHand hAnnounced
    rw [(AtHand.unique hHand).2, isAnnounced_append, hNew] at hAnnounced
    cases hAnnounced
  · exact h.decodingError
  · exact h.managingContinue

/-- What the transactions have been told after one more event. -/
theorem told_update {re : RemoteEvent} (h : Pairing n (past ++ [now]) s) (hOpen : isOver now = false)
    (hTold : toldOf [ev] = [ev]) (hConveys : Conveys ev re) (terminated : Bool) (id : Nat) :
    List.Forall₂ Conveys (toldOf ((past ++ [now ++ [ev]]).getD id []))
      (Function.update s.remotes past.length
        { terminated, received := (s.remotes past.length).received ++ [re] } id).received := by
  have hOld := h.told id
  rw [getD_concat] at hOld ⊢
  split at hOld
  case isTrue hLast =>
    subst hLast
    rw [if_pos rfl, Function.update_self, toldOf_open hOpen, hTold]
    exact List.rel_append hOld (.cons hConveys .nil)
  case isFalse hOther =>
    rw [if_neg hOther, Function.update_of_ne hOther]
    exact hOld

/-- The current transaction is told one more event. -/
theorem tell {re : RemoteEvent} (h : Pairing n (past ++ [now]) s) (hHand : AtHand (past ++ [now]) past now)
    (hCount : finals (past ++ [now]) = past.length) (hMore : past.length < s.opened) (hTold : toldOf [ev] = [ev])
    (hEnds : ev.ends = false) (hConveys : Conveys ev re) :
    Pairing n (past ++ [now ++ [ev]]) (s.tell past.length re) := by
  have hFinals : finals (past ++ [now ++ [ev]]) = past.length := by
    rw [← hCount, finals_open past hHand.open_, finals_open past (by rw [isOver_append, hHand.open_, hEnds]; rfl)]
  constructor
  · exact h.role
  · exact h.opened
  · rw [hFinals]
    exact hMore.le
  · rw [hFinals, ← hCount]
    exact h.waiting
  · exact h.told_update hHand.open_ hTold hConveys _
  · intro id hId
    rw [hFinals, ← hCount] at hId
    rw [RemoteSide.tell]
    dsimp only
    by_cases hSame : id = past.length
    · rw [hSame, Function.update_self]
      exact h.terminated _ hCount.le
    · rw [Function.update_of_ne hSame]
      exact h.terminated id hId
  · rw [hFinals, ← hCount]
    exact h.ending
  · intro _ _ _ _
    rw [hFinals]
    exact hMore
  · exact h.decodingError
  · exact h.managingContinue

/-- The final response ends, and the next transaction is the current one. -/
theorem finish (h : Pairing n (past ++ [now]) s) (hHand : AtHand (past ++ [now]) past now)
    (hFinal : AllFinal (past ++ [now])) (hMore : past.length < s.opened) :
    Pairing n (past ++ [now ++ [.completion]])
      { s.tell past.length .finished with
        remoteObjects := s.remoteObjects.tail
        ending := s.ending ++ [.remoteEnded past.length] } := by
  have hCount := (finals_atHand hHand hFinal).1
  have hOver : ∀ es ∈ past ++ [now ++ [.completion]], isOver es = true := by
    intro es hEs
    rcases List.mem_append.mp hEs with hOld | hNew
    · exact hHand.pastOver es hOld
    · rw [List.mem_singleton.mp hNew, isOver_append]
      exact Bool.or_true _
  have hAll : AllFinal (past ++ [now ++ [.completion]]) := by
    intro es hEs
    rcases List.mem_append.mp hEs with hOld | hNew
    · exact hFinal es (List.mem_append_left _ hOld)
    · have hNow := hFinal now (List.mem_append_right _ (List.mem_singleton.mpr rfl))
      rw [List.mem_singleton.mp hNew]
      simpa [isInterim] using hNow
  have hFinals : finals (past ++ [now ++ [.completion]]) = past.length + 1 := by
    rw [finals_over hAll hOver, List.length_append]
    rfl
  constructor
  · exact h.role
  · exact h.opened
  · rw [hFinals]
    exact hMore
  · rw [hFinals]
    show s.remoteObjects.tail = _
    rw [h.front (hCount ▸ hMore), hCount]
    rfl
  · exact h.told_update hHand.open_ rfl .completion _
  · intro id hId
    rw [hFinals] at hId
    show (Function.update s.remotes past.length _ id).terminated = false
    rw [Function.update_of_ne (by omega)]
    exact h.terminated id (by omega)
  · intro id hId hMem
    rw [hFinals] at hId
    rcases List.mem_append.mp hMem with hOld | hNew
    · exact h.ending id (by omega) hOld
    · cases List.mem_singleton.mp hNew
      omega
  · intro past' now' hHand' _
    have hLast := hOver now' (by rw [hHand'.messages]; exact List.mem_append_right _ (List.mem_singleton.mpr rfl))
    rw [hHand'.open_] at hLast
    cases hLast
  · exact h.decodingError
  · exact h.managingContinue

/-- A new transaction waits behind the others. -/
theorem opens (h : Pairing n ms s) :
    Pairing n ms { s with opened := s.opened + 1, remoteObjects := s.remoteObjects ++ [s.opened] } := by
  have hEnded := h.ended
  constructor
  · exact h.role
  · exact h.opened.trans (Nat.le_succ _)
  · exact hEnded.trans (Nat.le_succ _)
  · have hSize : s.opened + 1 - finals ms = s.opened - finals ms + 1 := by omega
    have hLast : s.opened = finals ms + (s.opened - finals ms) := by omega
    show s.remoteObjects ++ [s.opened] = List.range' (finals ms) (s.opened + 1 - finals ms)
    rw [hSize, List.range'_concat, h.waiting, Nat.one_mul, ← hLast]
  · exact h.told
  · exact h.terminated
  · exact h.ending
  · exact fun past now hHand hAnnounced => (h.answered past now hHand hAnnounced).trans (Nat.lt_succ_self _)
  · exact h.decodingError
  · exact h.managingContinue

/-- The event that ends a remote object has run. -/
theorem ran {id : Nat} {rest : List Posted} (h : Pairing n ms s) (hEnding : s.ending = .remoteEnded id :: rest) :
    Pairing n ms { s with
      ending := rest
      remotes := Function.update s.remotes id { s.remotes id with terminated := true } } := by
  have hPast : id < finals ms := by
    by_contra hLate
    exact h.ending id (Nat.le_of_not_lt hLate) (hEnding ▸ List.mem_cons_self)
  constructor
  · exact h.role
  · exact h.opened
  · exact h.ended
  · exact h.waiting
  · intro j
    dsimp only
    by_cases hj : j = id
    · subst hj
      rw [Function.update_self]
      exact h.told j
    · rw [Function.update_of_ne hj]
      exact h.told j
  · intro j hId
    dsimp only
    rw [Function.update_of_ne (by omega)]
    exact h.terminated j hId
  · exact fun j hId hMem => h.ending j hId (hEnding ▸ List.mem_cons_of_mem _ hMem)
  · exact h.answered
  · exact h.decodingError
  · exact h.managingContinue

end Pairing

namespace Http1

variable {c d : Http1} {id : Nat} {re : RemoteEvent}

theorem Cut.error (h : c.Cut) (e : ErrorCode) : (c.error e).Cut :=
  h.imp_right fun ⟨e', hMem, hCuts⟩ => ⟨e', List.mem_append_left _ hMem, hCuts⟩

theorem cut_error (c : Http1) {e : ErrorCode} (hCuts : e.cuts = true) : (c.error e).Cut :=
  .inr ⟨e, List.mem_append_right _ (List.mem_singleton.mpr rfl), hCuts⟩

/-- A connection that is cut stays so. -/
theorem Cut.stable : Stable Cut fun _ _ => True where
  error e h := h.error e
  userClose h := .inl rfl
  doWrite h := by
    rw [Cut] at h ⊢
    rwa [doWrite_userClose, doWrite_errors]
  written r _ h := by
    rw [Cut] at h ⊢
    rwa [written_userClose, written_errors]

theorem cut_notifyAll (c : Http1) (e : ErrorCode) : (c.notifyAll e).Cut ↔ c.Cut := by
  rw [Cut, Cut, notifyAll_userClose, notifyAll_errors]

theorem close_cut (c : Http1) : c.close.Cut := by
  rw [close]
  split
  · exact .inl (notifyAll_userClose _ _)
  · exact .inl (notifyAll_userClose _ _)

theorem loseConnector_cut (c : Http1) : c.loseConnector.Cut := by
  rw [loseConnector, onConnectorNulled]
  split
  case isTrue hClosed => exact .inl hClosed
  case isFalse =>
    refine .inr ⟨.closedByClient, ?_, rfl⟩
    dsimp only
    rw [foldl_keeps Http1.errors fun (c : Http1) (f : Feedback) =>
      localError_keeps Http1.errors (fun _ _ _ => rfl) (fun _ _ => rfl) c .missingStreamElement f.id]
    simp [Http1.error]

theorem getCurrent_front (h : Pairing n ms c.remoteSide) (hMore : finals ms < c.opened) :
    c.getCurrent = (some (finals ms), c) := by
  have hError : c.decodingError = false := h.decodingError
  have hFront : c.remoteObjects = finals ms :: _ := h.front hMore
  have hOpen : (c.remotes (finals ms)).terminated = false := h.terminated _ le_rfl
  rw [getCurrent, hError, hFront]
  simp [hOpen]

/-- A response is terminated when the posted event has run. -/
theorem remoteSide_remoteEnd (hRole : c.role = .client) (hOpen : (c.remotes id).terminated = false) (re : RemoteEvent) :
    (c.remoteEnd id re).remoteSide =
      { c.remoteSide.tell id re with ending := c.remoteSide.ending ++ [.remoteEnded id] } := by
  rw [remoteEnd, hOpen, if_neg Bool.false_ne_true]
  dsimp only
  rw [if_neg (by simp [setRemote, hRole])]
  simp [remoteSide, RemoteSide.tell, post, setRemote, hRole, hOpen, Posted.endsRemote, List.filter_cons]

end Http1

/-- The connection is cut, or its transactions and responses pair up. -/
def Matches (n : Nat) (ms : List (List Event)) (c : Http1) : Prop := c.Cut ∨ Pairing n ms c.remoteSide

namespace Matches

variable {c d : Http1}

/-- A step that concerns neither the remote side nor what cuts a connection. -/
theorem frame (h : Matches n ms c) (hCut : c.Cut → d.Cut) (hSide : d.remoteSide = c.remoteSide) : Matches n ms d :=
  h.imp hCut fun hPairing => hSide ▸ hPairing

/-- What the application does, and what the closures do. -/
theorem locallyKept (n : Nat) (ms : List (List Event)) : LocallyKept (Matches n ms) (fun _ => Matches n ms) fun _ _ => True :=
  have hCut : LocallyKept Http1.Cut (fun _ => Http1.Cut) fun _ _ => True := Http1.Cut.stable.toSteady.locallyKept _
  { edit := fun hEdit h => h.frame (fun hc => hCut.edit hEdit hc) rfl
    create := by
      intro c hGuard hRole h
      refine h.imp (fun hc => hCut.create hGuard hRole hc) fun hPairing => ?_
      rw [Http1.getUserHandlers]
      split
      · exact hPairing
      · exact hPairing.opens
    ends := fun _ _ _ h => h.frame (fun hc => hc) rfl
    continues := fun _ h => h.frame (fun hc => hc) rfl
    postEnd := by
      intro c id hUsable hRole h
      refine h.frame (fun hc => hCut.postEnd hUsable hRole hc) (Http1.remoteSide_post _ ?_)
      intro p hp
      cases List.mem_singleton.mp hp
      rfl
    runEnd := fun hPosted h => h.frame (fun hc => hCut.runEnd hPosted hc) (Http1.remoteSide_taken hPosted rfl)
    ran := fun h => h.frame (fun hc => hc) rfl
    close := fun _ _ => .inl (Http1.close_cut _)
    persistentSet := fun _ h => h.frame (fun hc => hc) rfl
    headers := by
      intro c c' id rest m hFront hHeaders h hRun
      exact h.frame (fun hc => hCut.headers hFront hHeaders hc hRun) (Http1.remoteSide_notifyLocalHeaders hRun)
    body := by
      intro c c' id rest hFront h hRun
      exact h.frame (fun hc => hCut.body hFront hc hRun) (Http1.remoteSide_notifyLocalBody hRun)
    trailer := by
      intro c c' id rest key value hFront h hRun
      exact h.frame (fun hc => hCut.trailer hFront hc hRun) (Http1.remoteSide_notifyLocalTrailer hRun)
    finish := by
      intro c c' id rest hFront hState h hRun
      exact h.frame (fun hc => hCut.finish hFront hState hc hRun) (Http1.remoteSide_notifyLocalEnd hRun)
    interim := by
      intro c c' id rest hFront hContinue h hRun
      refine h.frame (fun hc => hCut.interim hFront hContinue hc hRun) ?_
      rw [Http1.remoteSide_notifyContinue hRun, Http1.remoteSide_setLocal]
    removed := by
      intro c c' id h hRun
      exact h.frame (fun hc => Http1.Cut.stable.popFront hc hRun) (Http1.remoteSide_popFront hRun)
    expired := fun _ _ _ => .inl ((Http1.cut_notifyAll _ _).mpr (Http1.cut_error _ rfl))
    cleared := fun hPosted h => h.frame (fun hc => hCut.cleared hPosted hc)
      ((Http1.remoteSide_localCleared _ _).trans (Http1.remoteSide_taken hPosted rfl))
    failed := fun hPosted h => h.frame (fun hc => hCut.failed hPosted hc)
      ((Http1.remoteSide_localError _ _ _).trans (Http1.remoteSide_taken hPosted rfl))
    remoteEnded := by
      intro c id rest hPosted h
      refine h.imp (fun hc => hCut.remoteEnded hPosted hc) fun hPairing => ?_
      have hEnding : c.remoteSide.ending = .remoteEnded id :: rest.filter Posted.endsRemote := by
        show c.posted.filter Posted.endsRemote = _
        rw [hPosted]
        rfl
      exact hPairing.ran hEnding
    called := fun hPosted h => h.frame (fun hc => hCut.called hPosted hc) (Http1.remoteSide_taken hPosted rfl) }

end Matches

/-! ### Callbacks of the decoder -/

namespace Matches

variable {c d : Http1}

theorem decodingStart (h : Matches n ms c) : Matches n (ms ++ [[]]) c.decodingStart := by
  refine h.imp (fun hc => Http1.Cut.stable.decodingStart hc) fun hPairing => ?_
  have hRole : c.role = .client := hPairing.role
  have hError : c.decodingError = false := hPairing.decodingError
  have hContinue : c.managingContinue = false := hPairing.managingContinue
  have hSame : c.decodingStart.remoteSide = c.remoteSide := by
    rw [Http1.decodingStart]
    simp [hRole, Http1.remoteSide, hError, hContinue]
  rw [hSame]
  exact hPairing.begin

theorem line (h : Matches n (past ++ [now]) c) (hOpen : isOver now = false) (hNew : isAnnounced now = false)
    (key value : ByteString) : Matches n (past ++ [now ++ [.header key value]]) c :=
  h.imp_right fun hPairing => hPairing.line hOpen hNew key value

/-- The headers of a final response go to the current transaction. -/
theorem decodedHeaders (h : Matches n (past ++ [now]) c) (hHand : AtHand (past ++ [now]) past now)
    (hFinal : AllFinal (past ++ [now])) (hAsked : finals past < n) (garbage : Nat) (p : Parser.Fields) {m : Message}
    (hm : Http1.isContinue m = false) :
    Matches n (past ++ [now ++ [.headersDone p m]]) (c.decodedHeaders garbage m).2 := by
  refine h.imp (fun hc => Http1.Cut.stable.decodedHeaders garbage m hc) fun hPairing => ?_
  obtain ⟨hCount, hPast⟩ := finals_atHand hHand hFinal
  have hMore : past.length < c.opened := (hPast ▸ hAsked).trans_le hPairing.opened
  have hRole : c.role = .client := hPairing.role
  have hContinue : c.managingContinue = false := hPairing.managingContinue
  rw [Http1.decodedHeaders_eq, Http1.getCurrent_front hPairing (hCount ▸ hMore), hCount]
  have hTaken : (c.takeDecoded m.data true).role = .client := hRole
  dsimp only
  rw [if_neg (by simp [hTaken]), hm, if_neg Bool.false_ne_true]
  have hConveys : Conveys (.headersDone p m) (.headers (m.setData (m.data.setKeepalive _))) :=
    .headers (c.takeDecoded m.data true).persistent
  have hTold := hPairing.tell hHand hCount hMore rfl rfl hConveys
  simpa [Http1.remoteSide, RemoteSide.tell, Http1.remoteEvent, Http1.setRemote, Http1.takeDecoded, Http1.record,
    hContinue] using hTold

/-- The rest of a final response goes there as well. -/
theorem rest {re : RemoteEvent} {f : Http1 → Http1} (h : Matches n (past ++ [now]) c)
    (hHand : AtHand (past ++ [now]) past now) (hFinal : AllFinal (past ++ [now])) (hAnnounced : isAnnounced now = true)
    (hTold : toldOf [ev] = [ev]) (hEnds : ev.ends = false) (hConveys : Conveys ev re) (hCut : c.Cut → (f c).Cut)
    (hf : ∀ id, c.getCurrent = (some id, c) → c.managingContinue = false →
      (f c).remoteSide = c.remoteSide.tell id re) : Matches n (past ++ [now ++ [ev]]) (f c) := by
  refine h.imp hCut fun hPairing => ?_
  have hCount := (finals_atHand hHand hFinal).1
  have hMore := hPairing.answered past now hHand hAnnounced
  rw [hf _ (Http1.getCurrent_front hPairing hMore) hPairing.managingContinue, hCount]
  exact hPairing.tell hHand hCount (hCount ▸ hMore) hTold hEnds hConveys

theorem decodedBody (h : Matches n (past ++ [now]) c) (hHand : AtHand (past ++ [now]) past now)
    (hFinal : AllFinal (past ++ [now])) (hAnnounced : isAnnounced now = true) (bytes : ByteString) :
    Matches n (past ++ [now ++ [.body bytes]]) (c.decodedBody bytes) := by
  refine h.rest hHand hFinal hAnnounced rfl rfl .body (Http1.Cut.stable.remote.decodedBody bytes) ?_
  intro id hCurrent _
  rw [Http1.decodedBody, hCurrent]
  rfl

theorem decodedTrailer (h : Matches n (past ++ [now]) c) (hHand : AtHand (past ++ [now]) past now)
    (hFinal : AllFinal (past ++ [now])) (hAnnounced : isAnnounced now = true) (key value : ByteString) :
    Matches n (past ++ [now ++ [.trailer key value]]) (c.decodedTrailer key value) := by
  refine h.rest hHand hFinal hAnnounced rfl rfl .trailer (Http1.Cut.stable.remote.decodedTrailer key value) ?_
  intro id hCurrent hContinue
  rw [Http1.decodedTrailer, hCurrent]
  dsimp only
  rw [hContinue, if_neg Bool.false_ne_true]
  rfl

/-- The final response ends. -/
theorem decodingEnd (h : Matches n (past ++ [now]) c) (hHand : AtHand (past ++ [now]) past now)
    (hFinal : AllFinal (past ++ [now])) (hAnnounced : isAnnounced now = true) :
    Matches n (past ++ [now ++ [.completion]]) c.decodingEnd := by
  refine h.imp (fun hc => Http1.Cut.stable.remote.decodingEnd hc) fun hPairing => ?_
  have hCount := (finals_atHand hHand hFinal).1
  have hMore := hPairing.answered past now hHand hAnnounced
  have hRole : c.role = .client := hPairing.role
  have hContinue : c.managingContinue = false := hPairing.managingContinue
  have hOpen : (c.remotes past.length).terminated = false := hPairing.terminated _ hCount.le
  rw [Http1.decodingEnd, Http1.getCurrent_front hPairing hMore, hCount]
  dsimp only
  rw [if_neg (by simp [hRole]), if_neg (by simp [hContinue]),
    Http1.remoteSide_remoteEnd (c := { c with remoteObjects := c.remoteObjects.tail }) hRole hOpen]
  exact hPairing.finish hHand hFinal (hCount ▸ hMore)

end Matches

/-! ### The connection -/

/-- The stream so far is one of final responses only, which have been asked for. -/
structure Fair (n : Nat) (trace : List Event) : Prop where
  ordered : Ordered trace
  final : ∀ p m, .headersDone p m ∈ trace → p.statusCode ≠ 100 ∧ Http1.isContinue m = false
  flawless : ∀ ev ∈ trace, ¬ ev.IsError
  asked : Asked n (messagesOf trace)

theorem mem_of_messagesOf {trace es : List Event} (hEs : es ∈ messagesOf trace) : ∀ ev ∈ es, ev ∈ trace := by
  induction trace using List.reverseRecOn generalizing es with
  | nil => cases hEs
  | append_singleton trace last ih =>
      rw [messagesOf_append] at hEs
      intro ev hEv
      by_cases hBegins : last.begins = true
      · cases last with
        | begin =>
            rcases List.mem_append.mp hEs with hOld | hNew
            · exact List.mem_append_left _ (ih hOld ev hEv)
            · rw [List.mem_singleton.mp hNew] at hEv
              cases hEv
        | _ => cases hBegins
      · have hBegins : last.begins = false := by simpa using hBegins
        rcases List.eq_nil_or_concat' (messagesOf trace) with hNone | ⟨past, now, hSome⟩
        · rw [hNone, addEvent_nil hBegins] at hEs
          cases hEs
        · rw [hSome] at ih
          rw [hSome, addEvent_concat hBegins] at hEs
          rcases List.mem_append.mp hEs with hOld | hNew
          · exact List.mem_append_left _ (ih (List.mem_append_left _ hOld) ev hEv)
          · rw [List.mem_singleton.mp hNew] at hEv
            rcases List.mem_append.mp hEv with hBefore | hLast
            · exact List.mem_append_left _ (ih (List.mem_append_right _ (List.mem_singleton.mpr rfl)) ev hBefore)
            · exact List.mem_append_right _ hLast

namespace Fair

variable {trace : List Event}

theorem allFinal (h : Fair n trace) : AllFinal (messagesOf trace) := by
  intro es hEs
  rw [isInterim, List.any_eq_false]
  intro ev hEv
  cases ev with
  | headersDone p m => simpa using (h.final p m (mem_of_messagesOf hEs _ hEv)).1
  | _ => simp

theorem asked_front (h : Asked n (messagesOf (trace ++ [ev]))) : Asked n (messagesOf trace) := by
  rw [messagesOf_append] at h
  by_cases hBegins : ev.begins = true
  · cases ev with
    | begin => exact h.begin
    | _ => cases hBegins
  · have hBegins : ev.begins = false := by simpa using hBegins
    rcases List.eq_nil_or_concat' (messagesOf trace) with hNone | ⟨past, now, hSome⟩
    · rw [hNone, addEvent_nil hBegins] at h
      rwa [hNone]
    · rw [hSome, addEvent_concat hBegins] at h
      rw [hSome]
      exact h.front

/-- One event less. -/
theorem front (h : Fair n (trace ++ [ev])) : Fair n trace where
  ordered := (ordered_append.mp h.ordered).1
  final p m hMem := h.final p m (List.mem_append_left _ hMem)
  flawless e hMem := h.flawless e (List.mem_append_left _ hMem)
  asked := asked_front h.asked

theorem last (h : Fair n (trace ++ [ev])) : ev.Fits (messagesOf trace) := (ordered_append.mp h.ordered).2

end Fair

variable {app : Application} {fuel garbage : Nat}

/-- The handler of a client, as the decoder calls it. -/
def Pairs (n : Nat) (_ : Bool) (trace : List Event) (user : Except Fault Http1) : Prop :=
  Fair n trace → Holding (Matches n (messagesOf trace)) user

/-- A callback of the decoder, and what the application does in it. -/
theorem Pairs.calls {b b' : Bool} {trace : List Event} {user : Except Fault Http1} {f : Http1 → Http1}
    (h : Pairs n b trace user)
    (hf : ∀ {c}, Fair n (trace ++ [ev]) → Matches n (messagesOf trace) c →
      Matches n (messagesOf (trace ++ [ev])) (f c)) :
    Pairs n b' (trace ++ [ev]) (user >>= fun c => (f c).react app fuel) := by
  intro hFair
  refine Holding.bind (h hFair.front) ?_
  intro c d hc hReact
  exact (Matches.locallyKept n _).react (hf hFair hc) hReact

theorem handler_pairs (app : Application) (fuel garbage n : Nat) :
    Hears (handlerCallbacks app fuel garbage) (Pairs n) where
  begin m trace user h := by
    apply h.calls (f := Http1.decodingStart)
    intro c hFair hc
    rw [messagesOf_append]
    exact hc.decodingStart
  line key value b trace user h := by
    intro hFair c hUser
    obtain ⟨past, now, hHand, hNew⟩ := hFair.last
    have hc := h hFair.front c hUser
    rw [hHand.messages] at hc
    rw [messagesOf_append, hHand.messages, addEvent_concat rfl]
    exact hc.line hHand.open_ hNew key value
  header p m b trace user h := by
    rcases user with f | c
    · intro _ c hRun
      cases hRun
    · intro hFair c' hRun
      obtain ⟨past, now, hHand, -⟩ := hFair.last
      have hFinal := hFair.front.allFinal
      have hAsked := hFair.asked
      have hm := (hFair.final p m (List.mem_append_right _ (List.mem_singleton.mpr rfl))).2
      have hc := h hFair.front c rfl
      have hMessages := hHand.messages
      rw [messagesOf_append, hMessages, addEvent_concat rfl] at hAsked ⊢
      rw [hMessages] at hHand hFinal hc
      have hTurn : finals past < n := hAsked.last (by rw [isAnnounced_append]; exact Bool.or_true _)
      exact (Matches.locallyKept n _).react (hc.decodedHeaders hHand hFinal hTurn garbage p hm) hRun
  body bytes b trace user h := by
    apply h.calls (f := Http1.decodedBody bytes)
    intro c hFair hc
    obtain ⟨past, now, hHand, hAnnounced⟩ := hFair.last
    have hFinal := hFair.front.allFinal
    have hMessages := hHand.messages
    rw [messagesOf_append, hMessages, addEvent_concat rfl]
    rw [hMessages] at hHand hFinal hc
    exact hc.decodedBody hHand hFinal hAnnounced bytes
  trailer key value b trace user h := by
    apply h.calls (f := Http1.decodedTrailer key value)
    intro c hFair hc
    obtain ⟨past, now, hHand, hAnnounced⟩ := hFair.last
    have hFinal := hFair.front.allFinal
    have hMessages := hHand.messages
    rw [messagesOf_append, hMessages, addEvent_concat rfl]
    rw [hMessages] at hHand hFinal hc
    exact hc.decodedTrailer hHand hFinal hAnnounced key value
  completion := by
    intro b trace user h
    apply h.calls (f := Http1.decodingEnd)
    intro c hFair hc
    obtain ⟨past, now, hHand, hAnnounced⟩ := hFair.last
    have hFinal := hFair.front.allFinal
    have hMessages := hHand.messages
    rw [messagesOf_append, hMessages, addEvent_concat rfl]
    rw [hMessages] at hHand hFinal hc
    exact hc.decodingEnd hHand hFinal hAnnounced
  error e b trace user h := by
    intro hFair
    exact absurd ⟨e, rfl⟩ (hFair.flawless _ (List.mem_append_right _ (List.mem_singleton.mpr rfl)))

/-- A call that is not one of the decoder. -/
theorem Matches.step {c d : Http1} {op : Op} (hOp : op.decoded = false) (h : Matches n ms c)
    (hRun : c.step app.sent fuel op = .ok d) : Matches n ms d := by
  have hKept := Matches.locallyKept n ms
  cases op with
  | user op => exact hKept.userOp (hKept.notifyLocalContent (hKept.callbackKeeps app.sent)) trivial h hRun
  | posted => exact hKept.runPosted (hKept.notifyLocalContent (hKept.callbackKeeps app.sent)) h hRun
  | decodingStart => cases hOp
  | decodedHeaders m => cases hOp
  | decodedBody bytes => cases hOp
  | decodedTrailer key value => cases hOp
  | decodingEnd => cases hOp
  | decodingFailure => cases hOp
  | written r =>
      cases hRun
      exact h.frame (Http1.Cut.stable.written r trivial) (Http1.remoteSide_written c r)
  | readFailed =>
      cases hRun
      exact h.frame (fun hc => hc) rfl
  | connectorLost =>
      cases hRun
      split
      · exact .inl (Http1.loseConnector_cut c)
      · exact h

namespace Connection

variable {c d : Connection} {ins : List Input}

/-- The responses so far have been asked for, and the handler follows them. -/
def Attached (c : Connection) : Prop :=
  ∃ n, Asked n (messagesOf c.codec.impl.trace) ∧ Conducts (Heard (Pairs n)) c

theorem Attached.mapHandler (h : Attached c) {f : Except Fault Http1 → Except Fault Http1}
    (hf : ∀ {n ms user}, Holding (Matches n ms) user → Holding (Matches n ms) (f user)) : Attached (c.mapHandler f) := by
  obtain ⟨n, hAsked, hConducts⟩ := h
  refine ⟨n, hAsked, hConducts.mapHandler fun a hHeard => ?_⟩
  exact ⟨{ hHeard.tracks with }, fun hFair => hf (hHeard.heard hFair)⟩

/-- The transactions that have been opened before the read. -/
theorem Attached.before (h : Attached c) (hHandler : ∀ h, c.handler = .ok h → n = h.opened) :
    Conducts (Heard (Pairs n)) c := by
  obtain ⟨k, hAsked, hReady, hRegular, a, hHeard, hPlaced⟩ := h
  refine ⟨hReady, hRegular, a, ⟨hHeard.tracks, ?_⟩, hPlaced⟩
  intro hFair h hUser
  refine (hHeard.heard { hFair with asked := hAsked } h hUser).imp id fun hPairing => ?_
  exact { hPairing with opened := (hHandler h hUser).le }

theorem Attached.read (h : Attached c) {piece : ByteString} (hRun : c.read app fuel garbage piece = .ok d)
    (hAsked : ∀ h, c.handler = .ok h → Asked h.opened (messagesOf d.codec.impl.trace)) : Attached d := by
  unfold Connection.read at hRun
  split at hRun
  · cases hRun
    exact h
  obtain ⟨⟨codec, ok⟩, hDecode, hRest⟩ := Http.bind_eq_ok.mp hRun
  have hTrace : d.codec.impl.trace = codec.impl.trace := by
    cases hRest
    split
    · rfl
    · rfl
  -- of a handler that has faulted nothing is said
  obtain ⟨n, hEnough, hOpened⟩ : ∃ n, Asked n (messagesOf codec.impl.trace) ∧ ∀ h, c.handler = .ok h → n = h.opened := by
    cases hHandler : c.handler with
    | ok h => exact ⟨h.opened, hTrace ▸ hAsked h hHandler, fun h' hSame => by cases hSame; rfl⟩
    | error f =>
        refine ⟨(messagesOf codec.impl.trace).length, ?_, fun h hSame => by cases hSame⟩
        intro i hi _
        exact (finals_le _).trans_lt (by rw [List.length_take]; omega)
  have hConducts := (h.before hOpened).decode (handler_pairs app fuel garbage n).invariant hDecode
  cases ok with
  | true =>
      cases hRest
      exact ⟨n, hEnough, hConducts true⟩
  | false =>
      cases hRest
      apply Attached.mapHandler ⟨n, hEnough, hConducts false⟩
      intro k ms user hUser
      rcases user with f | h
      · intro h hRun
        cases hRun
      · intro h' hRun
        cases hRun
        exact (hUser h rfl).frame (fun hc => hc) rfl

theorem Attached.step (h : Attached c) {inp : Input} (hRun : c.step app fuel garbage inp = .ok d)
    (hAsked : ∀ h, c.handler = .ok h → Asked h.opened (messagesOf d.codec.impl.trace)) : Attached d := by
  cases inp with
  | read piece => exact h.read hRun hAsked
  | op op =>
      cases hRun
      split
      · exact h
      case isFalse hOp =>
        apply h.mapHandler
        intro k ms user hUser
        exact Holding.bind hUser fun hc hStep => hc.step (by simpa using hOp) hStep

theorem Attached.run (h : Attached c) (hRun : c.run app fuel garbage ins = .ok d)
    (hAnswered : c.Answered app fuel garbage ins) : Attached d := by
  induction ins generalizing c with
  | nil =>
      cases hRun
      exact h
  | cons inp ins ih =>
      obtain ⟨e, hStep, hRest⟩ := Http.bind_eq_ok.mp hRun
      obtain ⟨hAsked, hLater⟩ := hAnswered e hStep
      exact ih (h.step hStep hAsked) hRest hLater

end Connection

end Doormat.Protocol
