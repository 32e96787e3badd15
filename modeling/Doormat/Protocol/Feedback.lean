import Doormat.Protocol.Reentrancy

/-! Terminal notifications: a local object waits in the queue, in a feedback that is
pending, captured by a write or posted, or it has been told; what it is owed passes from
one to the next. -/
namespace Doormat.Protocol

open Bytes Doormat.Http

/-- The feedbacks that are about an object. -/
def about (fs : List Feedback) (id : Nat) : Nat := fs.countP (·.id = id)

/-- Is the closure a feedback about the object? -/
def Posted.feeds (id : Nat) : Posted → Bool
  | .feedback f _ => f.id = id
  | _ => false

/-- The posted feedbacks that are about an object. -/
def postedAbout (ps : List Posted) (id : Nat) : Nat := ps.countP (Posted.feeds id)

theorem postedAbout_append (ps qs : List Posted) (id : Nat) :
    postedAbout (ps ++ qs) id = postedAbout ps id + postedAbout qs id := List.countP_append

theorem postedAbout_feedbacks (fs : List Feedback) (success : Bool) (id : Nat) :
    postedAbout (fs.map fun f => .feedback f success) id = about fs id := by
  rw [postedAbout, List.countP_map]
  rfl

namespace Http1

/-- What an object has been told, and what it is still owed. -/
def owed (c : Http1) (id : Nat) : Nat :=
  (c.locals id).received.length + c.localObjects.count id + about c.pendingClearCallbacks id +
    about ((c.writing.map Write.feedbacks).getD []) id + postedAbout c.posted id

variable {c c' d : Http1} {id : Nat}

theorem connectorDoWrite_owed (c : Http1) : c.connectorDoWrite.owed = c.owed := by
  funext id
  rcases connectorDoWrite_cases c with ⟨hEq, -⟩ | ⟨-, -, -, hEq⟩ | ⟨hWriting, -, -, -, hEq⟩
  · rw [hEq]
  · have hPosted : postedAbout (c.posted ++ c.pendingClearCallbacks.map fun f => .feedback f true) id =
        postedAbout c.posted id + about c.pendingClearCallbacks id := by
      rw [postedAbout_append, postedAbout_feedbacks]
    have hNote : (c.noteIdle { c with out := [] }.postFeedbacks).owed id =
        ({ c with out := [] }.postFeedbacks).owed id := by
      rw [noteIdle]
      split
      · rfl
      · rfl
    have hPosts : ({ c with out := [] }.postFeedbacks).owed id =
        (c.locals id).received.length + c.localObjects.count id + about [] id +
          about ((c.writing.map Write.feedbacks).getD []) id +
          postedAbout (c.posted ++ c.pendingClearCallbacks.map fun f => .feedback f true) id := rfl
    rw [hEq, hNote, hPosts, hPosted, owed]
    simp only [about, List.countP_nil]
    omega
  · rw [hEq, owed, owed, hWriting]
    simp only [asyncWrite, Option.map_some, Option.getD_some, Option.map_none, Option.getD_none,
      about, List.countP_nil]
    omega

theorem doWrite_owed (c : Http1) : c.doWrite.owed = c.owed := by
  rw [doWrite]
  split
  · exact connectorDoWrite_owed c
  · rfl

/-- The completion of a write posts the feedbacks that the write has captured. -/
theorem written_owed (c : Http1) (r : WriteResult) : (c.written r).owed = c.owed := by
  funext id
  rw [written]
  split
  · rfl
  case h_2 w hw =>
    have hPosted : ∀ success, postedAbout (c.posted ++ w.feedbacks.map fun f => .feedback f success) id =
        postedAbout c.posted id + about w.feedbacks id := by
      intro success
      rw [postedAbout_append, postedAbout_feedbacks]
    have hMoved : ∀ success, (c.locals id).received.length + c.localObjects.count id +
        about c.pendingClearCallbacks id + about [] id +
        postedAbout (c.posted ++ w.feedbacks.map fun f => .feedback f success) id = c.owed id := by
      intro success
      rw [hPosted, owed, hw]
      simp only [Option.map_some, Option.getD_some, about, List.countP_nil]
      omega
    cases r with
    | ok =>
        dsimp only
        rw [connectorDoWrite_owed]
        exact hMoved true
    | failed => exact hMoved false
    | cancelled => exact hMoved false

/-- A local object that keeps what it has been told. -/
theorem setLocal_owed {l : Local} (h : l.received.length = (c.locals id).received.length) :
    (c.setLocal id l).owed = c.owed := by
  funext j
  by_cases hj : j = id
  · subst hj
    rw [owed, setLocal_locals_self, h]
    rfl
  · rw [owed, setLocal_locals_of_ne hj]
    rfl

/-- A local object that has been told something more. -/
theorem setLocal_told {l : Local} {n : Notice} (h : l.received = (c.locals id).received ++ [n])
    (j : Nat) : (c.setLocal id l).owed j = c.owed j + if j = id then 1 else 0 := by
  by_cases hj : j = id
  · subst hj
    rw [owed, setLocal_locals_self, h, if_pos rfl, List.length_append, owed]
    simp only [setLocal, List.length_singleton]
    omega
  · rw [owed, setLocal_locals_of_ne hj, if_neg hj]
    rfl

theorem called_owed (c : Http1) (id : Nat) : (c.post [.callback id]).owed = c.owed := by
  funext j
  rw [owed]
  simp only [post, postedAbout_append]
  rfl

theorem localError_owed (c : Http1) (e : ErrorCode) (id j : Nat) :
    (c.localError e id).owed j = c.owed j + if j = id then 1 else 0 := by
  rw [localError]
  split
  · rw [called_owed]
    exact setLocal_told rfl j
  · exact setLocal_told rfl j

theorem localCleared_owed (c : Http1) (id j : Nat) :
    (c.localCleared id).owed j = c.owed j + if j = id then 1 else 0 := by
  rw [localCleared]
  split
  · rw [called_owed]
    exact setLocal_told rfl j
  · exact setLocal_told rfl j

/-- The feedbacks that wait for a write are ones that have waited before. -/
theorem connectorDoWrite_pending {f : Feedback} (h : f ∈ c.connectorDoWrite.pendingClearCallbacks) :
    f ∈ c.pendingClearCallbacks := by
  rcases connectorDoWrite_cases c with ⟨hEq, -⟩ | ⟨-, -, -, hEq⟩ | ⟨-, -, -, -, hEq⟩
  · rwa [hEq] at h
  · have hNote : (c.noteIdle { c with out := [] }.postFeedbacks).pendingClearCallbacks = [] := by
      rw [noteIdle]
      split
      · rfl
      · rfl
    rw [hEq, hNote] at h
    cases h
  · rw [hEq] at h
    cases h

theorem doWrite_pending {f : Feedback} (h : f ∈ c.doWrite.pendingClearCallbacks) :
    f ∈ c.pendingClearCallbacks := by
  rw [doWrite] at h
  split at h
  · exact connectorDoWrite_pending h
  · exact h

theorem written_pending {r : WriteResult} {f : Feedback}
    (h : f ∈ (c.written r).pendingClearCallbacks) : f ∈ c.pendingClearCallbacks := by
  rw [written] at h
  split at h
  · exact h
  · cases r with
    | ok =>
        have hPosted := connectorDoWrite_pending h
        exact hPosted
    | failed => exact h
    | cancelled => exact h

/-! ### Everybody is told -/

/-- To be told changes nothing of who holds an object. -/
theorem localError_held (c : Http1) (e : ErrorCode) (id j : Nat) :
    ((c.localError e id).locals j).held = (c.locals j).held := by
  rw [localError]
  by_cases hj : j = id
  · subst hj
    split <;> simp [setLocal, post]
  · split <;> simp [setLocal, post, hj]

/-- What `cleared` of a local object keeps. -/
theorem localCleared_keeps {α : Type} (f : Http1 → α)
    (hLocal : ∀ (c : Http1) id l, f (c.setLocal id l) = f c)
    (hPost : ∀ (c : Http1) id, f (c.post [.callback id]) = f c) (c : Http1) (id : Nat) :
    f (c.localCleared id) = f c := by
  rw [localCleared]
  split
  · rw [hPost, hLocal]
  · rw [hLocal]

theorem localCleared_held (c : Http1) (id j : Nat) :
    ((c.localCleared id).locals j).held = (c.locals j).held := by
  rw [localCleared]
  by_cases hj : j = id
  · subst hj
    split <;> simp [setLocal, post]
  · split <;> simp [setLocal, post, hj]

/-- An object that the application holds, or that is none of the ones which are told, is
told as often as it is listed. -/
theorem tell_owed {j : Nat} (e : ErrorCode) (ids : List Nat) {c : Http1}
    (h : (c.locals j).held = true ∨ j ∉ ids) :
    (ids.foldl (fun c id => if c.alive id then c.localError e id else c) c).owed j =
      c.owed j + ids.count j := by
  induction ids generalizing c with
  | nil => rfl
  | cons id ids ih =>
      rw [List.foldl_cons]
      by_cases hj : j = id
      · subst hj
        have hHeld : (c.locals j).held = true :=
          h.resolve_right fun hNot => hNot List.mem_cons_self
        have hAlive : c.alive j = true := by simp [alive, hHeld]
        rw [if_pos hAlive, ih (.inl (by rw [localError_held]; exact hHeld)), localError_owed,
          if_pos rfl, List.count_cons_self]
        omega
      · have hStep : (if c.alive id then c.localError e id else c).owed j = c.owed j := by
          split
          · rw [localError_owed, if_neg hj]
            rfl
          · rfl
        have hKept : ((if c.alive id then c.localError e id else c).locals j).held =
            (c.locals j).held := by
          split
          · exact localError_held c e id j
          · rfl
        rw [ih (h.imp (fun hHeld => hKept.trans hHeld) fun hNot hMem =>
          hNot (List.mem_cons_of_mem _ hMem)), hStep, List.count_cons_of_ne (Ne.symm hj)]

/-- The feedbacks that are left are errors. -/
theorem fail_owed (fs : List Feedback) (c : Http1) (j : Nat) :
    (fs.foldl (fun c f => c.localError .missingStreamElement f.id) c).owed j =
      c.owed j + about fs j := by
  induction fs generalizing c with
  | nil => rfl
  | cons f fs ih =>
      rw [List.foldl_cons, ih, localError_owed, about, about, List.countP_cons]
      by_cases hj : j = f.id
      · simp [hj]
        omega
      · simp [hj, Ne.symm hj]

theorem remotes_owed (e : ErrorCode) (ids : List Nat) (c : Http1) :
    (ids.foldl (fun c id => c.remoteEnd id (.error e)) c).owed = c.owed := by
  apply foldl_keeps owed
  intro c id
  apply remoteEnd_keeps owed (fun _ _ => rfl)
  intro c
  funext j
  rw [owed]
  simp only [post, postedAbout_append]
  rfl

/-- The queue is emptied by telling everybody in it. -/
theorem notifyAll_owed {j : Nat} (e : ErrorCode)
    (h : (c.locals j).held = true ∨ j ∉ c.localObjects) : (c.notifyAll e).owed j = c.owed j := by
  let d := c.remoteObjects.foldl (fun c id => c.remoteEnd id (.error e)) c
  let told := d.localObjects.foldl (fun c id => if c.alive id then c.localError e id else c) d
  have hObjects : d.localObjects = c.localObjects :=
    foldl_keeps Http1.localObjects (fun c id => remoteEnd_localObjects c id _) _ c
  have hLocals : d.locals = c.locals :=
    foldl_keeps Http1.locals (fun c id => remoteEnd_locals c id _) _ c
  have hQueue : told.localObjects = d.localObjects := by
    apply foldl_keeps Http1.localObjects
    intro c id
    split
    · exact localError_localObjects c e id
    · rfl
  have hTold : told.owed j = c.owed j + c.localObjects.count j := by
    show (d.localObjects.foldl _ d).owed j = _
    rw [tell_owed e d.localObjects (by rwa [hLocals, hObjects]), remotes_owed, hObjects]
  have hEmptied : ({ told with remoteObjects := [], localObjects := [] } : Http1).owed j +
      told.localObjects.count j = told.owed j := by
    rw [owed, owed, List.count_nil]
    dsimp only
    omega
  rw [hQueue, hObjects, hTold] at hEmptied
  exact Nat.add_right_cancel hEmptied

theorem notifyAll_held (c : Http1) (e : ErrorCode) (j : Nat) :
    ((c.notifyAll e).locals j).held = (c.locals j).held := by
  have hTold := foldl_keeps (g := fun c id => if c.alive id then c.localError e id else c)
    (fun c : Http1 => (c.locals j).held) (fun c id => by
      split
      · exact localError_held c e id j
      · rfl)
  have hRemotes := foldl_keeps Http1.locals (fun c id => remoteEnd_locals c id (.error e))
    c.remoteObjects c
  rw [notifyAll]
  dsimp only
  rw [hTold, hRemotes]

@[simp] theorem notifyAll_pending (c : Http1) (e : ErrorCode) :
    (c.notifyAll e).pendingClearCallbacks = c.pendingClearCallbacks :=
  notifyAll_keeps Http1.pendingClearCallbacks (fun _ _ _ => rfl) (fun _ _ _ => rfl)
    (fun _ _ => rfl) (fun _ => rfl) c e

@[simp] theorem notifyAll_connected (c : Http1) (e : ErrorCode) :
    (c.notifyAll e).connected = c.connected :=
  notifyAll_keeps Http1.connected (fun _ _ _ => rfl) (fun _ _ _ => rfl) (fun _ _ => rfl)
    (fun _ => rfl) c e

@[simp] theorem notifyAll_opened (c : Http1) (e : ErrorCode) : (c.notifyAll e).opened = c.opened :=
  notifyAll_keeps Http1.opened (fun _ _ _ => rfl) (fun _ _ _ => rfl) (fun _ _ => rfl)
    (fun _ => rfl) c e

/-- What a decoding failure keeps. -/
theorem failLast_keeps {α : Type} (f : Http1 → α)
    (hRemote : ∀ (c : Http1) id r, f (c.setRemote id r) = f c)
    (hLocal : ∀ (c : Http1) id l, f (c.setLocal id l) = f c)
    (hPost : ∀ (c : Http1) ps, f (c.post ps) = f c)
    (hQueues : ∀ (c : Http1) is js, f { c with remoteObjects := is, localObjects := js } = f c)
    (c : Http1) (i last : Nat) : f (c.failLast i last) = f c := by
  have hCurrent : f (c.failCurrent i) = f c := by
    rw [failCurrent, hQueues _ _ (c.remoteEnd i (.error .decoding)).localObjects]
    exact remoteEnd_keeps f (fun c => hRemote c i) (fun c => hPost c _) c _
  rw [failLast]
  split
  · rw [hQueues _ ((c.failCurrent i).localError .decoding last).remoteObjects,
      localError_keeps f hLocal (fun c _ => hPost c _), hCurrent]
  · rw [hQueues _ (c.failCurrent i).remoteObjects, hCurrent]

/-- A decoding failure gives a notice to the last object, and takes the queue's first one. -/
theorem failLast_owed {first : Nat} {rest : List Nat} (hFront : c.localObjects = first :: rest)
    (i last j : Nat) : (c.failLast i last).owed j + (if j = first then 1 else 0) =
      c.owed j + if j = last ∧ c.alive j = true then 1 else 0 := by
  have hCurrent : (c.failCurrent i).owed j = c.owed j := by
    show (c.remoteEnd i (.error .decoding)).owed j = c.owed j
    exact congrFun (remotes_owed .decoding [i] c) j
  have hTold : (if c.alive last then (c.failCurrent i).localError .decoding last
      else c.failCurrent i).owed j = c.owed j + if j = last ∧ c.alive j = true then 1 else 0 := by
    by_cases hAlive : c.alive last = true
    · rw [if_pos hAlive, localError_owed, hCurrent]
      by_cases hj : j = last
      · subst hj
        simp [hAlive]
      · simp [hj]
    · rw [if_neg hAlive, hCurrent, if_neg, Nat.add_zero]
      rintro ⟨rfl, hHolds⟩
      exact hAlive hHolds
  have hQueue : (if c.alive last then (c.failCurrent i).localError .decoding last
      else c.failCurrent i).localObjects = first :: rest := by
    split
    · rw [localError_localObjects, failCurrent_localObjects, hFront]
    · rw [failCurrent_localObjects, hFront]
  rw [← hTold, failLast, hFront, owed, owed, hQueue, List.count_cons]
  simp only [List.tail_cons, beq_iff_eq, eq_comm (a := first)]
  omega

/-! ### The balance -/

/-- What the objects are owed: one notice each, and none to those which are still to be
opened. `mid` is the object at the front of the queue whose end has been serialised and
which is about to be removed, if there is one: it counts twice. -/
structure Owing (mid : Option Nat) (c : Http1) : Prop where
  once : ∀ id < c.opened, (c.locals id).held = true →
    c.owed id = 1 + if mid = some id then 1 else 0
  fresh : ∀ id, c.opened ≤ id → c.owed id = 0

/-- On a connection that is closed or lost, nobody is in the queue or waits for a write. -/
structure Balanced (mid : Option Nat) (c : Http1) : Prop extends Owing mid c where
  front : ∀ id, mid = some id → c.localObjects.head? = some id
  closed : c.userClose = true ∨ c.connected = false → c.localObjects = [] ∧
    ∀ f ∈ c.pendingClearCallbacks, (c.locals f.id).held = false

namespace Owing

variable {mid : Option Nat}

theorem frame (h : Owing mid c) (hOpened : d.opened = c.opened) (hOwed : d.owed = c.owed)
    (hHeld : ∀ id, (d.locals id).held = true → (c.locals id).held = true) : Owing mid d where
  once := by
    intro id hId hHolds
    rw [hOpened] at hId
    rw [hOwed]
    exact h.once id hId (hHeld id hHolds)
  fresh := by
    rw [hOpened, hOwed]
    exact h.fresh

/-- An object in the queue has been opened. -/
theorem opened_of_mem (h : Owing mid c) (hMem : id ∈ c.localObjects) : id < c.opened := by
  by_contra hId
  have hOwed := h.fresh id (Nat.le_of_not_lt hId)
  have hCount : 0 < c.localObjects.count id := List.count_pos_iff.mpr hMem
  rw [owed] at hOwed
  omega

theorem notifyAll (h : Owing mid c) (e : ErrorCode) : Owing mid (c.notifyAll e) where
  once := by
    intro id hId hHolds
    rw [notifyAll_opened] at hId
    rw [notifyAll_held] at hHolds
    rw [notifyAll_owed e (.inl hHolds)]
    exact h.once id hId hHolds
  fresh := by
    intro id hId
    rw [notifyAll_opened] at hId
    have hNot : id ∉ c.localObjects :=
      fun hMem => absurd (h.opened_of_mem hMem) (Nat.not_lt.mpr hId)
    rw [notifyAll_owed e (.inr hNot)]
    exact h.fresh id hId

/-- The feedbacks that wait for a write become errors. -/
theorem failed (h : Owing mid c) : Owing mid
    { c.pendingClearCallbacks.foldl (fun c f => c.localError .missingStreamElement f.id) c with
      pendingClearCallbacks := [] } := by
  let told := c.pendingClearCallbacks.foldl (fun c f => c.localError .missingStreamElement f.id) c
  have hKeeps : ∀ {α : Type} (f : Http1 → α), (∀ (c : Http1) id l, f (c.setLocal id l) = f c) →
      (∀ (c : Http1) id, f (c.post [.callback id]) = f c) → f told = f c := by
    intro α f hLocal hPost
    exact foldl_keeps f (fun c _ => localError_keeps f hLocal hPost c _ _) _ c
  have hPending : told.pendingClearCallbacks = c.pendingClearCallbacks :=
    hKeeps Http1.pendingClearCallbacks (fun _ _ _ => rfl) fun _ _ => rfl
  apply h.frame
  · exact hKeeps Http1.opened (fun _ _ _ => rfl) fun _ _ => rfl
  · funext j
    have hDrained : ({ told with pendingClearCallbacks := [] } : Http1).owed j +
        about told.pendingClearCallbacks j = told.owed j := by
      rw [owed, owed]
      simp only [about, List.countP_nil]
      omega
    have hTold : told.owed j = c.owed j + about c.pendingClearCallbacks j := fail_owed _ c j
    rw [hPending, hTold] at hDrained
    exact Nat.add_right_cancel hDrained
  · intro j hHolds
    rw [← foldl_keeps (fun c : Http1 => (c.locals j).held)
      (fun c f => localError_held c .missingStreamElement f.id j) c.pendingClearCallbacks c]
    exact hHolds

end Owing

namespace Balanced

variable {mid : Option Nat}

theorem start (role : Role) : Balanced none { role := role } where
  once id hId := by cases hId
  fresh _ _ := rfl
  front := nofun
  closed _ := ⟨rfl, nofun⟩

/-- A step that leaves the queue alone and owes what was owed. -/
theorem frame (h : Balanced mid c) (hQueue : d.localObjects = c.localObjects)
    (hOpened : d.opened = c.opened) (hOwed : d.owed = c.owed)
    (hHeld : ∀ id, (d.locals id).held = true → (c.locals id).held = true)
    (hPending : ∀ f ∈ d.pendingClearCallbacks, f ∈ c.pendingClearCallbacks)
    (hClosed : d.userClose = true ∨ d.connected = false →
      c.userClose = true ∨ c.connected = false) : Balanced mid d where
  toOwing := h.toOwing.frame hOpened hOwed hHeld
  front := by
    rw [hQueue]
    exact h.front
  closed := by
    intro hEnd
    obtain ⟨hEmpty, hNobody⟩ := h.closed (hClosed hEnd)
    rw [hQueue]
    refine ⟨hEmpty, ?_⟩
    intro f hf
    by_contra hHolds
    have hBefore := hHeld f.id (by simpa using hHolds)
    rw [hNobody f (hPending f hf)] at hBefore
    cases hBefore

/-- A connection with something in the queue is neither closed nor lost. -/
theorem going (h : Balanced mid c) {rest : List Nat} (hFront : c.localObjects = id :: rest) :
    c.userClose = false ∧ c.connected = true := by
  have hQueue : ¬ (c.userClose = true ∨ c.connected = false) := by
    intro hEnd
    rw [(h.closed hEnd).1] at hFront
    cases hFront
  simpa using hQueue

/-- A local object that keeps what it has been told. -/
theorem set (h : Balanced mid c) {l : Local} (hReceived : l.received = (c.locals id).received)
    (hHeld : l.held = true → (c.locals id).held = true) : Balanced mid (c.setLocal id l) := by
  apply h.frame (d := c.setLocal id l) rfl rfl (setLocal_owed (congrArg List.length hReceived))
  · intro j hHolds
    by_cases hj : j = id
    · subst hj
      rw [setLocal_locals_self] at hHolds
      exact hHeld hHolds
    · rwa [setLocal_locals_of_ne hj] at hHolds
  · exact fun _ hf => hf
  · exact fun hEnd => hEnd

theorem doWrite (h : Balanced mid c) : Balanced mid c.doWrite := by
  apply h.frame (doWrite_localObjects c) (doWrite_opened c) (doWrite_owed c)
  · intro id
    rw [doWrite_locals]
    exact fun hHolds => hHolds
  · exact fun _ hf => doWrite_pending hf
  · rw [doWrite_userClose, doWrite_connected]
    exact fun hEnd => hEnd

theorem written (h : Balanced mid c) (r : WriteResult) : Balanced mid (c.written r) := by
  apply h.frame (written_localObjects c r) (written_opened c r) (written_owed c r)
  · intro id
    rw [written_locals]
    exact fun hHolds => hHolds
  · exact fun _ hf => written_pending hf
  · rw [written_userClose, written_connected]
    exact fun hEnd => hEnd

/-- A new transaction goes to the end of the queue. -/
theorem opens (h : Balanced mid c) (hOpen : c.connected = true → c.userClose = false) :
    Balanced mid c.getUserHandlers := by
  rw [getUserHandlers]
  split
  · exact h
  case isFalse hConnected =>
    have hConnected : c.connected = true := by simpa using hConnected
    have hOwed : ∀ j, ({ c with
        opened := c.opened + 1
        remoteObjects := c.remoteObjects ++ [c.opened]
        localObjects := c.localObjects ++ [c.opened] } : Http1).owed j =
        c.owed j + if j = c.opened then 1 else 0 := by
      intro j
      rw [owed, owed, List.count_append, List.count_singleton]
      simp only [beq_iff_eq, eq_comm (a := c.opened)]
      omega
    constructor
    · constructor
      · intro id hId hHolds
        rw [hOwed]
        rcases Nat.lt_or_eq_of_le (Nat.le_of_lt_succ hId) with hOld | rfl
        · rw [h.once id hOld hHolds, if_neg hOld.ne, Nat.add_zero]
        · have hMid : mid ≠ some c.opened := by
            intro hMid
            have hMem := List.mem_of_mem_head? (h.front _ hMid)
            exact absurd (h.opened_of_mem hMem) (Nat.lt_irrefl _)
          rw [h.fresh _ (Nat.le_refl _), if_pos rfl, if_neg hMid]
      · intro id hId
        have hId : c.opened < id := hId
        rw [hOwed, h.fresh id hId.le, if_neg hId.ne']
    · intro id hMid
      rw [List.head?_append, h.front id hMid]
      rfl
    · intro hEnd
      rcases hEnd with hClose | hLost
      · rw [hOpen hConnected] at hClose
        cases hClose
      · rw [hConnected] at hLost
        cases hLost

/-- The end of the first object is serialised, and its feedback waits for a write. -/
theorem finish (h : Balanced none c) {rest : List Nat} {e : Encoder} {bytes : ByteString}
    (hFront : c.localObjects = id :: rest) :
    Balanced (some id) (({ c with encoder := e }.serialise id bytes).queueFeedback id) := by
  have hOwed : ∀ j, (({ c with encoder := e }.serialise id bytes).queueFeedback id).owed j =
      c.owed j + if j = id then 1 else 0 := by
    intro j
    rw [owed, owed]
    show _ + _ + about (c.pendingClearCallbacks ++ [_]) j + _ + _ = _
    rw [about, List.countP_append, List.countP_singleton]
    simp only [decide_eq_true_eq, eq_comm (a := id)]
    show (c.locals j).received.length + c.localObjects.count j +
      (about c.pendingClearCallbacks j + _) + about ((c.writing.map Write.feedbacks).getD []) j +
        postedAbout c.posted j = _
    omega
  have hOpened : id < c.opened := h.opened_of_mem (by rw [hFront]; exact List.mem_cons_self)
  constructor
  · constructor
    · intro j hj hHolds
      rw [hOwed, h.once j hj hHolds]
      simp [eq_comm]
    · intro j hj
      have hNe : j ≠ id := by
        rintro rfl
        exact absurd hOpened (Nat.not_lt.mpr hj)
      rw [hOwed, h.fresh j hj, if_neg hNe]
  · intro j hj
    cases hj
    show c.localObjects.head? = some id
    rw [hFront, List.head?_cons]
  · intro hEnd
    have hNil := (h.closed hEnd).1
    rw [hFront] at hNil
    cases hNil

/-- The first object is removed once its end has been serialised. -/
theorem removed (h : Balanced (some id) c) (hRun : c.popFront = .ok c') : Balanced none c' := by
  obtain ⟨first, rest, hFirst, rfl⟩ := popFront_ok.mp hRun
  have hHead := h.front id rfl
  rw [hFirst, List.head?_cons] at hHead
  cases hHead
  have hOwed : ∀ j, ({ c.record (.removed id) with localObjects := rest } : Http1).owed j +
      (if j = id then 1 else 0) = c.owed j := by
    intro j
    rw [owed, owed, hFirst, List.count_cons]
    simp only [beq_iff_eq, eq_comm (a := id)]
    show (c.locals j).received.length + rest.count j + about c.pendingClearCallbacks j +
      about ((c.writing.map Write.feedbacks).getD []) j + postedAbout c.posted j + _ = _
    omega
  constructor
  · constructor
    · intro j hj hHolds
      have hSum := hOwed j
      rw [h.once j hj hHolds] at hSum
      simp only [Option.some.injEq, eq_comm (a := id)] at hSum
      rw [if_neg nofun]
      exact Nat.add_right_cancel hSum
    · intro j hj
      have hj : c.opened ≤ j := hj
      have hSum := hOwed j
      rw [h.fresh j hj] at hSum
      omega
  · nofun
  · intro hEnd
    have hNil := (h.closed hEnd).1
    rw [hFirst] at hNil
    cases hNil

/-- A closure that is no feedback is taken or posted. -/
theorem reposted (h : Balanced mid c) {ps : List Posted}
    (hPosted : ∀ id, postedAbout ps id = postedAbout c.posted id) :
    Balanced mid { c with posted := ps } := by
  apply h.frame (d := { c with posted := ps }) rfl rfl
  · funext j
    rw [owed, owed, hPosted]
  · exact fun _ hHolds => hHolds
  · exact fun _ hf => hf
  · exact fun hEnd => hEnd

theorem remote (mid : Option Nat) : RemoteStable (Balanced mid) where
  setRemote _ _ _ h := h.frame rfl rfl rfl (fun _ hHolds => hHolds) (fun _ hf => hf) fun hEnd => hEnd
  shows _ _ _ h := h.frame rfl rfl rfl (fun _ hHolds => hHolds) (fun _ hf => hf) fun hEnd => hEnd
  postEnd id h := by
    apply h.reposted
    intro j
    rw [postedAbout_append]
    rfl
  error _ h := h.frame rfl rfl rfl (fun _ hHolds => hHolds) (fun _ hf => hf) fun hEnd => hEnd
  flags _ _ h := h.frame rfl rfl rfl (fun _ hHolds => hHolds) (fun _ hf => hf) fun hEnd => hEnd
  received _ _ h := h.frame rfl rfl rfl (fun _ hHolds => hHolds) (fun _ hf => hf) fun hEnd => hEnd
  remoteTail h := h.frame rfl rfl rfl (fun _ hHolds => hHolds) (fun _ hf => hf) fun hEnd => hEnd

/-- Everybody in the queue is told of an error. -/
theorem notifyAll (h : Balanced none c) (e : ErrorCode) : Balanced none (c.notifyAll e) where
  toOwing := h.toOwing.notifyAll e
  front := nofun
  closed := by
    rw [notifyAll_userClose, notifyAll_connected, notifyAll_pending]
    intro hEnd
    refine ⟨rfl, ?_⟩
    intro f hf
    rw [notifyAll_held]
    exact (h.closed hEnd).2 f hf

end Balanced

/-- The application closes the connection while it holds no object that waits for a write,
no transaction is opened once it has closed it, and a decoding failure strikes the only
exchange, or one that nobody holds. -/
def FeedbackStep (c : Http1) : Op → Prop
  | .user .close => ∀ f ∈ c.pendingClearCallbacks, (c.locals f.id).held = false
  | .user .create => c.role = .client → c.connected = true → c.userClose = false
  | .decodingStart => c.role = .server → c.connected = true → c.userClose = false
  | .decodingFailure => c.getCurrent.1 = none ∨ ∀ first ∈ c.localObjects.head?,
      ∀ last ∈ c.localObjects.tail.getLast?,
        (c.locals first).held = false ∧ (c.locals last).held = false
  | _ => True

instance (c : Http1) (op : Op) : Decidable (FeedbackStep c op) := by
  unfold FeedbackStep
  split <;> infer_instance

namespace Balanced

/-- A feedback is taken, and its object is told. -/
theorem taken {f : Feedback} {success : Bool} {rest : List Posted} (h : Balanced none c)
    (hPosted : c.posted = .feedback f success :: rest)
    (hQueue : d.localObjects = c.localObjects) (hOpened : d.opened = c.opened)
    (hOwed : ∀ j, d.owed j = ({ c with posted := rest } : Http1).owed j + if j = f.id then 1 else 0)
    (hHeld : ∀ j, (d.locals j).held = (c.locals j).held)
    (hPending : d.pendingClearCallbacks = c.pendingClearCallbacks)
    (hUser : d.userClose = c.userClose) (hConnected : d.connected = c.connected) :
    Balanced none d := by
  apply h.frame hQueue hOpened
  · funext j
    have hAbout : postedAbout c.posted j = postedAbout rest j + if j = f.id then 1 else 0 := by
      rw [hPosted, postedAbout, List.countP_cons, postedAbout]
      simp only [Posted.feeds, decide_eq_true_eq, eq_comm (a := f.id)]
    rw [hOwed, owed, owed, hAbout]
    exact Nat.add_assoc _ _ _
  · intro j
    rw [hHeld]
    exact id
  · rw [hPending]
    exact fun _ hf => hf
  · rw [hUser, hConnected]
    exact id

/-- A decoding failure strikes the only exchange, or one that nobody holds. -/
theorem decodingFailure {first last : Nat} {rest : List Nat} (h : Balanced none c)
    (hFront : c.localObjects = first :: rest) (hLast : c.localObjects.getLast? = some last)
    (hAlone : ∀ last ∈ rest.getLast?, (c.locals first).held = false ∧ (c.locals last).held = false)
    (i : Nat) : Balanced none (c.failLast i last) := by
  have hOwed := failLast_owed (c := c) hFront i last
  have hOpened : (c.failLast i last).opened = c.opened :=
    failLast_keeps Http1.opened (fun _ _ _ => rfl) (fun _ _ _ => rfl) (fun _ _ => rfl)
      (fun _ _ _ => rfl) c i last
  have hHeld : ∀ j, ((c.failLast i last).locals j).held = (c.locals j).held := by
    intro j
    rw [failLast]
    dsimp only
    split
    · rw [localError_held, failCurrent_locals]
    · rw [failCurrent_locals]
  -- what the failure takes from an object, it gives to the same object
  have hSame : ∀ j, j < c.opened → (c.locals j).held = true →
      (j = first ↔ j = last ∧ c.alive j = true) := by
    intro j _ hHolds
    rcases getLast?_cons_cases first rest with ⟨-, hOnly⟩ | ⟨other, hOther, hEnd⟩
    · rw [hFront, hOnly] at hLast
      cases hLast
      have hAlive : c.alive j = true := by simp [alive, hHolds]
      simp [hAlive]
    · rw [hFront, hEnd] at hLast
      cases hLast
      obtain ⟨hFirst, hLast⟩ := hAlone last hOther
      constructor
      · rintro rfl
        rw [hFirst] at hHolds
        cases hHolds
      · rintro ⟨rfl, -⟩
        rw [hLast] at hHolds
        cases hHolds
  have hQueued : ∀ j ∈ c.localObjects, j < c.opened := fun j hj => h.opened_of_mem hj
  obtain ⟨hUser, hConnected⟩ := h.going hFront
  constructor
  · constructor
    · intro j hj hHolds
      rw [hOpened] at hj
      rw [hHeld] at hHolds
      have hSum := hOwed j
      simp only [hSame j hj hHolds] at hSum
      rw [Nat.add_right_cancel hSum]
      exact h.once j hj hHolds
    · intro j hj
      rw [hOpened] at hj
      have hNotLast : j ≠ last := by
        rintro rfl
        exact absurd (hQueued j (List.mem_of_getLast? hLast)) (Nat.not_lt.mpr hj)
      have hSum := hOwed j
      have hNotTold : ¬ (j = last ∧ c.alive j = true) := fun hTold => hNotLast hTold.1
      rw [h.fresh j hj, if_neg hNotTold] at hSum
      omega
  · intro id hNone
    cases hNone
  · have hSameUser : (c.failLast i last).userClose = c.userClose :=
      failLast_keeps Http1.userClose (fun _ _ _ => rfl) (fun _ _ _ => rfl) (fun _ _ => rfl)
        (fun _ _ _ => rfl) c i last
    have hSameConnected : (c.failLast i last).connected = c.connected :=
      failLast_keeps Http1.connected (fun _ _ _ => rfl) (fun _ _ _ => rfl) (fun _ _ => rfl)
        (fun _ _ _ => rfl) c i last
    rw [hSameUser, hSameConnected, hUser, hConnected]
    intro hOver
    cases hOver with
    | inl hClosed => cases hClosed
    | inr hLost => cases hLost

/-- The connector is lost: the queue and the feedbacks that wait for a write are told. -/
theorem lost (h : Balanced none c) : Balanced none c.loseConnector := by
  have hDown : Owing none { c with connected := false } :=
    h.toOwing.frame rfl rfl fun _ hHolds => hHolds
  rw [loseConnector, onConnectorNulled]
  split
  case isTrue hClosed =>
    exact { hDown with
      front := fun id hNone => by cases hNone
      closed := fun _ => h.closed (.inl hClosed) }
  case isFalse =>
    have hAll : Owing none (({ c with connected := false }.notifyAll .closedByClient).error
        .closedByClient) := (hDown.notifyAll .closedByClient).frame rfl rfl fun _ hHolds => hHolds
    refine { hAll.failed with
      front := fun id hNone => by cases hNone
      closed := fun _ => ⟨?_, fun f hf => absurd hf List.not_mem_nil⟩ }
    exact foldl_keeps Http1.localObjects (fun c (f : Feedback) => localError_localObjects c _ f.id) _ _

end Balanced

/-- What the functions of a connection do to the balance. -/
theorem Balanced.kept : Kept (Balanced none) (fun id => Balanced (some id)) FeedbackStep where
  edit hEdit h := h.set hEdit.received hEdit.held
  create hGuard hRole h := h.opens (hGuard hRole)
  ends _ _ _ h := h.set rfl fun hHolds => hHolds
  continues _ h := h.set rfl fun hHolds => hHolds
  postEnd _ _ h := by
    apply h.reposted
    intro j
    rw [postedAbout_append]
    rfl
  runEnd {c id rest} hPosted h := by
    have hTaken : Balanced none { c with posted := rest } := by
      apply h.reposted
      intro j
      rw [hPosted]
      rfl
    have hRuns : Balanced none { c with posted := rest, running := some id } :=
      hTaken.frame rfl rfl rfl (fun _ hHolds => hHolds) (fun _ hf => hf) fun hEnd => hEnd
    exact hRuns.set rfl fun hHolds => hHolds
  ran h := h.frame rfl rfl rfl (fun _ hHolds => hHolds) (fun _ hf => hf) fun hEnd => hEnd
  close {c} hGuard h := by
    have hClosed : ∀ d : Http1, d.owed = c.owed → d.locals = c.locals → d.opened = c.opened →
        d.pendingClearCallbacks = c.pendingClearCallbacks →
        Balanced none (d.notifyAll .connectionClosed) := by
      intro d hOwed hLocals hOpened hPending
      have hOwing : Owing none d := h.toOwing.frame hOpened hOwed (by rw [hLocals]; exact fun _ => id)
      constructor
      · exact hOwing.notifyAll .connectionClosed
      · intro id hNone
        cases hNone
      · intro _
        refine ⟨rfl, ?_⟩
        intro f hf
        rw [notifyAll_pending, hPending] at hf
        rw [notifyAll_held, hLocals]
        exact hGuard f hf
    rw [Http1.close]
    dsimp only
    split
    · exact hClosed _ rfl rfl rfl rfl
    · exact hClosed _ rfl rfl rfl rfl
  persistentSet _ h := h.frame rfl rfl rfl (fun _ hHolds => hHolds) (fun _ hf => hf) fun hEnd => hEnd
  headers {c c' id rest m} _ _ h hRun := by
    obtain ⟨bytes, encoder, -, rfl⟩ := notifyLocalHeaders_ok.mp hRun
    have hTaken : Balanced none (c.setLocal id { c.locals id with headers := none }) :=
      h.set rfl fun hHolds => hHolds
    apply Balanced.doWrite
    exact hTaken.frame rfl rfl rfl (fun _ hHolds => hHolds) (fun _ hf => hf) fun hEnd => hEnd
  body {c c' id rest} _ h hRun := by
    obtain ⟨bytes, encoder, -, rfl⟩ := notifyLocalBody_ok.mp hRun
    have hTaken : Balanced none (c.setLocal id { c.locals id with content := [] }) :=
      h.set rfl fun hHolds => hHolds
    apply Balanced.doWrite
    exact hTaken.frame rfl rfl rfl (fun _ hHolds => hHolds) (fun _ hf => hf) fun hEnd => hEnd
  trailer {c c' id rest key value} _ h hRun := by
    obtain ⟨bytes, encoder, -, rfl⟩ := notifyLocalTrailer_ok.mp hRun
    have hTaken : Balanced none (c.setLocal id { c.locals id with
        trailers := (c.locals id).trailers.tail }) := h.set rfl fun hHolds => hHolds
    apply Balanced.doWrite
    exact hTaken.frame rfl rfl rfl (fun _ hHolds => hHolds) (fun _ hf => hf) fun hEnd => hEnd
  finish hFront _ h hRun := by
    obtain ⟨bytes, encoder, -, rfl⟩ := notifyLocalEnd_ok.mp hRun
    exact (h.finish hFront).doWrite
  interim {c c' id rest} _ _ h hRun := by
    obtain ⟨header, first, eom, encoder, -, -, rfl⟩ := notifyContinue_ok.mp hRun
    have hTaken : Balanced none (c.setLocal id { c.locals id with continueRequired := false }) :=
      h.set rfl fun hHolds => hHolds
    apply Balanced.doWrite
    exact hTaken.frame rfl rfl rfl (fun _ hHolds => hHolds) (fun _ hf => hf) fun hEnd => hEnd
  removed h hRun := h.removed hRun
  expired _ _ h := ((Balanced.remote none).error .missingStreamElement h).notifyAll .missingStreamElement
  cleared {c f rest} hPosted h := by
    refine h.taken hPosted ?_ ?_ ?_ ?_ ?_ ?_ ?_
    · exact localCleared_keeps Http1.localObjects (fun _ _ _ => rfl) (fun _ _ => rfl) _ _
    · exact localCleared_keeps Http1.opened (fun _ _ _ => rfl) (fun _ _ => rfl) _ _
    · exact localCleared_owed _ f.id
    · exact localCleared_held _ f.id
    · exact localCleared_keeps Http1.pendingClearCallbacks (fun _ _ _ => rfl) (fun _ _ => rfl) _ _
    · exact localCleared_keeps Http1.userClose (fun _ _ _ => rfl) (fun _ _ => rfl) _ _
    · exact localCleared_keeps Http1.connected (fun _ _ _ => rfl) (fun _ _ => rfl) _ _
  failed {c f rest} hPosted h := by
    refine h.taken hPosted ?_ ?_ ?_ ?_ ?_ ?_ ?_
    · exact localError_localObjects _ _ _
    · exact localError_keeps Http1.opened (fun _ _ _ => rfl) (fun _ _ => rfl) _ _ _
    · exact localError_owed _ _ f.id
    · exact localError_held _ _ f.id
    · exact localError_keeps Http1.pendingClearCallbacks (fun _ _ _ => rfl) (fun _ _ => rfl) _ _ _
    · exact localError_keeps Http1.userClose (fun _ _ _ => rfl) (fun _ _ => rfl) _ _ _
    · exact localError_keeps Http1.connected (fun _ _ _ => rfl) (fun _ _ => rfl) _ _ _
  remoteEnded hPosted h := by
    refine (Balanced.remote none).setRemote _ _ (fun _ hShown => hShown) (h.reposted ?_)
    intro j
    rw [hPosted]
    rfl
  called hPosted h := by
    apply h.reposted
    intro j
    rw [hPosted]
    rfl
  decodingStart {c} hGuard h := by
    have hFlags := (Balanced.remote none).flags false false h
    rw [Http1.decodingStart]
    dsimp only
    split
    case isTrue hServer => exact hFlags.opens (hGuard hServer)
    case isFalse => exact hFlags
  decodedHeaders garbage m h := (Balanced.remote none).decodedHeaders garbage m h
  decodedBody bytes h := (Balanced.remote none).decodedBody bytes h
  decodedTrailer key value h := (Balanced.remote none).decodedTrailer key value h
  decodingEnd h := (Balanced.remote none).decodingEnd h
  decodingFailure {c c'} hGuard h hRun := by
    rcases hEq : c.getCurrent with ⟨current, d⟩
    cases current with
    | none =>
        rw [Http1.decodingFailure, hEq] at hRun
        cases hRun
        have hCurrent := (Balanced.remote none).getCurrent h
        rwa [hEq] at hCurrent
    | some i =>
        rw [decodingFailure_some hEq] at hRun
        cases hLast : c.localObjects.getLast? with
        | none =>
            rw [hLast] at hRun
            cases hRun
        | some last =>
            rw [hLast] at hRun
            cases hRun
            have hSome : c.getCurrent.1 ≠ none := by
              rw [hEq]
              intro hNone
              cases hNone
            cases hFront : c.localObjects with
            | nil =>
                rw [hFront] at hLast
                cases hLast
            | cons first rest =>
                have hAlone := hGuard.resolve_left hSome
                rw [hFront] at hAlone
                exact h.decodingFailure hFront hLast (hAlone first rfl) i
  written r _ h := h.written r
  stop h := h.frame rfl rfl rfl (fun _ hHolds => hHolds) (fun _ hf => hf) fun hEnd => hEnd
  lost _ h := h.lost

/-- The connection has been closed by the application or has lost its connector, and
everything that was posted has run. -/
structure Over (c : Http1) : Prop where
  down : c.userClose = true ∨ c.connected = false
  written : c.writing = none
  run : c.posted = []

/-- An object that the application still holds has been told, once. -/
theorem Balanced.told {c : Http1} (h : Balanced none c) (hOver : Over c) {id : Nat}
    (hOpened : id < c.opened) (hHeld : (c.locals id).held = true) :
    ∃ n, (c.locals id).received = [n] := by
  obtain ⟨hEmpty, hNobody⟩ := h.closed hOver.down
  have hPending : about c.pendingClearCallbacks id = 0 := by
    rw [about, List.countP_eq_zero]
    intro f hf hAbout
    have hFree := hNobody f hf
    rw [of_decide_eq_true hAbout, hHeld] at hFree
    cases hFree
  have hOwed := h.once id hOpened hHeld
  rw [owed, hEmpty, hPending, hOver.written, hOver.run] at hOwed
  exact List.length_eq_one_iff.mp hOwed

/-- What the local objects have been told when the connection is over, in any run: as long
as the callback `on_request_sent` only opens transactions, sets the persistency and edits
callbacks and references, the application does not close the connection while an object
that it holds waits for a write, no transaction is opened after it has closed it, and a
decoding failure strikes the only exchange or one that nobody holds, every local object that
is still held has been told once whether it has been cleared. -/
theorem local_objects_told_once (sent : Http1 → List UserOp) (fuel : Nat) (role : Role)
    (ops : List Op) (c : Http1) (hTamed : Tamed sent)
    (hSteps : Guarded FeedbackStep sent fuel { role := role } ops)
    (hRun : run sent fuel { role := role } ops = .ok c) (hOver : Over c) :
    ∀ id < c.opened, (c.locals id).held = true → ∃ n, (c.locals id).received = [n] := by
  have hKeeps : CallbackKeeps (Balanced none) (fun id => Balanced (some id)) sent := by
    refine hTamed.keeps ?_ ?_ ?_
    · intro id c _ h
      apply h.opens
      intro _
      cases hFront : c.localObjects with
      | nil =>
          have hHead := h.front id rfl
          rw [hFront] at hHead
          cases hHead
      | cons first rest => exact (h.going hFront).1
    · exact fun hEdit h => h.set hEdit.received hEdit.held
    · exact fun _ h => h.frame rfl rfl rfl (fun _ hHolds => hHolds) (fun _ hf => hf) fun hEnd => hEnd
  have h : Balanced none c := Balanced.kept.run hKeeps (Balanced.start role) hSteps hRun
  exact fun id hOpened hHeld => h.told hOver hOpened hHeld

/-- A response with its headers and its end, which a write in flight holds up. -/
def heldUpOps : List Op :=
  let response := Message.response
    { HttpResponse.fresh 200 with toStructuredData := StructuredData.fresh.setProtocol .HTTP11 }
  [.decodingStart, .user (.headers 0 response), .user (.finish 0), .posted]

/-- The response has been told when the connection is closed. -/
theorem local_objects_told_once_cleared :
    ∃ c, run (fun _ => []) 9 { role := .server }
        (heldUpOps ++ [.written .ok, .posted, .user .close]) = .ok c ∧
      ∀ id < c.opened, (c.locals id).held = true → ∃ n, (c.locals id).received = [n] := by
  have hSteps : Guarded FeedbackStep (fun _ => []) 9 { role := .server }
      (heldUpOps ++ [.written .ok, .posted, .user .close]) := by decide
  refine ⟨_, rfl, local_objects_told_once (fun _ => []) 9 .server _ _ ?_ hSteps rfl ?_⟩
  · intro c op hOp
    cases hOp
  · exact ⟨.inl rfl, rfl, rfl⟩

/-- The application closes the connection while the end of the response waits for the write
of its headers: nobody takes the feedback, and the response is never told. -/
theorem local_object_never_told :
    ∃ c, run (fun _ => []) 9 { role := .server }
        (heldUpOps ++ [.user .close, .written .cancelled]) = .ok c ∧ Over c ∧
      0 < c.opened ∧ (c.locals 0).held = true ∧ (c.locals 0).received = [] := by
  exact ⟨_, rfl, ⟨.inl rfl, rfl, rfl⟩, Nat.zero_lt_one, rfl, rfl⟩

end Http1

end Doormat.Protocol
