import Mathlib.Data.List.Nodup
import Doormat.Protocol.Stable

/-! The queues of a connection, and decoding failures: the exchange that a failing message
belongs to, and the exchange that `decoding_failure` takes off the queues. -/
namespace Doormat.Protocol

open Doormat.Http

namespace Http1

/-- The role of a connection never changes. -/
theorem role_stable (role : Role) : Stable (fun c => c.role = role) fun _ _ => True where
  doWrite h := by rwa [doWrite_role]
  written r _ h := by rwa [written_role]

/-- The queues hold transactions that have been opened, each at most once. -/
structure Queued (c : Http1) : Prop where
  locals : c.localObjects.Nodup
  localsOpened : ∀ id ∈ c.localObjects, id < c.opened
  remotes : c.remoteObjects.Nodup
  remotesOpened : ∀ id ∈ c.remoteObjects, id < c.opened

namespace Queued

variable {c : Http1}

theorem start (role : Role) : Queued { role := role } where
  locals := List.nodup_nil
  localsOpened := nofun
  remotes := List.nodup_nil
  remotesOpened := nofun

/-- A new transaction goes to the end of a queue. -/
theorem nodup_concat {n : Nat} {ids : List Nat} (h : ids.Nodup) (hOpened : ∀ id ∈ ids, id < n) :
    (ids ++ [n]).Nodup := by
  rw [List.nodup_append]
  refine ⟨h, List.nodup_singleton n, ?_⟩
  intro id hId m hm
  rw [List.mem_singleton.mp hm]
  exact (hOpened id hId).ne

theorem lt_succ_of_mem_concat {n : Nat} {ids : List Nat} (hOpened : ∀ id ∈ ids, id < n) :
    ∀ id ∈ ids ++ [n], id < n + 1 := by
  intro id hId
  rcases List.mem_append.mp hId with hId | hId
  · exact Nat.lt_succ_of_lt (hOpened id hId)
  · rw [List.mem_singleton.mp hId]
    exact Nat.lt_succ_self n

theorem stable : Stable Queued fun _ _ => True where
  setLocal _ _ h := { h with }
  setRemote _ _ _ h := { h with }
  shows _ _ _ h := { h with }
  post _ _ h := { h with }
  unpost h := { h with }
  running _ h := { h with }
  error _ h := { h with }
  opens _ h :=
    { locals := nodup_concat h.locals h.localsOpened
      localsOpened := lt_succ_of_mem_concat h.localsOpened
      remotes := nodup_concat h.remotes h.remotesOpened
      remotesOpened := lt_succ_of_mem_concat h.remotesOpened }
  clear _ :=
    { locals := List.nodup_nil
      localsOpened := nofun
      remotes := List.nodup_nil
      remotesOpened := nofun }
  userClose h := { h with }
  stop h := { h with }
  persistentSet _ h := { h with }
  encoder _ h := { h with }
  serialise _ _ h := { h with }
  doWrite h := by
    constructor
    · simpa using h.locals
    · simpa using h.localsOpened
    · simpa using h.remotes
    · simpa using h.remotesOpened
  sent _ _ h := { h with }
  feedback _ h := { h with }
  removed _ h :=
    { h with
      locals := h.locals.tail
      localsOpened := fun id hId => h.localsOpened id (List.mem_of_mem_tail hId) }
  flags _ _ h := { h with }
  received _ _ h := { h with }
  remoteTail h :=
    { h with
      remotes := h.remotes.tail
      remotesOpened := fun id hId => h.remotesOpened id (List.mem_of_mem_tail hId) }
  localTail h :=
    { h with
      locals := h.locals.tail
      localsOpened := fun id hId => h.localsOpened id (List.mem_of_mem_tail hId) }
  written r _ h := by
    constructor
    · simpa using h.locals
    · simpa using h.localsOpened
    · simpa using h.remotes
    · simpa using h.remotesOpened
  disconnect _ h := { h with }
  drained h := { h with }

end Queued

/-! ### What the objects are told -/

variable {c c' d : Http1} {i : Nat}

theorem localError_received (c : Http1) (e : ErrorCode) (id j : Nat) :
    ((c.localError e id).locals j).received =
      (c.locals j).received ++ if j = id then [.error e] else [] := by
  rw [localError]
  by_cases hj : j = id
  · subst hj
    split <;> simp [setLocal, post]
  · split <;> simp [setLocal, post, hj]

/-- What `error` of a local object keeps. -/
theorem localError_keeps {α : Type} (f : Http1 → α) (hLocal : ∀ (c : Http1) id l, f (c.setLocal id l) = f c)
    (hPost : ∀ (c : Http1) id, f (c.post [.callback id]) = f c) (c : Http1) (e : ErrorCode)
    (id : Nat) : f (c.localError e id) = f c := by
  rw [localError]
  split
  · rw [hPost, hLocal]
  · rw [hLocal]

@[simp] theorem localError_role (c : Http1) (e : ErrorCode) (id : Nat) :
    (c.localError e id).role = c.role :=
  localError_keeps Http1.role (fun _ _ _ => rfl) (fun _ _ => rfl) c e id

@[simp] theorem localError_localObjects (c : Http1) (e : ErrorCode) (id : Nat) :
    (c.localError e id).localObjects = c.localObjects :=
  localError_keeps Http1.localObjects (fun _ _ _ => rfl) (fun _ _ => rfl) c e id

@[simp] theorem localError_remoteObjects (c : Http1) (e : ErrorCode) (id : Nat) :
    (c.localError e id).remoteObjects = c.remoteObjects :=
  localError_keeps Http1.remoteObjects (fun _ _ _ => rfl) (fun _ _ => rfl) c e id

@[simp] theorem localError_remotes (c : Http1) (e : ErrorCode) (id : Nat) :
    (c.localError e id).remotes = c.remotes :=
  localError_keeps Http1.remotes (fun _ _ _ => rfl) (fun _ _ => rfl) c e id

theorem getCurrent_some (h : c.getCurrent = (some i, d)) :
    d = c ∧ (c.remotes i).terminated = false ∧ ∃ rest, c.remoteObjects = i :: rest := by
  rw [getCurrent] at h
  split at h
  · cases h
  split at h
  · cases h
  case h_2 id rest hRemotes =>
    split at h
    · cases h
    case isFalse hOpen =>
      cases h
      exact ⟨rfl, by simpa using hOpen, rest, hRemotes⟩

theorem getCurrent_none (h : c.getCurrent = (none, d)) :
    d.localObjects = c.localObjects ∧ d.remoteObjects = c.remoteObjects ∧
      d.locals = c.locals ∧ d.remotes = c.remotes := by
  rw [getCurrent] at h
  split at h
  · cases h
    exact ⟨rfl, rfl, rfl, rfl⟩
  split at h
  · cases h
    exact ⟨rfl, rfl, rfl, rfl⟩
  · split at h
    · cases h
      exact ⟨rfl, rfl, rfl, rfl⟩
    · cases h

theorem remoteEnd_remotes (h : (c.remotes i).terminated = false) (e : RemoteEvent) :
    (c.remoteEnd i e).remotes = Function.update c.remotes i
      { terminated := c.role = .server, received := (c.remotes i).received ++ [e] } := by
  rw [remoteEnd, if_neg (by simp [h])]
  dsimp only
  split
  · rfl
  · rfl

/-- To tell a remote object that it has ended changes nothing of the local objects. -/
theorem remoteEnd_keeps {α : Type} (f : Http1 → α) (hRemote : ∀ (c : Http1) r, f (c.setRemote i r) = f c)
    (hPost : ∀ c : Http1, f (c.post [.remoteEnded i]) = f c) (c : Http1) (e : RemoteEvent) :
    f (c.remoteEnd i e) = f c := by
  rw [remoteEnd]
  split
  · rfl
  dsimp only
  split
  · exact hRemote c _
  · rw [hPost, hRemote]

@[simp] theorem remoteEnd_role (c : Http1) (i : Nat) (e : RemoteEvent) :
    (c.remoteEnd i e).role = c.role :=
  remoteEnd_keeps Http1.role (fun _ _ => rfl) (fun _ => rfl) c e

@[simp] theorem remoteEnd_localObjects (c : Http1) (i : Nat) (e : RemoteEvent) :
    (c.remoteEnd i e).localObjects = c.localObjects :=
  remoteEnd_keeps Http1.localObjects (fun _ _ => rfl) (fun _ => rfl) c e

@[simp] theorem remoteEnd_locals (c : Http1) (i : Nat) (e : RemoteEvent) :
    (c.remoteEnd i e).locals = c.locals :=
  remoteEnd_keeps Http1.locals (fun _ _ => rfl) (fun _ => rfl) c e

@[simp] theorem remoteEnd_alive (c : Http1) (i : Nat) (e : RemoteEvent) :
    (c.remoteEnd i e).alive = c.alive := by
  apply remoteEnd_keeps Http1.alive (fun _ _ => rfl)
  intro c
  funext id
  simp [alive, post, Posted.holds]

theorem foldl_keeps {α β : Type} {g : Http1 → α → Http1} (f : Http1 → β)
    (hg : ∀ c a, f (g c a) = f c) (as : List α) (c : Http1) : f (as.foldl g c) = f c := by
  induction as generalizing c with
  | nil => rfl
  | cons a as ih => rw [List.foldl_cons, ih, hg]

/-- What `notify_all` keeps. -/
theorem notifyAll_keeps {α : Type} (f : Http1 → α) (hRemote : ∀ (c : Http1) id r, f (c.setRemote id r) = f c)
    (hLocal : ∀ (c : Http1) id l, f (c.setLocal id l) = f c)
    (hPost : ∀ (c : Http1) ps, f (c.post ps) = f c)
    (hClear : ∀ c : Http1, f { c with remoteObjects := [], localObjects := [] } = f c)
    (c : Http1) (e : ErrorCode) : f (c.notifyAll e) = f c := by
  rw [notifyAll, hClear, foldl_keeps f]
  · apply foldl_keeps f
    intro c id
    exact remoteEnd_keeps f (fun c => hRemote c id) (fun c => hPost c _) c _
  · intro c id
    split
    · exact localError_keeps f hLocal (fun c _ => hPost c _) c e id
    · rfl

@[simp] theorem notifyAll_role (c : Http1) (e : ErrorCode) : (c.notifyAll e).role = c.role :=
  notifyAll_keeps Http1.role (fun _ _ _ => rfl) (fun _ _ _ => rfl) (fun _ _ => rfl) (fun _ => rfl) c e

@[simp] theorem notifyAll_userClose (c : Http1) (e : ErrorCode) :
    (c.notifyAll e).userClose = c.userClose :=
  notifyAll_keeps Http1.userClose (fun _ _ _ => rfl) (fun _ _ _ => rfl) (fun _ _ => rfl)
    (fun _ => rfl) c e

@[simp] theorem notifyAll_errors (c : Http1) (e : ErrorCode) : (c.notifyAll e).errors = c.errors :=
  notifyAll_keeps Http1.errors (fun _ _ _ => rfl) (fun _ _ _ => rfl) (fun _ _ => rfl)
    (fun _ => rfl) c e

/-- The connection after the current remote object has been told of the failure. -/
def failCurrent (c : Http1) (i : Nat) : Http1 :=
  { c.remoteEnd i (.error .decoding) with remoteObjects := c.remoteObjects.tail }

theorem failCurrent_received (h : (c.remotes i).terminated = false) (j : Nat) :
    ((c.failCurrent i).remotes j).received =
      (c.remotes j).received ++ if j = i then [.error .decoding] else [] := by
  rw [failCurrent]
  dsimp only
  rw [remoteEnd_remotes h]
  by_cases hj : j = i
  · subst hj
    simp
  · simp [hj]

@[simp] theorem failCurrent_localObjects (c : Http1) (i : Nat) :
    (c.failCurrent i).localObjects = c.localObjects := remoteEnd_localObjects c i _

@[simp] theorem failCurrent_locals (c : Http1) (i : Nat) :
    (c.failCurrent i).locals = c.locals := remoteEnd_locals c i _

@[simp] theorem failCurrent_alive (c : Http1) (i id : Nat) :
    (c.failCurrent i).alive id = c.alive id := congrFun (remoteEnd_alive c i _) id

/-- The connection after `decoding_failure` has told the last local object. -/
def failLast (c : Http1) (i last : Nat) : Http1 :=
  { (if c.alive last then (c.failCurrent i).localError .decoding last else c.failCurrent i) with
    localObjects := c.localObjects.tail }

theorem failLast_remoteObjects (c : Http1) (i last : Nat) :
    (c.failLast i last).remoteObjects = c.remoteObjects.tail := by
  rw [failLast]
  dsimp only
  split
  · rw [localError_remoteObjects]
    rfl
  · rfl

theorem failLast_remotes (c : Http1) (i last : Nat) :
    (c.failLast i last).remotes = (c.failCurrent i).remotes := by
  rw [failLast]
  dsimp only
  split
  · rw [localError_remotes]
  · rfl

theorem failLast_received (c : Http1) (i last j : Nat) :
    ((c.failLast i last).locals j).received =
      (c.locals j).received ++ if j = last ∧ c.alive j then [.error .decoding] else [] := by
  rw [failLast]
  dsimp only
  by_cases hAlive : c.alive last
  · rw [if_pos hAlive, localError_received, failCurrent_locals]
    by_cases hj : j = last
    · subst hj
      simp [hAlive]
    · simp [hj]
  · rw [if_neg hAlive, failCurrent_locals]
    by_cases hj : j = last
    · subst hj
      simp [hAlive]
    · simp [hj]

/-- What `decoding_failure` does when there is a current object. -/
theorem decodingFailure_some (h : c.getCurrent = (some i, d)) :
    c.decodingFailure = match c.localObjects.getLast? with
      | none => .error .emptyList
      | some last => .ok (c.failLast i last) := by
  have hSame := (getCurrent_some h).1
  rw [hSame] at h
  rw [decodingFailure, h]
  have hRemotes : ({ c.remoteEnd i (.error .decoding) with
      remoteObjects := (c.remoteEnd i (.error .decoding)).remoteObjects.tail } : Http1) =
      c.failCurrent i := by
    rw [remoteEnd_keeps Http1.remoteObjects (fun _ _ => rfl) (fun _ => rfl)]
    rfl
  dsimp only
  rw [hRemotes, remoteEnd_localObjects]
  cases c.localObjects.getLast? with
  | none => rfl
  | some last =>
      dsimp only
      rw [failCurrent_alive, failLast]
      split
      · simp
      · simp

/-! ### Isolation -/

/-- From `c` to `c'`, the exchange of the message that is being decoded is taken off both
queues and told of the failure, its local object if it is queued and alive; nothing else
changes in the queues, and nobody else is told. -/
structure Isolates (c c' : Http1) : Prop where
  remoteObjects : c'.remoteObjects = c.remoteObjects.filter fun j => c.getCurrent.1 ≠ some j
  localObjects : c'.localObjects = c.localObjects.filter fun j => c.getCurrent.1 ≠ some j
  remotes : ∀ j, (c'.remotes j).received = (c.remotes j).received ++
    if c.getCurrent.1 = some j then [.error .decoding] else []
  locals : ∀ j, (c'.locals j).received = (c.locals j).received ++
    if c.getCurrent.1 = some j ∧ j ∈ c.localObjects ∧ c.alive j then [.error .decoding] else []

/-- No object is current, or its local object is the first of the queue and, unless it and
the last one have both expired, the only one. -/
def FailsAlone (c : Http1) : Prop :=
  ∀ i, c.getCurrent.1 = some i → ∃ rest, c.localObjects = i :: rest ∧
    ∀ last, rest.getLast? = some last → c.alive i = false ∧ c.alive last = false

/-- In a queue without repetitions, the first transaction is the only one of its number. -/
theorem filter_ne_head {rest : List Nat} (h : (i :: rest).Nodup) :
    ((i :: rest).filter fun j => some i ≠ some j) = rest := by
  have hFresh : i ∉ rest := (List.nodup_cons.mp h).1
  have hRest : (rest.filter fun j => some i ≠ some j) = rest := by
    rw [List.filter_eq_self]
    rintro j hj
    apply decide_eq_true
    intro hEq
    exact hFresh (Option.some.inj hEq ▸ hj)
  rw [List.filter_cons_of_neg (by simp), hRest]

theorem getLast?_cons_cases (i : Nat) (rest : List Nat) :
    (rest = [] ∧ (i :: rest).getLast? = some i) ∨
      ∃ last, rest.getLast? = some last ∧ (i :: rest).getLast? = some last := by
  cases rest with
  | nil => exact .inl ⟨rfl, rfl⟩
  | cons j rest =>
      right
      refine ⟨(j :: rest).getLast (by simp), List.getLast?_eq_some_getLast (by simp), ?_⟩
      rw [List.getLast?_cons_cons]
      exact List.getLast?_eq_some_getLast (by simp)

theorem isolates_of_none (h : c.getCurrent = (none, d)) :
    ∃ c', c.decodingFailure = .ok c' ∧ Isolates c c' := by
  obtain ⟨hLocalObjects, hRemoteObjects, hLocals, hRemotes⟩ := getCurrent_none h
  refine ⟨d, by rw [decodingFailure, h], ?_⟩
  constructor
  · simp [h, hRemoteObjects]
  · simp [h, hLocalObjects]
  · simp [h, hRemotes]
  · simp [h, hLocals]

theorem isolates_of_failsAlone (hQueued : Queued c) (h : c.getCurrent = (some i, d))
    (hAlone : FailsAlone c) : ∃ c', c.decodingFailure = .ok c' ∧ Isolates c c' := by
  obtain ⟨rest, hLocals, hExpired⟩ := hAlone i (by rw [h])
  obtain ⟨-, hOpen, others, hRemotes⟩ := getCurrent_some h
  have hNodup := hQueued.locals
  have hNodupRemotes := hQueued.remotes
  rw [hLocals] at hNodup
  rw [hRemotes] at hNodupRemotes
  obtain ⟨last, hLast, hTold⟩ : ∃ last, c.localObjects.getLast? = some last ∧
      ∀ j, (j = last ∧ c.alive j = true) ↔ (i = j ∧ j ∈ c.localObjects ∧ c.alive j = true) := by
    rw [hLocals]
    rcases getLast?_cons_cases i rest with ⟨-, hLast⟩ | ⟨last, hRest, hLast⟩
    · refine ⟨i, hLast, ?_⟩
      intro j
      constructor
      · rintro ⟨rfl, hAlive⟩
        exact ⟨rfl, List.mem_cons_self, hAlive⟩
      · rintro ⟨rfl, -, hAlive⟩
        exact ⟨rfl, hAlive⟩
    · refine ⟨last, hLast, ?_⟩
      have hDead := hExpired last hRest
      intro j
      constructor
      · rintro ⟨rfl, hAlive⟩
        rw [hDead.2] at hAlive
        cases hAlive
      · rintro ⟨rfl, -, hAlive⟩
        rw [hDead.1] at hAlive
        cases hAlive
  refine ⟨c.failLast i last, by rw [decodingFailure_some h, hLast], ?_⟩
  constructor
  · rw [failLast_remoteObjects, h, hRemotes]
    exact (filter_ne_head hNodupRemotes).symm
  · show c.localObjects.tail = _
    rw [h, hLocals]
    exact (filter_ne_head hNodup).symm
  · intro j
    rw [failLast_remotes, failCurrent_received hOpen, h]
    simp only [Option.some.injEq, eq_comm]
  · intro j
    rw [failLast_received, h]
    simp only [hTold j, Option.some.injEq]

theorem failsAlone_of_isolates (hQueued : Queued c) (h : c.getCurrent = (some i, d))
    (hRun : c.decodingFailure = .ok c') (hIsolates : Isolates c c') : FailsAlone c := by
  intro j hj
  have hij : i = j := by simpa [h] using hj
  subst hij
  rw [decodingFailure_some h] at hRun
  have hNodup := hQueued.locals
  cases hLocals : c.localObjects with
  | nil =>
      rw [hLocals] at hRun
      cases hRun
  | cons head rest =>
      rw [hLocals] at hNodup
      have hFresh : head ∉ rest := (List.nodup_cons.mp hNodup).1
      have hCurrent : c.getCurrent.1 = some i := by rw [h]
      -- only the first transaction of the queue can be the one that is taken off
      have hHead : head = i := by
        by_contra hOther
        have hTail : c'.localObjects = rest := by
          rw [hLocals] at hRun
          split at hRun
          · cases hRun
          · cases hRun
            show c.localObjects.tail = rest
            rw [hLocals, List.tail_cons]
        have hFiltered := hIsolates.localObjects
        rw [hTail, hCurrent, hLocals, List.filter_cons_of_pos (by simpa using Ne.symm hOther)]
          at hFiltered
        exact hFresh (hFiltered ▸ List.mem_cons_self)
      subst hHead
      refine ⟨rest, rfl, ?_⟩
      intro last hRest
      have hOther : last ≠ head := by
        rintro rfl
        exact hFresh (List.mem_of_getLast? hRest)
      have hLast : c.localObjects.getLast? = some last := by
        rw [hLocals]
        rcases getLast?_cons_cases head rest with ⟨hNil, -⟩ | ⟨last', hRest', hLast⟩
        · rw [hNil] at hRest
          cases hRest
        · rw [hLast, ← hRest', hRest]
      rw [hLast] at hRun
      cases hRun
      have hTold := fun j => (failLast_received c head last j).symm.trans (hIsolates.locals j)
      constructor
      · simpa [hCurrent, hLocals, Ne.symm hOther] using hTold head
      · simpa [hCurrent, Ne.symm hOther] using hTold last

/-- In every reachable state, `decoding_failure` takes exactly the exchange of the failing
message off the queues and tells exactly its two objects, if and only if that exchange
fails alone. -/
theorem decoding_failure_isolates_iff (role : Role) (sent : Http1 → List UserOp) (fuel : Nat)
    (ops : List Op) (c : Http1) (hRun : run sent fuel { role := role } ops = .ok c) :
    (∃ c', c.decodingFailure = .ok c' ∧ Isolates c c') ↔ FailsAlone c := by
  have hQueued : Queued c :=
    Queued.stable.run (Queued.start role) (writesWithin_true sent fuel _ ops) hRun
  rcases hCurrent : c.getCurrent with ⟨current, d⟩
  cases current with
  | none =>
      constructor
      · intro _ i hi
        rw [hCurrent] at hi
        cases hi
      · intro _
        exact isolates_of_none hCurrent
  | some i =>
      constructor
      · rintro ⟨c', hFailure, hIsolates⟩
        exact failsAlone_of_isolates hQueued hCurrent hFailure hIsolates
      · exact isolates_of_failsAlone hQueued hCurrent

/-- The first request has been decoded, and the second one is being decoded. -/
def pipelinedRun : List Op := [.decodingStart, .decodingEnd, .decodingStart]

theorem decoding_failure_isolates_iff_pipelined :
    ∃ c, run (fun _ => []) 9 { role := .server } pipelinedRun = .ok c ∧
      ((∃ c', c.decodingFailure = .ok c' ∧ Isolates c c') ↔ FailsAlone c) :=
  ⟨_, rfl, decoding_failure_isolates_iff .server (fun _ => []) 9 pipelinedRun _ rfl⟩

/-- The second request fails: its own local object is told, and the one of the first
request, still owed its response, is taken off the queue. -/
theorem decoding_failure_strikes_another :
    ∃ c, run (fun _ => []) 9 { role := .server } pipelinedRun = .ok c ∧
      c.getCurrent.1 = some 1 ∧ c.localObjects = [0, 1] ∧
      c.decodingFailure.map (fun c => (c.localObjects, (c.locals 0).received,
        (c.locals 1).received)) = .ok ([1], [], [.error .decoding]) ∧
      ¬ ∃ c', c.decodingFailure = .ok c' ∧ Isolates c c' := by
  refine ⟨_, rfl, rfl, rfl, rfl, ?_⟩
  rintro ⟨c', hFailure, hIsolates⟩
  cases hFailure
  exact absurd hIsolates.localObjects (by decide)

end Http1

end Doormat.Protocol
