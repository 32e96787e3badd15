import Doormat.Protocol.Feedback
import Doormat.Protocol.Polling

/-! How long a response lives: the queue holds it weakly, and once its handler has dropped it
nothing but the closure that ends it keeps it alive. -/
namespace Doormat.Protocol

open Bytes Doormat.Http

/-- The response whose end the closure brings. -/
def Posted.endsOf : Posted → Option Nat
  | .endResponse id => some id
  | _ => none

/-- The response that the closure calls back. -/
def Posted.callsOf : Posted → Option Nat
  | .callback id => some id
  | _ => none

namespace Http1

variable {c c' d : Http1} {id : Nat}

/-- The responses whose end has been called and waits to be run. -/
def ending (c : Http1) : List Nat := c.posted.filterMap Posted.endsOf

/-- The objects whose callbacks wait to be run. -/
def calling (c : Http1) : List Nat := c.posted.filterMap Posted.callsOf

theorem mem_ending : id ∈ c.ending ↔ .endResponse id ∈ c.posted := by
  rw [ending, List.mem_filterMap]
  constructor
  · intro ⟨p, hMem, hEnds⟩
    cases p with
    | endResponse i =>
        cases hEnds
        exact hMem
    | feedback | remoteEnded | callback => cases hEnds
  · intro hMem
    exact ⟨_, hMem, rfl⟩

theorem ending_post (c : Http1) (ps : List Posted) :
    (c.post ps).ending = c.ending ++ ps.filterMap Posted.endsOf := List.filterMap_append

theorem calling_post (c : Http1) (ps : List Posted) :
    (c.post ps).calling = c.calling ++ ps.filterMap Posted.callsOf := List.filterMap_append

/-- What a write posts neither ends a response nor calls back. -/
theorem filterMap_feedbacks {f : Posted → Option Nat} (hf : ∀ g b, f (.feedback g b) = none)
    (fs : List Feedback) (success : Bool) : (fs.map fun g => Posted.feedback g success).filterMap f = [] := by
  rw [List.filterMap_eq_nil_iff]
  intro p hp
  obtain ⟨g, -, rfl⟩ := List.mem_map.mp hp
  exact hf g success

@[simp] theorem doWrite_ending (c : Http1) : c.doWrite.ending = c.ending := by
  apply doWrite_keeps ending (fun _ _ _ => rfl) (fun _ _ => rfl) _ fun _ => rfl
  intro c
  show (c.post _).ending = _
  rw [ending_post, filterMap_feedbacks fun _ _ => rfl, List.append_nil]

@[simp] theorem doWrite_calling (c : Http1) : c.doWrite.calling = c.calling := by
  apply doWrite_keeps calling (fun _ _ _ => rfl) (fun _ _ => rfl) _ fun _ => rfl
  intro c
  show (c.post _).calling = _
  rw [calling_post, filterMap_feedbacks fun _ _ => rfl, List.append_nil]

@[simp] theorem doWrite_running (c : Http1) : c.doWrite.running = c.running :=
  doWrite_keeps Http1.running (fun _ _ _ => rfl) (fun _ _ => rfl) (fun _ => rfl) (fun _ => rfl) c

/-- The completion of a write posts feedbacks only. -/
theorem written_filterMap {f : Posted → Option Nat} (hf : ∀ g b, f (.feedback g b) = none) (r : WriteResult) :
    (c.written r).posted.filterMap f = c.posted.filterMap f := by
  have hPost : ∀ (c : Http1) (fs : List Feedback) success, (c.post (fs.map fun g => .feedback g success)).posted.filterMap f =
      c.posted.filterMap f := by
    intro c fs success
    rw [post, List.filterMap_append, filterMap_feedbacks hf, List.append_nil]
  have hWrite : ∀ c : Http1, c.connectorDoWrite.posted.filterMap f = c.posted.filterMap f := by
    apply connectorDoWrite_keeps (fun c : Http1 => c.posted.filterMap f) (fun _ _ _ => rfl) fun _ _ => rfl
    · intro c
      exact hPost c _ true
    · intro c
      rfl
  rw [written]
  split
  · rfl
  case h_2 w hw =>
    cases r with
    | ok =>
        dsimp only
        rw [hWrite, hPost]
    | failed =>
        dsimp only
        rw [hPost]
        rfl
    | cancelled =>
        dsimp only
        rw [hPost]

@[simp] theorem written_ending (c : Http1) (r : WriteResult) : (c.written r).ending = c.ending :=
  written_filterMap (fun _ _ => rfl) r

@[simp] theorem written_calling (c : Http1) (r : WriteResult) : (c.written r).calling = c.calling :=
  written_filterMap (fun _ _ => rfl) r

@[simp] theorem written_running (c : Http1) (r : WriteResult) : (c.written r).running = c.running := by
  have hWrite : ∀ c : Http1, c.connectorDoWrite.running = c.running :=
    connectorDoWrite_keeps Http1.running (fun _ _ _ => rfl) (fun _ _ => rfl) (fun _ => rfl) fun _ => rfl
  rw [written]
  split
  · rfl
  · cases r with
    | ok => exact hWrite _
    | failed => rfl
    | cancelled => rfl

/-! ### What polling leaves behind -/

/-- What the loop of `poll_local` does to what keeps the objects alive; `finished` tells
whether the end of the object has been serialised. -/
structure Leaves (id : Nat) (finished : Bool) (c c' : Http1) : Prop where
  running : c'.running = c.running
  ending : c'.ending = c.ending
  calling : c'.calling = c.calling
  log : ∀ h ∈ c.log, h ∈ c'.log
  ended : finished = true → .ended id ∈ c'.log
  owed : ∀ j, c'.owed j = c.owed j + if finished = true ∧ j = id then 1 else 0

theorem Touches.queued (h : Touches id c d) (hQueued : Queued c) : Queued d where
  locals := by
    rw [h.localObjects]
    exact hQueued.locals
  localsOpened := by
    rw [h.localObjects, h.opened]
    exact hQueued.localsOpened
  remotes := by
    rw [h.remoteObjects]
    exact hQueued.remotes
  remotesOpened := by
    rw [h.remoteObjects, h.opened]
    exact hQueued.remotesOpened

theorem Leaves.refl (id : Nat) (c : Http1) : Leaves id false c c :=
  ⟨rfl, rfl, rfl, fun _ hMem => hMem, nofun, fun _ => rfl⟩

theorem Leaves.trans {finished : Bool} (h : Leaves id false c d) (h' : Leaves id finished d c') :
    Leaves id finished c c' where
  running := h'.running.trans h.running
  ending := h'.ending.trans h.ending
  calling := h'.calling.trans h.calling
  log e hMem := h'.log e (h.log e hMem)
  ended := h'.ended
  owed j := by
    rw [h'.owed, h.owed]
    rfl

/-- A notification that serialises something of the object. -/
theorem Leaves.serialised {l : Local} {encoder : Encoder} {bytes : ByteString}
    (hReceived : l.received = (c.locals id).received) (hc : c'.running = c.running)
    (hPosted : c'.posted = c.posted) (hLog : ∀ h ∈ c.log, h ∈ c'.log) (hOwed : c'.owed = (c.setLocal id l).owed) :
    Leaves id false c ({ c' with encoder := encoder }.serialise id bytes).doWrite where
  running := by
    rw [doWrite_running]
    exact hc
  ending := by
    rw [doWrite_ending]
    exact congrArg (List.filterMap Posted.endsOf) hPosted
  calling := by
    rw [doWrite_calling]
    exact congrArg (List.filterMap Posted.callsOf) hPosted
  log h hMem := by
    rw [doWrite_log]
    exact List.mem_append_left _ (hLog h hMem)
  ended := nofun
  owed j := by
    rw [doWrite_owed]
    show c'.owed j = _
    rw [hOwed, setLocal_owed (congrArg List.length hReceived)]
    rfl

theorem notifyLocalHeaders_leaves {m : Message} (hRun : c.notifyLocalHeaders id m = .ok c') :
    Leaves id false c c' := by
  obtain ⟨bytes, encoder, -, rfl⟩ := notifyLocalHeaders_ok.mp hRun
  exact .serialised (l := { c.locals id with headers := none }) rfl rfl rfl
    (fun h hMem => List.mem_append_left _ hMem) rfl

theorem notifyLocalBody_leaves (hRun : c.notifyLocalBody id = .ok c') : Leaves id false c c' := by
  obtain ⟨bytes, encoder, -, rfl⟩ := notifyLocalBody_ok.mp hRun
  exact .serialised (l := { c.locals id with content := [] }) rfl rfl rfl (fun _ hMem => hMem) rfl

theorem notifyLocalTrailer_leaves {key value : ByteString}
    (hRun : c.notifyLocalTrailer id key value = .ok c') : Leaves id false c c' := by
  obtain ⟨bytes, encoder, -, rfl⟩ := notifyLocalTrailer_ok.mp hRun
  exact .serialised (l := { c.locals id with trailers := (c.locals id).trailers.tail }) rfl rfl rfl
    (fun _ hMem => hMem) rfl

theorem notifyContinue_leaves (hRun : c.notifyContinue id = .ok c') : Leaves id false c c' := by
  obtain ⟨header, first, eom, encoder, -, -, rfl⟩ := notifyContinue_ok.mp hRun
  exact .serialised (l := c.locals id) rfl rfl rfl (fun _ hMem => hMem) (by rw [setLocal_self])

theorem notifyLocalEnd_leaves (hRun : c.notifyLocalEnd id = .ok c') : Leaves id true c c' := by
  obtain ⟨bytes, encoder, -, rfl⟩ := notifyLocalEnd_ok.mp hRun
  constructor
  · rw [doWrite_running]
    rfl
  · rw [doWrite_ending]
    rfl
  · rw [doWrite_calling]
    rfl
  · intro h hMem
    rw [doWrite_log]
    exact List.mem_append_left _ (List.mem_append_left _ hMem)
  · intro _
    rw [doWrite_log]
    exact List.mem_append_right _ (List.mem_singleton.mpr rfl)
  · intro j
    rw [doWrite_owed]
    simp only [owed, queueFeedback, record, serialise, about, List.countP_append, List.countP_singleton,
      decide_eq_true_eq, true_and]
    by_cases hj : j = id
    · subst hj
      simp only [if_true]
      omega
    · rw [if_neg hj, if_neg (Ne.symm hj)]
      omega

theorem pollLoop_leaves {fuel : Nat} {b : Bool} (hRun : pollLoop id fuel c = .ok (c', b)) :
    Leaves id b c c' := by
  induction fuel generalizing c with
  | zero => cases hRun
  | succ fuel ih =>
      rw [pollLoop] at hRun
      have hReceived : (c.locals id).getState.2.received = (c.locals id).received := by
        rw [Local.getState]
        repeat' split
        all_goals rfl
      rcases hGet : (c.locals id).getState with ⟨state, l⟩
      rw [hGet] at hRun hReceived
      dsimp only at hRun hReceived
      have hSet : Leaves id false c (c.setLocal id l) :=
        ⟨rfl, rfl, rfl, fun _ hMem => hMem, (fun h => by cases h),
          fun j => congrFun (setLocal_owed (congrArg List.length hReceived)) j⟩
      apply hSet.trans
      generalize c.setLocal id l = d at hRun
      cases state with
      | sendContinue =>
          obtain ⟨e, hStep, hRest⟩ := bind_eq_ok.mp hRun
          cases hRest
          exact notifyContinue_leaves hStep
      | pending =>
          cases hRun
          exact .refl id _
      | headersReceived =>
          cases hHeaders : l.headers with
          | none =>
              simp only [hHeaders] at hRun
              cases hRun
              exact .refl id _
          | some m =>
              simp only [hHeaders] at hRun
              obtain ⟨e, hStep, hRest⟩ := bind_eq_ok.mp hRun
              exact (notifyLocalHeaders_leaves hStep).trans (ih hRest)
      | bodyReceived =>
          obtain ⟨e, hStep, hRest⟩ := bind_eq_ok.mp hRun
          exact (notifyLocalBody_leaves hStep).trans (ih hRest)
      | trailerReceived =>
          cases hTrailers : l.trailers with
          | nil =>
              simp only [hTrailers] at hRun
              cases hRun
              exact .refl id _
          | cons trailer rest =>
              simp only [hTrailers] at hRun
              obtain ⟨e, hStep, hRest⟩ := bind_eq_ok.mp hRun
              exact (notifyLocalTrailer_leaves hStep).trans (ih hRest)
      | ended =>
          obtain ⟨e, hStep, hRest⟩ := bind_eq_ok.mp hRun
          cases hRest
          exact notifyLocalEnd_leaves hStep

/-! ### Owners -/

/-- The response has been polled to its end, and nobody is left to give it anything. -/
def Polled (c : Http1) (id : Nat) : Prop :=
  (c.locals id).held = false ∧ .ended id ∈ c.log ∧ (c.locals id).drained = c.locals id

/-- The response has been told that the connection is over. -/
def ToldOver (c : Http1) (id : Nat) : Prop :=
  .error .closedByClient ∈ (c.locals id).received ∨ .error .connectionClosed ∈ (c.locals id).received

/-- Nothing but the application, the closure that ends it, and the closure that runs keeps a
response of the queue alive. -/
theorem alive_iff_of_owing (hCount : c.localObjects.count id = 1)
    (hOwing : c.owed id = (c.locals id).received.length + 1) (hCalling : id ∉ c.calling)
    (hMyself : (c.locals id).myself = false) :
    c.alive id = true ↔ (c.locals id).held = true ∨ id ∈ c.ending ∨ c.running = some id := by
  rw [owed, hCount] at hOwing
  have hPending : c.pendingClearCallbacks.any (·.id = id) = false := by
    rw [List.any_eq_false]
    apply List.countP_eq_zero.mp
    show about c.pendingClearCallbacks id = 0
    omega
  have hWriting : (c.writing.any fun w => w.feedbacks.any (·.id = id)) = false := by
    cases hWriting : c.writing with
    | none => rfl
    | some w =>
        rw [hWriting] at hOwing
        rw [Option.any_some, List.any_eq_false]
        apply List.countP_eq_zero.mp
        show about w.feedbacks id = 0
        simp only [Option.map_some, Option.getD_some] at hOwing
        omega
  have hPosted : c.posted.any (Posted.holds id) = true ↔ id ∈ c.ending := by
    rw [mem_ending, List.any_eq_true]
    constructor
    · intro hSome
      obtain ⟨p, hp, hHolds⟩ := hSome
      cases p with
      | endResponse i =>
          rw [Posted.holds, decide_eq_true_eq] at hHolds
          rwa [hHolds] at hp
      | feedback f success =>
          have hNone : postedAbout c.posted id = 0 := by omega
          exact absurd hHolds (List.countP_eq_zero.mp hNone _ hp)
      | remoteEnded => cases hHolds
      | callback i =>
          rw [Posted.holds, decide_eq_true_eq] at hHolds
          rw [hHolds] at hp
          exact (hCalling (List.mem_filterMap.mpr ⟨_, hp, rfl⟩)).elim
    · intro hp
      exact ⟨_, hp, decide_eq_true rfl⟩
  rw [alive, hMyself, hPending, hWriting]
  simp only [Bool.or_false, Bool.or_eq_true, hPosted, Option.any_eq_true, decide_eq_true_eq,
    exists_eq_right, or_assoc]

/-- A server some of whose responses have been dropped: the queue holds what is still owned, and
what has left it has been polled to its end or told that the connection is over. Only the first
response of the queue may have ended. -/
structure Tended (c : Http1) : Prop where
  role : c.role = .server
  queue : Queued c
  fresh : ∀ id, c.opened ≤ id → c.locals id = {} ∧ c.owed id = 0
  owing : ∀ id ∈ c.localObjects, c.owed id = (c.locals id).received.length + 1
  selfless : ∀ id, (c.locals id).myself = false
  owned : ∀ id ∈ c.localObjects, (c.locals id).held = true ∨ id ∈ c.ending ∨ c.running = some id
  ending : c.ending.Nodup
  endingOpened : ∀ id ∈ c.ending, id < c.opened
  calling : ∀ id ∈ c.calling, id < c.opened ∧ id ∉ c.localObjects
  waiting : ∀ id ∈ c.localObjects.tail, (c.locals id).ended = false
  dropped : ∀ id ∈ c.localObjects, (c.locals id).ended = true →
    (c.locals id).held = false ∧ (c.locals id).continueRequired = false
  settled : ∀ id < c.opened, id ∈ c.localObjects ∨ c.Polled id ∨ c.ToldOver id

/-- Nobody in the queue has ended, and the first response requires no continue. -/
structure Rests (c : Http1) : Prop where
  ongoing : ∀ id ∈ c.localObjects, (c.locals id).ended = false
  head : ∀ id ∈ c.localObjects.head?, (c.locals id).continueRequired = false

namespace Tended

theorem start : Tended { role := .server } where
  role := rfl
  queue := Queued.start .server
  fresh _ _ := ⟨rfl, rfl⟩
  owing := nofun
  selfless _ := rfl
  owned := nofun
  ending := List.nodup_nil
  endingOpened := nofun
  calling := nofun
  waiting := nofun
  dropped := nofun
  settled _ h := by cases h

/-- What leaves the local objects as they are, and what keeps them but for feedbacks and
callbacks. -/
theorem sheds (h : Tended c) (hQueue : Queued d) (hRole : d.role = c.role)
    (hObjects : d.localObjects = c.localObjects) (hOpened : d.opened = c.opened)
    (hLocals : d.locals = c.locals) (hOwed : ∀ j, d.owed j ≤ c.owed j) (hEnding : d.ending = c.ending)
    (hCalling : ∀ j ∈ d.calling, j ∈ c.calling) (hRunning : d.running = c.running)
    (hLog : ∀ id, .ended id ∈ c.log → .ended id ∈ d.log) : Tended d where
  role := hRole.trans h.role
  queue := hQueue
  fresh := by
    intro id hId
    rw [hOpened] at hId
    obtain ⟨hNew, hNone⟩ := h.fresh id hId
    rw [hLocals]
    exact ⟨hNew, Nat.le_zero.mp (hNone ▸ hOwed id)⟩
  owing := by
    intro id hMem
    have hLeft := hOwed id
    have hCount : d.localObjects.count id = 1 := List.count_eq_one_of_mem hQueue.locals hMem
    rw [hObjects] at hMem
    rw [h.owing id hMem] at hLeft
    rw [owed, hCount, hLocals] at hLeft ⊢
    omega
  selfless := by
    rw [hLocals]
    exact h.selfless
  owned := by
    rw [hObjects, hLocals, hEnding, hRunning]
    exact h.owned
  ending := by
    rw [hEnding]
    exact h.ending
  endingOpened := by
    rw [hEnding, hOpened]
    exact h.endingOpened
  calling := by
    rw [hObjects, hOpened]
    exact fun j hj => h.calling j (hCalling j hj)
  waiting := by
    rw [hObjects, hLocals]
    exact h.waiting
  dropped := by
    rw [hObjects, hLocals]
    exact h.dropped
  settled := by
    intro id hId
    rw [hOpened] at hId
    rw [hObjects, Polled, ToldOver, hLocals]
    rcases h.settled id hId with hIn | ⟨hHeld, hEnded, hDrained⟩ | hOver
    · exact .inl hIn
    · exact .inr (.inl ⟨hHeld, hLog id hEnded, hDrained⟩)
    · exact .inr (.inr hOver)

theorem alive_iff (h : Tended c) (hMem : id ∈ c.localObjects) :
    c.alive id = true ↔ (c.locals id).held = true ∨ id ∈ c.ending ∨ c.running = some id :=
  alive_iff_of_owing (List.count_eq_one_of_mem h.queue.locals hMem) (h.owing id hMem)
    (fun hCalls => (h.calling id hCalls).2 hMem) (h.selfless id)

theorem alive (h : Tended c) (hMem : id ∈ c.localObjects) : c.alive id = true :=
  (h.alive_iff hMem).mpr (h.owned id hMem)

/-- An edit by the application of a response that it holds, or the drop of one. -/
theorem edit (h : Tended c) {l : Local} (hId : id < c.opened) (hHeld : (c.locals id).held = true)
    (hEnded : l.ended = (c.locals id).ended) (hReceived : l.received = (c.locals id).received)
    (hMyself : l.myself = false) (hOwned : l.held = true ∨ id ∈ c.ending) :
    Tended (c.setLocal id l) := by
  have hOther : ∀ {j}, j ≠ id → (c.setLocal id l).locals j = c.locals j := setLocal_locals_of_ne
  have hSelf : (c.setLocal id l).locals id = l := setLocal_locals_self c id l
  have hOwed : (c.setLocal id l).owed = c.owed := setLocal_owed (congrArg List.length hReceived)
  have hOngoing : id ∈ c.localObjects → l.ended = false := by
    intro hMem
    by_contra hNot
    rw [hEnded, Bool.not_eq_false] at hNot
    rw [(h.dropped id hMem hNot).1] at hHeld
    cases hHeld
  constructor
  · exact h.role
  · exact { h.queue with }
  · intro j hj
    rw [hOther (ne_of_gt (lt_of_lt_of_le hId hj)), hOwed]
    exact h.fresh j hj
  · intro j hj
    rw [hOwed, h.owing j hj]
    by_cases hSame : j = id
    · rw [hSame, hSelf, hReceived]
    · rw [hOther hSame]
  · intro j
    by_cases hSame : j = id
    · rw [hSame, hSelf, hMyself]
    · rw [hOther hSame]
      exact h.selfless j
  · intro j hj
    by_cases hSame : j = id
    · rw [hSame, hSelf]
      exact hOwned.imp_right .inl
    · rw [hOther hSame]
      exact h.owned j hj
  · exact h.ending
  · exact h.endingOpened
  · exact h.calling
  · intro j hj
    by_cases hSame : j = id
    · rw [hSame, hSelf]
      exact hOngoing (hSame ▸ List.mem_of_mem_tail hj)
    · rw [hOther hSame]
      exact h.waiting j hj
  · intro j hj hEnds
    by_cases hSame : j = id
    · rw [hSame, hSelf, hOngoing (hSame ▸ hj)] at hEnds
      cases hEnds
    · rw [hOther hSame] at hEnds ⊢
      exact h.dropped j hj hEnds
  · intro j hj
    rw [Polled, ToldOver]
    by_cases hSame : j = id
    · subst hSame
      rw [hSelf, hReceived]
      refine (h.settled j hj).imp_right fun hGone => .inr (hGone.resolve_left ?_)
      intro hPolled
      cases hHeld.symm.trans hPolled.1
    · rw [hOther hSame]
      exact h.settled j hj

/-- The first response after it has been polled and has not finished. -/
theorem polled {rest : List Nat} (h : Tended c) (hFront : c.localObjects = id :: rest) {l : Local}
    (hTouches : Touches id c d) (hLeaves : Leaves id false c d) (hLocal : d.locals id = l)
    (hHeld : l.held = (c.locals id).held) (hReceived : l.received = (c.locals id).received)
    (hMyself : l.myself = (c.locals id).myself) (hEnded : l.ended = false) : Tended d := by
  have hMem : id ∈ c.localObjects := hFront ▸ List.mem_cons_self
  have hOwed : d.owed = c.owed := funext fun j => by simpa using hLeaves.owed j
  have hFresh : ∀ {j}, c.opened ≤ j → j ≠ id := fun hj hSame =>
    absurd (h.queue.localsOpened id hMem) (Nat.not_lt.mpr (hSame ▸ hj))
  constructor
  · exact hTouches.role.trans h.role
  · exact hTouches.queued h.queue
  · intro j hj
    rw [hTouches.opened] at hj
    rw [hTouches.locals j (hFresh hj), hOwed]
    exact h.fresh j hj
  · intro j hj
    rw [hTouches.localObjects] at hj
    rw [hOwed, h.owing j hj]
    by_cases hSame : j = id
    · rw [hSame, hLocal, hReceived]
    · rw [hTouches.locals j hSame]
  · intro j
    by_cases hSame : j = id
    · rw [hSame, hLocal, hMyself]
      exact h.selfless id
    · rw [hTouches.locals j hSame]
      exact h.selfless j
  · intro j hj
    rw [hTouches.localObjects] at hj
    rw [hLeaves.ending, hLeaves.running]
    by_cases hSame : j = id
    · rw [hSame, hLocal, hHeld]
      exact h.owned id hMem
    · rw [hTouches.locals j hSame]
      exact h.owned j hj
  · rw [hLeaves.ending]
    exact h.ending
  · rw [hLeaves.ending, hTouches.opened]
    exact h.endingOpened
  · rw [hLeaves.calling, hTouches.opened, hTouches.localObjects]
    exact h.calling
  · intro j hj
    rw [hTouches.localObjects] at hj
    by_cases hSame : j = id
    · rw [hSame, hLocal, hEnded]
    · rw [hTouches.locals j hSame]
      exact h.waiting j hj
  · intro j hj hEnds
    rw [hTouches.localObjects] at hj
    by_cases hSame : j = id
    · rw [hSame, hLocal, hEnded] at hEnds
      cases hEnds
    · rw [hTouches.locals j hSame] at hEnds ⊢
      exact h.dropped j hj hEnds
  · intro j hj
    rw [hTouches.opened] at hj
    rw [hTouches.localObjects, Polled, ToldOver]
    by_cases hSame : j = id
    · exact .inl (hSame ▸ hMem)
    · rw [hTouches.locals j hSame]
      exact (h.settled j hj).imp_right fun hGone => hGone.imp_left fun ⟨hNot, hEnd, hDrained⟩ =>
        ⟨hNot, hLeaves.log _ hEnd, hDrained⟩

/-- The first response has been polled to its end and is taken off the queue. -/
theorem popped {rest : List Nat} (h : Tended c) (hFront : c.localObjects = id :: rest)
    (hTouches : Touches id c d) (hLeaves : Leaves id true c d)
    (hLocal : d.locals id = (c.locals id).drained) (hEnded : (c.locals id).ended = true) :
    Tended { d.record (.removed id) with localObjects := rest } := by
  have hMem : id ∈ c.localObjects := hFront ▸ List.mem_cons_self
  have hNodup := h.queue.locals
  rw [hFront, List.nodup_cons] at hNodup
  have hRest : ∀ {j}, j ∈ rest → j ∈ c.localObjects := fun hj => hFront ▸ List.mem_cons_of_mem id hj
  have hOther : ∀ {j}, j ∈ rest → j ≠ id := fun hj hSame => hNodup.1 (hSame ▸ hj)
  have hTail : c.localObjects.tail = rest := congrArg List.tail hFront
  have hFresh : ∀ {j}, c.opened ≤ j → j ≠ id := fun hj hSame =>
    absurd (h.queue.localsOpened id hMem) (Nat.not_lt.mpr (hSame ▸ hj))
  have hOwed : ∀ j, j ≠ id → ({ d.record (.removed id) with localObjects := rest } : Http1).owed j = c.owed j := by
    intro j hj
    have hLeft := hLeaves.owed j
    rw [if_neg fun hBoth => hj hBoth.2, Nat.add_zero, owed, hTouches.localObjects, hFront,
      List.count_cons_of_ne (Ne.symm hj)] at hLeft
    exact hLeft
  constructor
  · exact hTouches.role.trans h.role
  · have hSame : d.localObjects.tail = rest := by rw [hTouches.localObjects, hTail]
    rw [← hSame]
    exact Queued.stable.removed id (hTouches.queued h.queue)
  · intro j hj
    rw [show ({ d.record (.removed id) with localObjects := rest } : Http1).opened = c.opened from
      hTouches.opened] at hj
    rw [hOwed j (hFresh hj)]
    show d.locals j = _ ∧ _
    rw [hTouches.locals j (hFresh hj)]
    exact h.fresh j hj
  · intro j hj
    rw [hOwed j (hOther hj), h.owing j (hRest hj)]
    show _ = (d.locals j).received.length + 1
    rw [hTouches.locals j (hOther hj)]
  · intro j
    show (d.locals j).myself = false
    by_cases hSame : j = id
    · rw [hSame, hLocal]
      exact h.selfless id
    · rw [hTouches.locals j hSame]
      exact h.selfless j
  · intro j hj
    show (d.locals j).held = true ∨ j ∈ d.ending ∨ d.running = some j
    rw [hTouches.locals j (hOther hj), hLeaves.ending, hLeaves.running]
    exact h.owned j (hRest hj)
  · show d.ending.Nodup
    rw [hLeaves.ending]
    exact h.ending
  · show ∀ j ∈ d.ending, j < d.opened
    rw [hLeaves.ending, hTouches.opened]
    exact h.endingOpened
  · show ∀ j ∈ d.calling, j < d.opened ∧ j ∉ rest
    rw [hLeaves.calling, hTouches.opened]
    exact fun j hj => (h.calling j hj).imp_right fun hNot hIn => hNot (hRest hIn)
  · intro j hj
    have hIn := List.mem_of_mem_tail hj
    show (d.locals j).ended = false
    rw [hTouches.locals j (hOther hIn)]
    exact h.waiting j (hTail ▸ hIn)
  · intro j hj hEnds
    have hEnds : (d.locals j).ended = true := hEnds
    rw [hTouches.locals j (hOther hj), h.waiting j (hTail ▸ hj)] at hEnds
    cases hEnds
  · intro j hj
    rw [show ({ d.record (.removed id) with localObjects := rest } : Http1).opened = c.opened from
      hTouches.opened] at hj
    by_cases hSame : j = id
    · subst hSame
      refine .inr (.inl ⟨?_, List.mem_append_left _ (hLeaves.ended rfl), ?_⟩)
      · show (d.locals j).held = false
        rw [hLocal]
        exact (h.dropped j hMem hEnded).1
      · show (d.locals j).drained = d.locals j
        rw [hLocal]
        rfl
    · rcases h.settled j hj with hIn | ⟨hNot, hEnd, hDrained⟩ | hTold
      · rw [hFront] at hIn
        exact .inl ((List.mem_cons.mp hIn).resolve_left hSame)
      · refine .inr (.inl ⟨?_, List.mem_append_left _ (hLeaves.log _ hEnd), ?_⟩)
        · show (d.locals j).held = false
          rw [hTouches.locals j hSame, hNot]
        · show (d.locals j).drained = d.locals j
          rw [hTouches.locals j hSame, hDrained]
      · refine .inr (.inr ?_)
        show _ ∈ (d.locals j).received ∨ _ ∈ (d.locals j).received
        rw [hTouches.locals j hSame]
        exact hTold

/-- A response that is polled and has not ended is still the first, and now rests. -/
theorem rests {rest : List Nat} {l : Local} (h : Tended c) (hFront : c.localObjects = id :: rest)
    (hTouches : Touches id c d) (hLocal : d.locals id = l) (hEnded : l.ended = false)
    (hContinue : l.continueRequired = false) : Rests d where
  ongoing := by
    intro j hj
    rw [hTouches.localObjects, hFront] at hj
    by_cases hSame : j = id
    · rw [hSame, hLocal, hEnded]
    · rw [hTouches.locals j hSame]
      exact h.waiting j (hFront ▸ (List.mem_cons.mp hj).resolve_left hSame)
  head := by
    intro j hj
    rw [hTouches.localObjects, hFront] at hj
    cases hj
    rw [hLocal, hContinue]

/-- What has ended stays so, whatever is polled. -/
theorem ended_of_touches {l : Local} {j : Nat} (hTouches : Touches id c d) (hLocal : d.locals id = l)
    (hKeeps : (c.locals id).ended = true → l.ended = true) (hj : (c.locals j).ended = true) :
    (d.locals j).ended = true := by
  by_cases hSame : j = id
  · rw [hSame, hLocal]
    exact hKeeps (hSame ▸ hj)
  · rw [hTouches.locals j hSame]
    exact hj

/-- A call of `notify_local_content`: the responses that have ended leave the queue, and the one
that is then the first has nothing to emit. -/
theorem notifies {sent : Http1 → List UserOp} {fuel : Nat} (h : Tended c)
    (hRun : notifyLocalContent sent fuel c = .ok c') :
    Tended c' ∧ Rests c' ∧ c'.running = c.running ∧
      ∀ j, (c.locals j).ended = true → (c'.locals j).ended = true := by
  induction fuel generalizing c with
  | zero => cases hRun
  | succ fuel ih =>
      rw [notifyLocalContent] at hRun
      cases hFront : c.localObjects with
      | nil =>
          rw [hFront] at hRun
          cases hRun
          refine ⟨h, ⟨?_, ?_⟩, rfl, fun _ hEnded => hEnded⟩
          · rw [hFront]
            intro j hj
            cases hj
          · rw [hFront]
            intro j hj
            cases hj
      | cons id rest =>
          have hMem : id ∈ c.localObjects := hFront ▸ List.mem_cons_self
          rw [hFront] at hRun
          dsimp only at hRun
          rw [if_pos (h.alive hMem)] at hRun
          obtain ⟨⟨d, finished⟩, hPoll, hRun⟩ := bind_eq_ok.mp hRun
          dsimp only at hRun
          have hLeaves := pollLoop_leaves hPoll
          cases hContinue : (c.locals id).continueRequired with
          | true =>
              obtain ⟨rfl, hTouches, hLocal⟩ := pollLoop_of_continue hContinue hPoll
              have hOngoing : (c.locals id).ended = false := by
                by_contra hNot
                rw [Bool.not_eq_false] at hNot
                cases hContinue.symm.trans (h.dropped id hMem hNot).2
              cases hRun
              exact ⟨h.polled hFront hTouches hLeaves hLocal rfl rfl rfl hOngoing,
                h.rests hFront hTouches hLocal hOngoing rfl, hLeaves.running,
                fun j => ended_of_touches hTouches hLocal fun hEnds => hEnds⟩
          | false =>
              obtain ⟨hFinished, hTouches, hLocal⟩ := pollLoop_drains hContinue hPoll
              cases hEnded : (c.locals id).ended with
              | false =>
                  rw [hEnded] at hFinished
                  subst hFinished
                  cases hRun
                  exact ⟨h.polled hFront hTouches hLeaves hLocal rfl rfl rfl hEnded,
                    h.rests hFront hTouches hLocal hEnded hContinue, hLeaves.running,
                    fun j => ended_of_touches hTouches hLocal fun hEnds => hEnds⟩
              | true =>
                  rw [hEnded] at hFinished
                  subst hFinished
                  have hServer : d.role = .server := hTouches.role.trans h.role
                  rw [if_pos rfl, if_neg (by simp [hServer])] at hRun
                  have hRun : d.popFront >>= notifyLocalContent sent fuel = .ok c' := hRun
                  obtain ⟨e, hPop, hRest⟩ := bind_eq_ok.mp hRun
                  obtain ⟨id', rest', hQueue, rfl⟩ := popFront_ok.mp hPop
                  rw [hTouches.localObjects, hFront] at hQueue
                  cases hQueue
                  obtain ⟨hTended, hRests, hRunning, hEnds⟩ :=
                    ih (h.popped hFront hTouches hLeaves hLocal hEnded) hRest
                  have hStays : ∀ j, (c.locals j).ended = true → (d.locals j).ended = true :=
                    fun j => ended_of_touches hTouches hLocal fun hEnds => hEnds
                  exact ⟨hTended, hRests, hRunning.trans hLeaves.running, fun j hj => hEnds j (hStays j hj)⟩

end Tended

/-! ### Between two steps -/

/-- A server between two steps. -/
structure Settled (c : Http1) : Prop extends Tended c, Rests c where
  idle : c.running = none

namespace Settled

theorem start : Settled { role := .server } where
  toTended := Tended.start
  toRests := ⟨nofun, nofun⟩
  idle := rfl

theorem sheds (h : Settled c) (hQueue : Queued d) (hRole : d.role = c.role)
    (hObjects : d.localObjects = c.localObjects) (hOpened : d.opened = c.opened)
    (hLocals : d.locals = c.locals) (hOwed : ∀ j, d.owed j ≤ c.owed j) (hEnding : d.ending = c.ending)
    (hCalling : ∀ j ∈ d.calling, j ∈ c.calling) (hRunning : d.running = c.running)
    (hLog : ∀ id, .ended id ∈ c.log → .ended id ∈ d.log) : Settled d where
  toTended := h.toTended.sheds hQueue hRole hObjects hOpened hLocals hOwed hEnding hCalling hRunning hLog
  ongoing := by
    rw [hObjects, hLocals]
    exact h.ongoing
  head := by
    rw [hObjects, hLocals]
    exact h.head
  idle := hRunning.trans h.idle

/-- What changes neither the local objects nor what keeps them. -/
theorem frame (h : Settled c) (hQueue : Queued d) (hRole : d.role = c.role)
    (hObjects : d.localObjects = c.localObjects) (hOpened : d.opened = c.opened)
    (hLocals : d.locals = c.locals) (hOwed : d.owed = c.owed) (hEnding : d.ending = c.ending)
    (hCalling : d.calling = c.calling) (hRunning : d.running = c.running)
    (hLog : ∀ id, .ended id ∈ c.log → .ended id ∈ d.log) : Settled d :=
  h.sheds hQueue hRole hObjects hOpened hLocals (fun j => (congrFun hOwed j).le) hEnding
    (fun _ hMem => hCalling ▸ hMem) hRunning hLog

/-- Nothing on the remote side matters. -/
theorem remote : RemoteStable Settled where
  setRemote id r hShows h :=
    h.frame (Queued.stable.setRemote id r hShows h.queue) rfl rfl rfl rfl rfl rfl rfl rfl fun _ hMem => hMem
  postEnd id h := by
    apply h.frame (Queued.stable.post (.remoteEnded id) rfl h.queue) rfl rfl rfl rfl _ _ _ rfl fun _ hMem => hMem
    · funext j
      rw [owed]
      simp only [post, postedAbout_append]
      rfl
    · rw [ending_post]
      exact List.append_nil _
    · rw [calling_post]
      exact List.append_nil _
  error e h :=
    h.frame (Queued.stable.error e h.queue) rfl rfl rfl rfl rfl rfl rfl rfl fun _ hMem => hMem
  flags b b' h :=
    h.frame (Queued.stable.flags b b' h.queue) rfl rfl rfl rfl rfl rfl rfl rfl fun _ hMem => hMem
  remoteTail h :=
    h.frame (Queued.stable.remoteTail h.queue) rfl rfl rfl rfl rfl rfl rfl rfl fun _ hMem => hMem
  shows id data m h :=
    h.frame (Queued.stable.shows id data m h.queue) rfl rfl rfl rfl rfl rfl rfl rfl
      fun _ hMem => List.mem_append_left _ hMem
  received m taken h :=
    h.frame (Queued.stable.received m taken h.queue) rfl rfl rfl rfl rfl rfl rfl rfl
      fun _ hMem => List.mem_append_left _ hMem

theorem written (h : Settled c) (r : WriteResult) : Settled (c.written r) :=
  h.frame (Queued.stable.written r trivial h.queue) (written_role c r) (written_localObjects c r)
    (written_opened c r) (written_locals c r) (written_owed c r) (written_ending c r) (written_calling c r)
    (written_running c r) fun _ hMem => by rwa [written_log]

/-- A new response, which the application holds. -/
theorem opens (h : Settled c) : Settled c.getUserHandlers := by
  rw [getUserHandlers]
  split
  · exact h
  rename_i hConnected
  have hConnected : c.connected = true := by simpa using hConnected
  have hNew : c.locals c.opened = {} := (h.fresh c.opened (Nat.le_refl _)).1
  have hOwed : ∀ j, ({ c with
      opened := c.opened + 1
      remoteObjects := c.remoteObjects ++ [c.opened]
      localObjects := c.localObjects ++ [c.opened] } : Http1).owed j =
      c.owed j + if j = c.opened then 1 else 0 := by
    intro j
    simp only [owed, List.count_append, List.count_singleton, beq_iff_eq]
    simp only [eq_comm (a := c.opened)]
    omega
  have hOngoing : ∀ j ∈ c.localObjects ++ [c.opened], (c.locals j).ended = false := by
    intro j hj
    rcases List.mem_append.mp hj with hj | hj
    · exact h.ongoing j hj
    · rw [List.mem_singleton.mp hj, hNew]
  constructor
  · constructor
    · exact h.role
    · exact Queued.stable.opens hConnected h.queue
    · intro j hj
      have hj : c.opened + 1 ≤ j := hj
      rw [hOwed, if_neg (by omega)]
      exact h.fresh j (by omega)
    · intro j hj
      rw [hOwed]
      rcases List.mem_append.mp hj with hj | hj
      · rw [if_neg (h.queue.localsOpened j hj).ne, h.owing j hj]
      · rw [List.mem_singleton.mp hj, if_pos rfl, (h.fresh c.opened (Nat.le_refl _)).2]
        show _ = (c.locals c.opened).received.length + 1
        rw [hNew]
        rfl
    · exact h.selfless
    · intro j hj
      rcases List.mem_append.mp hj with hj | hj
      · exact h.owned j hj
      · rw [List.mem_singleton.mp hj]
        left
        show (c.locals c.opened).held = true
        rw [hNew]
    · exact h.ending
    · exact fun j hj => Nat.lt_succ_of_lt (h.endingOpened j hj)
    · intro j hj
      obtain ⟨hOpened, hOut⟩ := h.calling j hj
      refine ⟨Nat.lt_succ_of_lt hOpened, ?_⟩
      intro hIn
      rcases List.mem_append.mp hIn with hIn | hIn
      · exact hOut hIn
      · exact absurd (List.mem_singleton.mp hIn) hOpened.ne
    · exact fun j hj => hOngoing j (List.mem_of_mem_tail hj)
    · exact fun j hj hEnded => absurd (hOngoing j hj) (Bool.not_eq_false _ |>.mpr hEnded)
    · intro j hj
      rcases Nat.lt_succ_iff_lt_or_eq.mp hj with hj | rfl
      · rcases h.settled j hj with hIn | hGone
        · exact .inl (List.mem_append_left _ hIn)
        · exact .inr hGone
      · exact .inl (List.mem_append_right _ (List.mem_singleton.mpr rfl))
  · constructor
    · exact hOngoing
    · intro j hj
      have hj : j ∈ (c.localObjects ++ [c.opened]).head? := hj
      show (c.locals j).continueRequired = false
      cases hQueue : c.localObjects with
      | nil =>
          rw [hQueue] at hj
          cases hj
          rw [hNew]
      | cons first rest =>
          rw [hQueue] at hj
          apply h.head j
          rw [hQueue]
          exact hj
  · exact h.idle

end Settled

/-! ### Notices -/

/-- What the application has given a response, and its hold of it: no notice changes it. -/
def given (c : Http1) (j : Nat) : Bool × Option Message × ByteString × List (ByteString × ByteString) :=
  ((c.locals j).held, (c.locals j).headers, (c.locals j).content, (c.locals j).trailers)

/-- From `c` to `d`, some local objects of `ids` have been told something, and nothing else has
happened to the local objects. -/
structure Tells (ids : List Nat) (c d : Http1) : Prop where
  role : d.role = c.role
  localObjects : d.localObjects = c.localObjects
  remoteObjects : d.remoteObjects = c.remoteObjects
  opened : d.opened = c.opened
  running : d.running = c.running
  log : d.log = c.log
  ending : d.ending = c.ending
  given : ∀ j, d.given j = c.given j
  others : ∀ j, j ∉ ids → d.locals j = c.locals j
  received : ∀ j, ∀ n ∈ (c.locals j).received, n ∈ (d.locals j).received
  selfless : (∀ j, (c.locals j).myself = false) → ∀ j, (d.locals j).myself = false
  calling : ∀ j ∈ d.calling, j ∈ c.calling ∨ j ∈ ids
  owed : ∀ j, j ∉ ids → d.owed j = c.owed j

namespace Tells

variable {ids : List Nat}

theorem refl (ids : List Nat) (c : Http1) : Tells ids c c where
  role := rfl
  localObjects := rfl
  remoteObjects := rfl
  opened := rfl
  running := rfl
  log := rfl
  ending := rfl
  given _ := rfl
  others _ _ := rfl
  received _ _ hMem := hMem
  selfless h := h
  calling _ hMem := .inl hMem
  owed _ _ := rfl

theorem trans (h : Tells ids c d) (h' : Tells ids d c') : Tells ids c c' where
  role := h'.role.trans h.role
  localObjects := h'.localObjects.trans h.localObjects
  remoteObjects := h'.remoteObjects.trans h.remoteObjects
  opened := h'.opened.trans h.opened
  running := h'.running.trans h.running
  log := h'.log.trans h.log
  ending := h'.ending.trans h.ending
  given j := (h'.given j).trans (h.given j)
  others j hj := (h'.others j hj).trans (h.others j hj)
  received j n hMem := h'.received j n (h.received j n hMem)
  selfless hNone := h'.selfless (h.selfless hNone)
  calling j hMem := (h'.calling j hMem).elim (h.calling j) .inr
  owed j hj := (h'.owed j hj).trans (h.owed j hj)

/-- A notice to one object, which may post its callback. -/
theorem notice {l : Local} {n : Notice} {b : Bool} (hMem : id ∈ ids)
    (hGiven : (l.held, l.headers, l.content, l.trailers) = c.given id)
    (hReceived : l.received = (c.locals id).received ++ [n]) (hMyself : l.myself = false) :
    Tells ids c (if b then (c.setLocal id l).post [.callback id] else c.setLocal id l) := by
  have hOther : ∀ {j}, j ≠ id → (c.setLocal id l).locals j = c.locals j := setLocal_locals_of_ne
  have hSelf : (c.setLocal id l).locals id = l := setLocal_locals_self c id l
  have hSet : Tells ids c (c.setLocal id l) := by
    refine { refl ids c with given := ?_, others := ?_, received := ?_, selfless := ?_, owed := ?_ }
    · intro j
      by_cases hSame : j = id
      · rw [hSame, ← hGiven, Http1.given, hSelf]
      · rw [Http1.given, hOther hSame]
        rfl
    · intro j hj
      exact hOther fun hSame => hj (hSame ▸ hMem)
    · intro j m hIn
      by_cases hSame : j = id
      · rw [hSame] at hIn ⊢
        rw [hSelf, hReceived]
        exact List.mem_append_left _ hIn
      · rw [hOther hSame]
        exact hIn
    · intro hNone j
      by_cases hSame : j = id
      · rw [hSame, hSelf, hMyself]
      · rw [hOther hSame]
        exact hNone j
    · intro j hj
      have hNot : j ≠ id := fun hSame => hj (hSame ▸ hMem)
      rw [setLocal_told hReceived, if_neg hNot]
      rfl
  cases b with
  | false => exact hSet
  | true =>
      refine hSet.trans { refl ids (c.setLocal id l) with ending := ?_, calling := ?_, owed := ?_ }
      · exact (ending_post _ _).trans (List.append_nil _)
      · intro j hj
        rw [if_pos rfl, calling_post] at hj
        rcases List.mem_append.mp hj with hj | hj
        · exact .inl hj
        · have hj : j ∈ [id] := hj
          exact .inr (List.mem_singleton.mp hj ▸ hMem)
      · intro j _
        exact congrFun (called_owed _ id) j

theorem localError (c : Http1) (e : ErrorCode) (hMem : id ∈ ids) : Tells ids c (c.localError e id) :=
  notice (b := (c.locals id).errorCallback) hMem rfl rfl rfl

theorem localCleared (c : Http1) (hMem : id ∈ ids) : Tells ids c (c.localCleared id) :=
  notice (b := (c.locals id).writeCallback) hMem rfl rfl rfl

theorem foldl {α : Type} {f : Http1 → α → Http1} {as : List α} (hf : ∀ c, ∀ a ∈ as, Tells ids c (f c a))
    (c : Http1) : Tells ids c (as.foldl f c) := by
  induction as generalizing c with
  | nil => exact refl ids c
  | cons a as ih =>
      rw [List.foldl_cons]
      exact (hf c a List.mem_cons_self).trans (ih (fun c b hb => hf c b (List.mem_cons_of_mem _ hb)) _)

theorem remoteEnd (ids : List Nat) (c : Http1) (i : Nat) (e : RemoteEvent) : Tells ids c (c.remoteEnd i e) := by
  have hPost : ∀ c : Http1, Tells ids c (c.post [.remoteEnded i]) := by
    intro c
    refine { refl ids c with ending := ?_, calling := ?_, owed := ?_ }
    · exact (ending_post _ _).trans (List.append_nil _)
    · intro j hj
      rw [calling_post] at hj
      exact .inl ((List.mem_append.mp hj).resolve_right List.not_mem_nil)
    · intro j _
      rw [Http1.owed]
      simp only [post, postedAbout_append]
      rfl
  have hSet : ∀ r, Tells ids c (c.setRemote i r) := fun _ => { refl ids c with }
  rw [Http1.remoteEnd]
  split
  · exact refl ids c
  dsimp only
  split
  · exact hSet _
  · exact (hSet _).trans (hPost _)

/-- Everybody who is listed and held, or whose end waits, hears of the error. -/
theorem told {j : Nat} {e : ErrorCode} {as : List Nat} {c : Http1} (hj : j ∈ as)
    (hOwned : (c.locals j).held = true ∨ j ∈ c.ending) :
    .error e ∈ ((as.foldl (fun c id => if c.alive id then c.localError e id else c) c).locals j).received := by
  induction as generalizing c with
  | nil => cases hj
  | cons a as ih =>
      rw [List.foldl_cons]
      have hStep : Tells (a :: as) c (if c.alive a then c.localError e a else c) := by
        split
        · exact Tells.localError c e List.mem_cons_self
        · exact refl _ c
      by_cases hSame : j = a
      · subst hSame
        have hAlive : c.alive j = true := by
          rcases hOwned with hHeld | hEnds
          · simp [alive, hHeld]
          · have hPosted : c.posted.any (Posted.holds j) = true :=
              List.any_eq_true.mpr ⟨_, mem_ending.mp hEnds, decide_eq_true rfl⟩
            simp [alive, hPosted]
        rw [if_pos hAlive]
        have hRest : Tells as (c.localError e j)
            (as.foldl (fun c id => if c.alive id then c.localError e id else c) (c.localError e j)) := by
          apply foldl
          intro c a ha
          split
          · exact Tells.localError c e ha
          · exact refl _ c
        apply hRest.received
        rw [localError_received, if_pos rfl]
        exact List.mem_append_right _ (List.mem_singleton.mpr rfl)
      · apply ih ((List.mem_cons.mp hj).resolve_left hSame)
        rw [hStep.ending, show ((if c.alive a then c.localError e a else c).locals j).held = (c.locals j).held from
          congrArg Prod.fst (hStep.given j)]
        exact hOwned

end Tells

theorem drained_iff {l : Local} : l.drained = l ↔ l.headers = none ∧ l.content = [] ∧ l.trailers = [] := by
  constructor
  · intro hSame
    rw [← hSame]
    exact ⟨rfl, rfl, rfl⟩
  · intro ⟨hHeaders, hContent, hTrailers⟩
    rw [Local.drained, ← hHeaders, ← hContent, ← hTrailers]

theorem Polled.tells {ids : List Nat} {j : Nat} (h : c.Polled j) (hTells : Tells ids c d) : d.Polled j := by
  obtain ⟨hHeld, hEnded, hDrained⟩ := h
  obtain ⟨hHeaders, hContent, hTrailers⟩ := drained_iff.mp hDrained
  have hGiven := hTells.given j
  simp only [given, Prod.mk.injEq] at hGiven
  refine ⟨hGiven.1.trans hHeld, ?_, drained_iff.mpr ⟨?_, ?_, ?_⟩⟩
  · rw [hTells.log]
    exact hEnded
  · rw [hGiven.2.1, hHeaders]
  · rw [hGiven.2.2.1, hContent]
  · rw [hGiven.2.2.2, hTrailers]

theorem ToldOver.tells {ids : List Nat} {j : Nat} (h : c.ToldOver j) (hTells : Tells ids c d) :
    d.ToldOver j := h.imp (hTells.received j _) (hTells.received j _)

namespace Settled

/-- Objects that have left the queue are told something. -/
theorem tells {ids : List Nat} (h : Settled c) (hTells : Tells ids c d)
    (hOut : ∀ j ∈ ids, j < c.opened ∧ j ∉ c.localObjects) : Settled d := by
  have hQueue : ∀ {j}, j ∈ d.localObjects → j ∈ c.localObjects ∧ j ∉ ids := by
    intro j hj
    rw [hTells.localObjects] at hj
    exact ⟨hj, fun hMem => (hOut j hMem).2 hj⟩
  have hLocal : ∀ {j}, j ∈ d.localObjects → d.locals j = c.locals j := fun hj => hTells.others _ (hQueue hj).2
  constructor
  · constructor
    · exact hTells.role.trans h.role
    · constructor
      · rw [hTells.localObjects]
        exact h.queue.locals
      · rw [hTells.localObjects, hTells.opened]
        exact h.queue.localsOpened
      · rw [hTells.remoteObjects]
        exact h.queue.remotes
      · rw [hTells.remoteObjects, hTells.opened]
        exact h.queue.remotesOpened
    · intro j hj
      rw [hTells.opened] at hj
      have hNot : j ∉ ids := fun hMem => absurd (hOut j hMem).1 (Nat.not_lt.mpr hj)
      rw [hTells.others j hNot, hTells.owed j hNot]
      exact h.fresh j hj
    · intro j hj
      rw [hLocal hj, hTells.owed j (hQueue hj).2]
      exact h.owing j (hQueue hj).1
    · exact hTells.selfless h.selfless
    · intro j hj
      rw [hLocal hj, hTells.ending, hTells.running]
      exact h.owned j (hQueue hj).1
    · rw [hTells.ending]
      exact h.ending
    · rw [hTells.ending, hTells.opened]
      exact h.endingOpened
    · intro j hj
      rw [hTells.opened, hTells.localObjects]
      exact (hTells.calling j hj).elim (h.calling j) (hOut j)
    · intro j hj
      have hMem := List.mem_of_mem_tail hj
      rw [hLocal hMem]
      exact h.ongoing j (hQueue hMem).1
    · intro j hj
      rw [hLocal hj]
      exact h.dropped j (hQueue hj).1
    · intro j hj
      rw [hTells.opened] at hj
      rw [hTells.localObjects]
      exact (h.settled j hj).imp_right fun hGone =>
        hGone.imp (fun hPolled => hPolled.tells hTells) fun hOver => hOver.tells hTells
  · constructor
    · intro j hj
      rw [hLocal hj]
      exact h.ongoing j (hQueue hj).1
    · intro j hj
      rw [hLocal (List.mem_of_mem_head? hj)]
      rw [hTells.localObjects] at hj
      exact h.head j hj
  · exact hTells.running.trans h.idle

/-- The queues are emptied, and everybody in them has been told that the connection is over. -/
theorem empties {ids : List Nat} (h : Settled c) (hTells : Tells ids c d) (hOpened : ∀ j ∈ ids, j < c.opened)
    (hTold : ∀ j ∈ c.localObjects, d.ToldOver j) :
    Settled { d with remoteObjects := [], localObjects := [] } := by
  constructor
  · constructor
    · exact hTells.role.trans h.role
    · exact ⟨List.nodup_nil, fun _ hj => absurd hj List.not_mem_nil, List.nodup_nil,
        fun _ hj => absurd hj List.not_mem_nil⟩
    · intro j hj
      have hj : d.opened ≤ j := hj
      rw [hTells.opened] at hj
      have hNot : j ∉ ids := fun hMem => absurd (hOpened j hMem) (Nat.not_lt.mpr hj)
      obtain ⟨hNew, hOwed⟩ := h.fresh j hj
      rw [← hTells.owed j hNot] at hOwed
      refine ⟨(hTells.others j hNot).trans hNew, ?_⟩
      rw [owed] at hOwed ⊢
      rw [List.count_nil]
      dsimp only
      omega
    · intro j hj
      cases hj
    · exact hTells.selfless h.selfless
    · intro j hj
      cases hj
    · show d.ending.Nodup
      rw [hTells.ending]
      exact h.ending
    · show ∀ j ∈ d.ending, j < d.opened
      rw [hTells.ending, hTells.opened]
      exact h.endingOpened
    · intro j hj
      show j < d.opened ∧ j ∉ []
      rw [hTells.opened]
      exact ⟨(hTells.calling j hj).elim (fun hIn => (h.calling j hIn).1) (hOpened j), List.not_mem_nil⟩
    · intro j hj
      cases hj
    · intro j hj
      cases hj
    · intro j hj
      have hj : j < d.opened := hj
      rw [hTells.opened] at hj
      rcases h.settled j hj with hIn | hPolled | hOver
      · exact .inr (.inr (hTold j hIn))
      · have hPolled : d.Polled j := hPolled.tells hTells
        exact .inr (.inl hPolled)
      · have hOver : d.ToldOver j := hOver.tells hTells
        exact .inr (.inr hOver)
  · exact ⟨(fun _ hj => by cases hj), fun _ hj => by cases hj⟩
  · exact hTells.running.trans h.idle

theorem notifyAll (h : Settled c) {e : ErrorCode} (he : e = .closedByClient ∨ e = .connectionClosed) :
    Settled (c.notifyAll e) := by
  have hRemotes : Tells c.localObjects c (c.remoteObjects.foldl (fun c id => c.remoteEnd id (.error e)) c) :=
    Tells.foldl (fun c i _ => Tells.remoteEnd _ c i _) c
  rw [Http1.notifyAll]
  generalize c.remoteObjects.foldl (fun c id => c.remoteEnd id (.error e)) c = d at hRemotes
  have hLocals : Tells c.localObjects d
      (d.localObjects.foldl (fun c id => if c.alive id then c.localError e id else c) d) := by
    apply Tells.foldl
    intro f j hj
    rw [hRemotes.localObjects] at hj
    split
    · exact Tells.localError f e hj
    · exact .refl _ f
  apply h.empties (hRemotes.trans hLocals) h.queue.localsOpened
  intro j hj
  have hOwned : (d.locals j).held = true ∨ j ∈ d.ending := by
    rw [hRemotes.ending, show (d.locals j).held = (c.locals j).held from congrArg Prod.fst (hRemotes.given j)]
    refine (h.owned j hj).imp_right fun hKept => hKept.resolve_right ?_
    rw [h.idle]
    intro hRunning
    cases hRunning
  have hTold : .error e ∈
      ((d.localObjects.foldl (fun c id => if c.alive id then c.localError e id else c) d).locals j).received := by
    apply Tells.told _ hOwned
    rw [hRemotes.localObjects]
    exact hj
  cases he with
  | inl hClosed => exact .inl (hClosed ▸ hTold)
  | inr hClosed => exact .inr (hClosed ▸ hTold)

theorem close (h : Settled c) : Settled c.close := by
  have hAsked : Settled { c with userClose := true } :=
    h.frame (Queued.stable.userClose h.queue) rfl rfl rfl rfl rfl rfl rfl rfl fun _ hMem => hMem
  have hStopped : Settled (if ({ c with userClose := true } : Http1).connected then
      ({ c with userClose := true } : Http1).stop else { c with userClose := true }) := by
    split
    · exact hAsked.frame (Queued.stable.stop hAsked.queue) rfl rfl rfl rfl rfl rfl rfl rfl fun _ hMem => hMem
    · exact hAsked
  exact hStopped.notifyAll (.inr rfl)

theorem lost (h : Settled c) (hWriting : c.writing = none) : Settled c.loseConnector := by
  have hDown : Settled { c with connected := false } :=
    h.frame (Queued.stable.disconnect hWriting h.queue) rfl rfl rfl rfl rfl rfl rfl rfl fun _ hMem => hMem
  rw [loseConnector, onConnectorNulled]
  split
  · exact hDown
  have hTold : Settled ((({ c with connected := false } : Http1).notifyAll .closedByClient).error .closedByClient) :=
    remote.error _ (hDown.notifyAll (.inl rfl))
  have hEmpty : ((({ c with connected := false } : Http1).notifyAll .closedByClient).error
      .closedByClient).localObjects = [] := rfl
  dsimp only
  generalize (({ c with connected := false } : Http1).notifyAll .closedByClient).error .closedByClient = d at hTold hEmpty
  have hFailed : Settled (d.pendingClearCallbacks.foldl (fun c f => c.localError .missingStreamElement f.id) d) := by
    have hTells : Tells (d.pendingClearCallbacks.map Feedback.id) d
        (d.pendingClearCallbacks.foldl (fun c f => c.localError .missingStreamElement f.id) d) := by
      apply Tells.foldl
      intro f g hg
      exact Tells.localError f _ (List.mem_map_of_mem hg)
    apply hTold.tells hTells
    · intro j hj
      obtain ⟨f, hf, rfl⟩ := List.mem_map.mp hj
      refine ⟨?_, by rw [hEmpty]; exact List.not_mem_nil⟩
      by_contra hNot
      have hOwed := (hTold.fresh f.id (Nat.le_of_not_lt hNot)).2
      have hAbout : 0 < about d.pendingClearCallbacks f.id :=
        List.countP_pos_iff.mpr ⟨f, hf, decide_eq_true rfl⟩
      rw [owed] at hOwed
      omega
  generalize d.pendingClearCallbacks.foldl (fun c f => c.localError .missingStreamElement f.id) d = e at hFailed
  apply hFailed.sheds (Queued.stable.drained hFailed.queue) rfl rfl rfl rfl _ rfl (fun _ hMem => hMem) rfl
    fun _ hMem => hMem
  intro j
  rw [owed, owed, about, about, List.countP_nil]
  dsimp only
  omega

/-- A closure that ends no response is taken. -/
theorem takes (h : Settled c) {p : Posted} {rest : List Posted} (hPosted : c.posted = p :: rest)
    (hEnds : p.endsOf = none) : Settled { c with posted := rest } := by
  have hTail : rest = c.posted.tail := by rw [hPosted, List.tail_cons]
  refine h.sheds (d := { c with posted := rest }) ?_ rfl rfl rfl rfl ?_ ?_ ?_ rfl fun _ hMem => hMem
  · rw [hTail]
    exact Queued.stable.unpost h.queue
  · intro j
    have hCount : postedAbout rest j ≤ postedAbout c.posted j := by
      rw [hPosted]
      exact List.Sublist.countP_le (List.sublist_cons_self p rest)
    rw [owed, owed]
    dsimp only
    omega
  · rw [ending, ending, hPosted, List.filterMap_cons_none hEnds]
  · intro j hj
    obtain ⟨q, hq, hCalls⟩ := List.mem_filterMap.mp hj
    exact List.mem_filterMap.mpr ⟨q, hPosted ▸ List.mem_cons_of_mem p hq, hCalls⟩

/-- A feedback is about a response that has left the queue. -/
theorem feedback_out (h : Settled c) {f : Feedback} {success : Bool} (hMem : .feedback f success ∈ c.posted) :
    f.id < c.opened ∧ f.id ∉ c.localObjects := by
  have hAbout : 0 < postedAbout c.posted f.id := List.countP_pos_iff.mpr ⟨_, hMem, decide_eq_true rfl⟩
  constructor
  · by_contra hNot
    have hOwed := (h.fresh f.id (Nat.le_of_not_lt hNot)).2
    rw [owed] at hOwed
    omega
  · intro hIn
    have hOwing := h.owing f.id hIn
    rw [owed, List.count_eq_one_of_mem h.queue.locals hIn] at hOwing
    omega

end Settled

/-- What is asked of a step: requests are decoded without failure, and a response that has been
ended is dropped at once. -/
def DropsAtOnce (c : Http1) : Op → Prop
  | .decodingFailure => False
  | .user (.drop id) => c.usable id = true → id ∈ c.ending
  | _ => ∀ id ∈ c.ending, (c.locals id).held = false

instance (c : Http1) (op : Op) : Decidable (DropsAtOnce c op) := by
  unfold DropsAtOnce
  split <;> infer_instance

/-- The closure of `end` runs when its response is the first one of the queue. -/
def EndsInFront (c : Http1) : Op → Prop
  | .posted => ∀ p ∈ c.posted.head?, ∀ id ∈ p.endsOf, id ∈ c.localObjects → c.localObjects.head? = some id
  | _ => True

instance (c : Http1) (op : Op) : Decidable (EndsInFront c op) := by
  unfold EndsInFront
  split <;> infer_instance

/-- No response has expired in the queue; those that have left it have been polled to their end,
or told that the connection is over; and whoever has been ended and dropped, has left it. -/
structure Lasts (c : Http1) : Prop where
  alive : ∀ id ∈ c.localObjects, c.alive id = true
  emitted : ∀ id < c.opened, id ∉ c.localObjects → c.Polled id ∨ c.ToldOver id
  ended : ∀ id < c.opened, (c.locals id).held = false → id ∉ c.ending → id ∉ c.localObjects

/-- The closure of `end` has been taken and has set the flag. -/
def takeEnd (c : Http1) (id : Nat) (rest : List Posted) : Http1 :=
  { c with posted := rest, running := some id }.setLocal id { c.locals id with ended := true }

theorem ending_of_end {rest : List Posted} (hPosted : c.posted = .endResponse id :: rest) :
    c.ending = id :: rest.filterMap Posted.endsOf := by
  rw [ending, hPosted]
  rfl

namespace Settled

theorem takeEnd_self (c : Http1) (id : Nat) (rest : List Posted) :
    (c.takeEnd id rest).locals id = { c.locals id with ended := true } := setLocal_locals_self _ _ _

theorem takeEnd_of_ne {j : Nat} (rest : List Posted) (h : j ≠ id) : (c.takeEnd id rest).locals j = c.locals j :=
  setLocal_locals_of_ne h

theorem takeEnd_owed {rest : List Posted} (hPosted : c.posted = .endResponse id :: rest) :
    (c.takeEnd id rest).owed = c.owed := by
  have hTaken : ({ c with posted := rest, running := some id } : Http1).owed = c.owed := by
    funext j
    rw [owed, owed, hPosted]
    rfl
  rw [← hTaken]
  exact setLocal_owed rfl

/-- The closure of `end` has set the flag: the response, which nobody holds, is the first one of
the queue, or has left it. -/
theorem runs (h : Settled c) {rest : List Posted} (hPosted : c.posted = .endResponse id :: rest)
    (hHeld : (c.locals id).held = false)
    (hFront : id ∈ c.localObjects → c.localObjects.head? = some id) : Tended (c.takeEnd id rest) := by
  have hEnding := ending_of_end hPosted
  have hNodup := h.ending
  rw [hEnding, List.nodup_cons] at hNodup
  have hOpened : id < c.opened := h.endingOpened id (hEnding ▸ List.mem_cons_self)
  have hOwed := takeEnd_owed hPosted
  have hOther : ∀ {j}, j ≠ id → (c.takeEnd id rest).locals j = c.locals j := takeEnd_of_ne rest
  have hSelf := takeEnd_self c id rest
  constructor
  · exact h.role
  · exact { h.queue with }
  · intro j hj
    rw [hOther (ne_of_gt (lt_of_lt_of_le hOpened hj)), hOwed]
    exact h.fresh j hj
  · intro j hj
    rw [hOwed, h.owing j hj]
    by_cases hSame : j = id
    · rw [hSame, hSelf]
    · rw [hOther hSame]
  · intro j
    by_cases hSame : j = id
    · rw [hSame, hSelf]
      exact h.selfless id
    · rw [hOther hSame]
      exact h.selfless j
  · intro j hj
    by_cases hSame : j = id
    · rw [hSame]
      exact .inr (.inr rfl)
    · rw [hOther hSame]
      rcases h.owned j hj with hHolds | hEnds | hRuns
      · exact .inl hHolds
      · rw [hEnding] at hEnds
        exact .inr (.inl ((List.mem_cons.mp hEnds).resolve_left hSame))
      · rw [h.idle] at hRuns
        cases hRuns
  · exact hNodup.2
  · intro j hj
    exact h.endingOpened j (hEnding ▸ List.mem_cons_of_mem id hj)
  · intro j hj
    apply h.calling j
    rw [calling, hPosted]
    exact hj
  · intro j hj
    by_cases hSame : j = id
    · subst hSame
      have hNo := h.queue.locals
      have hHead := hFront (List.mem_of_mem_tail hj)
      obtain ⟨others, hQueue⟩ := List.head?_eq_some_iff.mp hHead
      have hj : j ∈ c.localObjects.tail := hj
      rw [hQueue, List.nodup_cons] at hNo
      rw [hQueue] at hj
      exact absurd hj hNo.1
    · rw [hOther hSame]
      exact h.ongoing j (List.mem_of_mem_tail hj)
  · intro j hj hEnded
    by_cases hSame : j = id
    · subst hSame
      rw [hSelf]
      exact ⟨hHeld, h.head j (hFront hj)⟩
    · rw [hOther hSame, h.ongoing j hj] at hEnded
      cases hEnded
  · intro j hj
    rcases h.settled j hj with hIn | ⟨hNot, hEnd, hDrained⟩ | hOver
    · exact .inl hIn
    · refine .inr (.inl ⟨?_, hEnd, ?_⟩)
      · by_cases hSame : j = id
        · rw [hSame, hSelf]
          exact hHeld
        · rw [hOther hSame]
          exact hNot
      · by_cases hSame : j = id
        · rw [hSame] at hDrained ⊢
          have hParts := drained_iff.mp hDrained
          rw [hSelf]
          exact drained_iff.mpr hParts
        · rw [hOther hSame]
          exact hDrained
    · refine .inr (.inr ?_)
      rw [ToldOver]
      by_cases hSame : j = id
      · rw [hSame] at hOver ⊢
        rw [hSelf]
        exact hOver
      · rw [hOther hSame]
        exact hOver

/-- The closure has run, and the response has left the queue. -/
theorem ran (h : Tended c) (hRests : Rests c) (hRunning : c.running = some id)
    (hEnded : (c.locals id).ended = true) :
    Settled { c.setLocal id { c.locals id with myself := !(c.locals id).ended } with running := none } := by
  have hSame : { c.locals id with myself := !(c.locals id).ended } = c.locals id := by
    rw [hEnded, Bool.not_true, ← h.selfless id]
  rw [hSame, setLocal_self]
  refine ⟨{ h with queue := { h.queue with }, owned := ?_ }, { hRests with }, rfl⟩
  intro j hj
  rcases h.owned j hj with hHolds | hEnds | hRuns
  · exact .inl hHolds
  · exact .inr (.inl hEnds)
  · rw [hRunning] at hRuns
    cases hRuns
    cases hEnded.symm.trans (hRests.ongoing id hj)

/-- The end of a response is called, and waits. -/
theorem finishes (h : Settled c) (hId : id < c.opened) (hNew : id ∉ c.ending) :
    Settled (c.post [.endResponse id]) := by
  have hEnding : (c.post [.endResponse id]).ending = c.ending ++ [id] := ending_post c _
  have hCalling : (c.post [.endResponse id]).calling = c.calling := (calling_post c _).trans (List.append_nil _)
  have hOwed : (c.post [.endResponse id]).owed = c.owed := by
    funext j
    rw [owed]
    simp only [post, postedAbout_append]
    rfl
  refine ⟨{ h.toTended with
    queue := { h.queue with }, fresh := ?_, owing := ?_, owned := ?_, ending := ?_, endingOpened := ?_,
    calling := ?_ }, { h.toRests with }, h.idle⟩
  · rw [hOwed]
    exact h.fresh
  · rw [hOwed]
    exact h.owing
  · intro j hj
    rw [hEnding]
    exact (h.owned j hj).imp_right fun hKept => hKept.imp_left fun hMem => List.mem_append_left _ hMem
  · rw [hEnding, List.nodup_append]
    refine ⟨h.ending, List.nodup_singleton id, ?_⟩
    intro j hj k hk hSame
    rw [List.mem_singleton.mp hk] at hSame
    exact hNew (hSame ▸ hj)
  · rw [hEnding]
    intro j hj
    rcases List.mem_append.mp hj with hj | hj
    · exact h.endingOpened j hj
    · rw [List.mem_singleton.mp hj]
      exact hId
  · rw [hCalling]
    exact h.calling

theorem usable_iff : c.usable id = true ↔ id < c.opened ∧ (c.locals id).held = true := by
  rw [usable, Bool.and_eq_true, decide_eq_true_eq]

/-- The application gives a response something, and notifies. -/
theorem gives {sent : Http1 → List UserOp} {fuel : Nat} (h : Settled c) {l : Local} (hUsable : c.usable id = true)
    (hRun : notifyLocalContent sent fuel (c.setLocal id l) = .ok c') (hEnded : l.ended = (c.locals id).ended)
    (hReceived : l.received = (c.locals id).received) (hMyself : l.myself = (c.locals id).myself)
    (hHeld : l.held = (c.locals id).held) : Settled c' := by
  obtain ⟨hId, hHolds⟩ := usable_iff.mp hUsable
  have hEdit : Tended (c.setLocal id l) := h.edit hId hHolds hEnded hReceived (hMyself.trans (h.selfless id))
    (.inl (hHeld.trans hHolds))
  obtain ⟨hTended, hRests, hRunning, -⟩ := hEdit.notifies hRun
  exact ⟨hTended, hRests, hRunning.trans h.idle⟩

/-- An edit that notifies nobody. -/
theorem edits (h : Settled c) {l : Local} (hUsable : c.usable id = true)
    (hEnded : l.ended = (c.locals id).ended) (hReceived : l.received = (c.locals id).received)
    (hMyself : l.myself = (c.locals id).myself)
    (hContinue : l.continueRequired = (c.locals id).continueRequired) (hOwned : l.held = true ∨ id ∈ c.ending) :
    Settled (c.setLocal id l) := by
  obtain ⟨hId, hHolds⟩ := usable_iff.mp hUsable
  refine ⟨h.edit hId hHolds hEnded hReceived (hMyself.trans (h.selfless id)) hOwned, ⟨?_, ?_⟩, h.idle⟩
  · intro j hj
    by_cases hSame : j = id
    · rw [hSame, setLocal_locals_self, hEnded]
      exact h.ongoing id (hSame ▸ hj)
    · rw [setLocal_locals_of_ne hSame]
      exact h.ongoing j hj
  · intro j hj
    by_cases hSame : j = id
    · rw [hSame, setLocal_locals_self, hContinue]
      exact h.head id (hSame ▸ hj)
    · rw [setLocal_locals_of_ne hSame]
      exact h.head j hj

/-- A call of the application. -/
theorem userOp {sent : Http1 → List UserOp} {fuel : Nat} {op : UserOp} (h : Settled c)
    (hDrops : DropsAtOnce c (.user op)) (hRun : c.userOp (notifyLocalContent sent fuel) op = .ok c') : Settled c' := by
  have hIf : ∀ {b : Bool} {x : Except Fault Http1}, (if b then x else .ok c) = .ok c' →
      (b = true → x = .ok c' → Settled c') → Settled c' := by
    intro b x hBranch hThen
    cases b with
    | true => exact hThen rfl hBranch
    | false =>
        cases hBranch
        exact h
  cases op with
  | create =>
      rw [Http1.userOp, h.role] at hRun
      cases hRun
      exact h
  | headers id m => exact hIf hRun fun hUsable hRun => h.gives hUsable hRun rfl rfl rfl rfl
  | body id bytes => exact hIf hRun fun hUsable hRun => h.gives hUsable hRun rfl rfl rfl rfl
  | trailer id key value => exact hIf hRun fun hUsable hRun => h.gives hUsable hRun rfl rfl rfl rfl
  | finish id =>
      rw [Http1.userOp] at hRun
      split at hRun
      · cases hRun
        exact h
      case isFalse hUsable =>
        rw [if_pos h.role] at hRun
        cases hRun
        have hUsable : c.usable id = true := by simpa using hUsable
        obtain ⟨hId, hHolds⟩ := usable_iff.mp hUsable
        apply h.finishes hId
        intro hMem
        cases hHolds.symm.trans (hDrops id hMem)
  | sendContinue id =>
      apply hIf hRun
      intro hUsable hRun
      exact h.gives (Bool.and_eq_true_iff.mp hUsable).1 hRun rfl rfl rfl rfl
  | onError id =>
      cases hRun
      split
      case isTrue hUsable =>
        exact h.edits hUsable rfl rfl rfl rfl (.inl (usable_iff.mp hUsable).2)
      case isFalse => exact h
  | onWrite id =>
      cases hRun
      split
      case isTrue hUsable =>
        exact h.edits hUsable rfl rfl rfl rfl (.inl (usable_iff.mp hUsable).2)
      case isFalse => exact h
  | drop id =>
      cases hRun
      split
      case isTrue hUsable => exact h.edits hUsable rfl rfl rfl rfl (.inr (hDrops hUsable))
      case isFalse => exact h
  | close =>
      cases hRun
      exact h.close
  | setPersistent b =>
      cases hRun
      exact h.frame (Queued.stable.persistentSet b h.queue) rfl rfl rfl rfl rfl rfl rfl rfl
        fun _ hMem => List.mem_append_left _ hMem

/-- A closure. -/
theorem runPosted {sent : Http1 → List UserOp} {fuel : Nat} (h : Settled c) (hDrops : DropsAtOnce c .posted)
    (hFront : EndsInFront c .posted) (hRun : c.runPosted (notifyLocalContent sent fuel) = .ok c') : Settled c' := by
  unfold Http1.runPosted at hRun
  split at hRun
  case h_1 =>
    cases hRun
    exact h
  case h_2 id rest hPosted =>
    obtain ⟨d, hStep, hRun⟩ := bind_eq_ok.mp hRun
    cases hRun
    have hMem : id ∈ c.ending := mem_ending.mpr (hPosted ▸ List.mem_cons_self)
    have hFirst : id ∈ c.localObjects → c.localObjects.head? = some id := by
      apply hFront (.endResponse id) _ id rfl
      rw [hPosted]
      rfl
    obtain ⟨hTended, hRests, hRunning, hEnds⟩ := (h.runs hPosted (hDrops id hMem) hFirst).notifies hStep
    exact ran hTended hRests hRunning (hEnds id (congrArg Local.ended (setLocal_locals_self _ _ _)))
  case h_3 f success rest hPosted =>
    have hTaken := h.takes hPosted rfl
    have hOut : ∀ j ∈ [f.id], j < c.opened ∧ j ∉ c.localObjects := by
      intro j hj
      rw [List.mem_singleton.mp hj]
      exact h.feedback_out (hPosted ▸ List.mem_cons_self)
    cases hRun
    split
    · exact hTaken.tells (Tells.localCleared _ (List.mem_singleton.mpr rfl)) hOut
    · exact hTaken.tells (Tells.localError _ _ (List.mem_singleton.mpr rfl)) hOut
  case h_4 hPosted =>
    cases hRun
    exact remote.setRemote _ _ (fun _ hShown => hShown) (h.takes hPosted rfl)
  case h_5 hPosted =>
    cases hRun
    exact h.takes hPosted rfl

/-- A step keeps the queue in order as long as it ends the first response only. -/
theorem step {sent : Http1 → List UserOp} {fuel : Nat} {op : Op} (h : Settled c) (hDrops : DropsAtOnce c op)
    (hFront : EndsInFront c op) (hStep : c.step sent fuel op = .ok c') : Settled c' := by
  cases op with
  | user op => exact h.userOp hDrops hStep
  | posted => exact h.runPosted hDrops hFront hStep
  | decodingStart =>
      cases hStep
      have hFlags := remote.flags false false h
      rw [decodingStart, if_pos h.role]
      exact hFlags.opens
  | decodedHeaders m =>
      cases hStep
      exact remote.decodedHeaders _ _ h
  | decodedBody bytes =>
      cases hStep
      exact remote.decodedBody _ h
  | decodedTrailer key value =>
      cases hStep
      exact remote.decodedTrailer _ _ h
  | decodingEnd =>
      cases hStep
      exact remote.decodingEnd h
  | decodingFailure => exact hDrops.elim
  | written r =>
      cases hStep
      exact h.written r
  | readFailed =>
      cases hStep
      exact h.frame (Queued.stable.stop h.queue) rfl rfl rfl rfl rfl rfl rfl rfl fun _ hMem => hMem
  | connectorLost =>
      cases hStep
      split
      case isTrue hNone => exact h.lost (Option.isNone_iff_eq_none.mp hNone)
      case isFalse => exact h

/-- The closure of `end` of another response than the first one: the first one is polled, has not
ended, and stays. -/
theorem breaks {sent : Http1 → List UserOp} {fuel first : Nat} {others : List Nat} (h : Settled c)
    {rest : List Posted} (hPosted : c.posted = .endResponse id :: rest)
    (hQueue : c.localObjects = first :: others) (hOther : first ≠ id)
    (hRun : notifyLocalContent sent fuel (c.takeEnd id rest) = .ok d) :
    Touches first (c.takeEnd id rest) d ∧ Leaves first false (c.takeEnd id rest) d := by
  have hIn : first ∈ c.localObjects := hQueue ▸ List.mem_cons_self
  have hLocals : (c.takeEnd id rest).locals first = c.locals first := takeEnd_of_ne rest hOther
  have hObjects : (c.takeEnd id rest).localObjects = first :: others := hQueue
  have hAlive : (c.takeEnd id rest).alive first = true := by
    rcases h.owned first hIn with hHolds | hEnds | hRuns
    · have hHolds : ((c.takeEnd id rest).locals first).held = true := by rw [hLocals, hHolds]
      simp [Http1.alive, hHolds]
    · rw [ending_of_end hPosted] at hEnds
      have hEnds : first ∈ (c.takeEnd id rest).ending := (List.mem_cons.mp hEnds).resolve_left hOther
      have hHolds : (c.takeEnd id rest).posted.any (Posted.holds first) = true :=
        List.any_eq_true.mpr ⟨_, mem_ending.mp hEnds, decide_eq_true rfl⟩
      simp [Http1.alive, hHolds]
    · rw [h.idle] at hRuns
      cases hRuns
  cases fuel with
  | zero => cases hRun
  | succ fuel =>
      rw [notifyLocalContent, hObjects] at hRun
      dsimp only at hRun
      rw [if_pos hAlive] at hRun
      obtain ⟨⟨e, finished⟩, hPoll, hRun⟩ := bind_eq_ok.mp hRun
      have hContinue : ((c.takeEnd id rest).locals first).continueRequired = false := by
        rw [hLocals]
        apply h.head first
        rw [hQueue]
        rfl
      obtain ⟨hFinished, hTouches, -⟩ := pollLoop_drains hContinue hPoll
      rw [hLocals, h.ongoing first hIn] at hFinished
      subst hFinished
      cases hRun
      exact ⟨hTouches, pollLoop_leaves hPoll⟩

/-- A response that nobody holds is ended behind the first one: no one keeps it. -/
theorem expires {sent : Http1 → List UserOp} {fuel : Nat} (h : Settled c) {rest : List Posted}
    (hPosted : c.posted = .endResponse id :: rest) (hHeld : (c.locals id).held = false)
    (hMem : id ∈ c.localObjects) (hFront : c.localObjects.head? ≠ some id)
    (hRun : c.runPosted (notifyLocalContent sent fuel) = .ok c') :
    id ∈ c'.localObjects ∧ c'.alive id = false := by
  obtain ⟨first, others, hQueue⟩ := List.exists_cons_of_ne_nil (List.ne_nil_of_mem hMem)
  have hOther : first ≠ id := by
    intro hSame
    rw [hQueue, hSame] at hFront
    exact hFront rfl
  rw [Http1.runPosted, hPosted] at hRun
  obtain ⟨d, hNotify, hRun⟩ := bind_eq_ok.mp hRun
  cases hRun
  obtain ⟨hTouches, hLeaves⟩ := h.breaks hPosted hQueue hOther hNotify
  have hLocal : d.locals id = { c.locals id with ended := true } := by
    rw [hTouches.locals id (Ne.symm hOther), takeEnd_self]
  have hObjects : d.localObjects = c.localObjects := hTouches.localObjects
  rw [hLocal]
  generalize hLast : ({ d.setLocal id { c.locals id with ended := true, myself := !true } with
    running := none } : Http1) = e
  have hSelf : e.locals id = { c.locals id with ended := true, myself := !true } := by
    rw [← hLast]
    exact setLocal_locals_self _ _ _
  have hStays : e.localObjects = c.localObjects := by
    rw [← hLast]
    exact hObjects
  have hCalling : e.calling = c.calling := by
    rw [← hLast]
    refine hLeaves.calling.trans ?_
    rw [calling, calling, hPosted]
    rfl
  have hEnding : e.ending = rest.filterMap Posted.endsOf := by
    rw [← hLast]
    exact hLeaves.ending
  have hRunning : e.running = none := by rw [← hLast]
  have hOwed : e.owed id = c.owed id := by
    have hSet : (d.setLocal id { c.locals id with ended := true, myself := !true }).owed = d.owed := by
      apply setLocal_owed
      rw [hLocal]
    rw [← hLast]
    refine (congrFun hSet id).trans ?_
    rw [hLeaves.owed, takeEnd_owed hPosted]
    rfl
  have hKept : e.alive id = true ↔ (e.locals id).held = true ∨ id ∈ e.ending ∨ e.running = some id := by
    apply alive_iff_of_owing
    · rw [hStays]
      exact List.count_eq_one_of_mem h.queue.locals hMem
    · rw [hOwed, hSelf]
      exact h.owing id hMem
    · rw [hCalling]
      exact fun hCalls => (h.calling id hCalls).2 hMem
    · rw [hSelf]
      rfl
  constructor
  · rw [hStays]
    exact hMem
  · rw [← Bool.not_eq_true, hKept, hSelf, hEnding, hRunning]
    rintro (hHolds | hEnds | hRuns)
    · rw [hHeld] at hHolds
      cases hHolds
    · have hNodup := h.ending
      rw [ending_of_end hPosted, List.nodup_cons] at hNodup
      exact hNodup.1 hEnds
    · cases hRuns

/-- In any state between two steps, the queue holds what lives, and what has left it has been
polled to its end or told that the connection is over. -/
theorem lasts (h : Settled c) : Lasts c where
  alive _ hMem := h.toTended.alive hMem
  emitted id hId hOut := (h.settled id hId).resolve_left hOut
  ended id _ hHeld hEnding hMem := by
    rcases h.owned id hMem with hHolds | hEnds | hRuns
    · rw [hHeld] at hHolds
      cases hHolds
    · exact hEnding hEnds
    · rw [h.idle] at hRuns
      cases hRuns

/-- A step that ends another response than the first one lets it expire. -/
theorem expires_of_not {sent : Http1 → List UserOp} {fuel : Nat} {op : Op} (h : Settled c)
    (hDrops : DropsAtOnce c op) (hNot : ¬ EndsInFront c op) (hStep : c.step sent fuel op = .ok c') :
    ¬ Lasts c' := by
  intro hLasts
  cases op with
  | posted =>
      apply hNot
      intro p hp id hEnds hMem
      cases p with
      | endResponse i =>
          cases hEnds
          obtain ⟨rest, hPosted⟩ := List.head?_eq_some_iff.mp hp
          have hHeld := hDrops id (mem_ending.mpr (hPosted ▸ List.mem_cons_self))
          by_contra hFront
          obtain ⟨hIn, hDead⟩ := h.expires hPosted hHeld hMem hFront hStep
          cases hDead.symm.trans (hLasts.alive id hIn)
      | feedback | remoteEnded | callback => cases hEnds
  | user | decodingStart | decodedHeaders | decodedBody | decodedTrailer | decodingEnd | decodingFailure
    | written | readFailed | connectorLost => exact hNot trivial

end Settled

theorem lasts_iff {sent : Http1 → List UserOp} {fuel : Nat} {ops : List Op} (h : Settled c)
    (hDrops : Guarded DropsAtOnce sent fuel c ops) (hRun : run sent fuel c ops = .ok c') :
    (∀ before after d, ops = before ++ after → run sent fuel c before = .ok d → Lasts d) ↔
      Guarded EndsInFront sent fuel c ops := by
  induction ops generalizing c with
  | nil =>
      constructor
      · intro _
        trivial
      · intro _ before after d hOps hBefore
        obtain ⟨rfl, -⟩ := List.append_eq_nil_iff.mp hOps.symm
        cases hBefore
        exact h.lasts
  | cons op ops ih =>
      obtain ⟨d, hStep, hRest⟩ := run_cons.mp hRun
      constructor
      · intro hAll
        have hFront : EndsInFront c op := by
          by_contra hNot
          exact h.expires_of_not hDrops.1 hNot hStep
            (hAll [op] ops d rfl (run_cons.mpr ⟨d, hStep, rfl⟩))
        refine Guarded.cons hStep hFront ((ih (h.step hDrops.1 hFront hStep) (hDrops.2 d hStep) hRest).mp ?_)
        intro before after e hOps hBefore
        exact hAll (op :: before) after e (congrArg (op :: ·) hOps) (run_cons.mpr ⟨d, hStep, hBefore⟩)
      · intro ⟨hFront, hGuarded⟩ before after e hOps hBefore
        cases before with
        | nil =>
            cases hBefore
            exact h.lasts
        | cons first before =>
            cases hOps
            obtain ⟨d', hStep', hBefore⟩ := run_cons.mp hBefore
            rw [hStep] at hStep'
            cases hStep'
            exact (ih (h.step hDrops.1 hFront hStep) (hDrops.2 d hStep) hRest).mpr (hGuarded d hStep)
              before after e rfl hBefore

/-- A server whose handlers drop their responses at once after they have ended them: no response
expires in the queue, and all are polled to their end unless the connection is lost or closed, if
and only if the ends run in the order of the requests. -/
theorem ended_responses_last_iff (sent : Http1 → List UserOp) (fuel : Nat) (ops : List Op) (c : Http1)
    (hDrops : Guarded DropsAtOnce sent fuel { role := .server } ops)
    (hRun : run sent fuel { role := .server } ops = .ok c) :
    (∀ before after d, ops = before ++ after → run sent fuel { role := .server } before = .ok d → Lasts d) ↔
      Guarded EndsInFront sent fuel { role := .server } ops :=
  lasts_iff Settled.start hDrops hRun

/-- Two requests whose handlers answer, end and drop their responses in the given order. -/
def pipelinedEnds (ids : List Nat) : List Op :=
  let response := Message.response
    { HttpResponse.fresh 200 with toStructuredData := StructuredData.fresh.setProtocol .HTTP11 }
  [.decodingStart, .decodingEnd, .decodingStart, .decodingEnd] ++ ids.flatMap fun id =>
    [.user (.headers id response), .user (.finish id), .user (.drop id), .posted]

theorem ended_responses_last_iff_in_order :
    ∃ c, run (fun _ => []) 9 { role := .server } (pipelinedEnds [0, 1]) = .ok c ∧
      ((∀ before after d, pipelinedEnds [0, 1] = before ++ after →
        run (fun _ => []) 9 { role := .server } before = .ok d → Lasts d) ↔
        Guarded EndsInFront (fun _ => []) 9 { role := .server } (pipelinedEnds [0, 1])) :=
  ⟨_, rfl, ended_responses_last_iff (fun _ => []) 9 (pipelinedEnds [0, 1]) _ (by decide) rfl⟩

/-- The second handler finishes first: its response expires in the queue, and when the first one
has ended, the connection fails with `missing_stream_element`. -/
theorem ended_response_expires :
    Guarded DropsAtOnce (fun _ => []) 9 { role := .server } (pipelinedEnds [1, 0]) ∧
      (run (fun _ => []) 9 { role := .server } (pipelinedEnds [1])).map
        (fun c => (c.localObjects, c.alive 1)) = .ok ([0, 1], false) ∧
      (run (fun _ => []) 9 { role := .server } (pipelinedEnds [1, 0])).map
        (fun c => (c.errors, decide (.ended 1 ∈ c.log))) = .ok ([.missingStreamElement], false) := by
  decide

end Http1

end Doormat.Protocol
