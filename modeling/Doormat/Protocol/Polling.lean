import Doormat.Protocol.Queues

/-! Polling: `poll_local` drains one object and touches no other, and the loop of
`notify_local_content` drains the queue up to the first object that has not ended. -/
namespace Doormat.Protocol

open Bytes Doormat.Http

/-- A local object once everything that it holds has been taken. -/
def Local.drained (l : Local) : Local := { l with headers := none, content := [], trailers := [] }

/-- The object holds something to emit, or the end. -/
def Local.ready (l : Local) : Bool :=
  l.headers.isSome || l.content ≠ [] || l.trailers ≠ [] || l.ended

theorem Local.getState_pending {l : Local} (hContinue : l.continueRequired = false) :
    l.getState.1 = .pending ↔ l.ready = false := by
  rw [Local.getState, if_neg (by simp [hContinue]), Local.ready]
  split
  case isTrue h => simp [h]
  split
  case isTrue h => simp [h]
  split
  case isTrue h => simp [h]
  split
  case isTrue h => simp [h]
  case isFalse hHeaders hContent hTrailers hEnded =>
    simp at hHeaders hContent hTrailers hEnded
    simp [hHeaders, hContent, hTrailers, hEnded]

namespace Http1

variable {c c' d : Http1} {id : Nat}

/-! ### Owners -/

@[simp] theorem noteIdle_alive (c d : Http1) : (c.noteIdle d).alive = d.alive := by
  rw [noteIdle]
  split
  · rfl
  · rfl

/-- A write moves feedbacks, and with them the ownership, but drops none. -/
theorem connectorDoWrite_alive (c : Http1) : c.connectorDoWrite.alive = c.alive := by
  funext j
  rcases connectorDoWrite_cases c with
    ⟨hEq, -⟩ | ⟨hWriting, -, -, hEq⟩ | ⟨hWriting, -, -, -, hEq⟩
  · rw [hEq]
  · have hPosted : (c.pendingClearCallbacks.map fun f => Posted.feedback f true).any
        (Posted.holds j) = c.pendingClearCallbacks.any (·.id = j) := by
      rw [List.any_map]
      rfl
    rw [hEq, noteIdle_alive]
    simp only [alive, postFeedbacks, post, List.any_append, hPosted, List.any_nil, Bool.or_false]
    simp only [Bool.or_assoc, Bool.or_comm, Bool.or_left_comm]
  · rw [hEq]
    simp only [alive, asyncWrite, hWriting, Option.any_none, Option.any_some, List.any_nil,
      Bool.or_false]

@[simp] theorem doWrite_alive (c : Http1) : c.doWrite.alive = c.alive := by
  rw [doWrite]
  split
  · exact connectorDoWrite_alive c
  · rfl

/-- From `c` to `c'`, no object but `id` has been touched, and the queues stay. -/
structure Touches (id : Nat) (c c' : Http1) : Prop where
  role : c'.role = c.role
  localObjects : c'.localObjects = c.localObjects
  remoteObjects : c'.remoteObjects = c.remoteObjects
  opened : c'.opened = c.opened
  locals : ∀ j, j ≠ id → c'.locals j = c.locals j
  alive : ∀ j, j ≠ id → c'.alive j = c.alive j

theorem Touches.rfl (id : Nat) (c : Http1) : Touches id c c :=
  ⟨by rfl, by rfl, by rfl, by rfl, fun _ _ => by rfl, fun _ _ => by rfl⟩

theorem Touches.trans {c d e : Http1} (h : Touches id c d) (h' : Touches id d e) :
    Touches id c e :=
  { role := h'.role.trans h.role
    localObjects := h'.localObjects.trans h.localObjects
    remoteObjects := h'.remoteObjects.trans h.remoteObjects
    opened := h'.opened.trans h.opened
    locals := fun j hj => (h'.locals j hj).trans (h.locals j hj)
    alive := fun j hj => (h'.alive j hj).trans (h.alive j hj) }

theorem setLocal_touches (c : Http1) (id : Nat) (l : Local) : Touches id c (c.setLocal id l) where
  role := by rfl
  localObjects := by rfl
  remoteObjects := by rfl
  opened := by rfl
  locals j hj := Function.update_of_ne hj _ _
  alive j hj := by simp [Http1.alive, setLocal, hj]

/-- A write after a change that touches `id`. -/
theorem Touches.doWrite (h : Touches id c d) : Touches id c d.doWrite where
  role := by rw [doWrite_role, h.role]
  localObjects := by rw [doWrite_localObjects, h.localObjects]
  remoteObjects := by rw [doWrite_remoteObjects, h.remoteObjects]
  opened := by rw [doWrite_opened, h.opened]
  locals j hj := by rw [doWrite_locals, h.locals j hj]
  alive j hj := by rw [doWrite_alive, h.alive j hj]

theorem Touches.encodes (h : Touches id c d) (e : Encoder) (bytes : ByteString) :
    Touches id c ({ d with encoder := e }.serialise id bytes) := { h with }

theorem notifyLocalHeaders_touches {m : Message} (hRun : c.notifyLocalHeaders id m = .ok c') :
    Touches id c c' ∧ c'.locals id = { c.locals id with headers := none } := by
  obtain ⟨bytes, encoder, -, rfl⟩ := notifyLocalHeaders_ok.mp hRun
  have hTaken : Touches id c ((c.takeHeaders id m).record (.sent m.data)) :=
    { setLocal_touches c id { c.locals id with headers := none } with }
  refine ⟨(hTaken.encodes encoder bytes).doWrite, ?_⟩
  rw [doWrite_locals]
  exact Function.update_self _ _ _

theorem notifyLocalBody_touches (hRun : c.notifyLocalBody id = .ok c') :
    Touches id c c' ∧ c'.locals id = { c.locals id with content := [] } := by
  obtain ⟨bytes, encoder, -, rfl⟩ := notifyLocalBody_ok.mp hRun
  refine ⟨((setLocal_touches c id _).encodes encoder bytes).doWrite, ?_⟩
  rw [doWrite_locals]
  exact Function.update_self _ _ _

theorem notifyLocalTrailer_touches {key value : ByteString}
    (hRun : c.notifyLocalTrailer id key value = .ok c') :
    Touches id c c' ∧
      c'.locals id = { c.locals id with trailers := (c.locals id).trailers.tail } := by
  obtain ⟨bytes, encoder, -, rfl⟩ := notifyLocalTrailer_ok.mp hRun
  refine ⟨((setLocal_touches c id _).encodes encoder bytes).doWrite, ?_⟩
  rw [doWrite_locals]
  exact Function.update_self _ _ _

theorem notifyLocalEnd_touches (hRun : c.notifyLocalEnd id = .ok c') :
    Touches id c c' ∧ c'.locals id = c.locals id := by
  obtain ⟨bytes, encoder, -, rfl⟩ := notifyLocalEnd_ok.mp hRun
  have hQueued : Touches id c (({ c with encoder := encoder }.serialise id bytes).queueFeedback id) :=
    { Touches.rfl id c with
      alive := by
        intro j hj
        simp [Http1.alive, queueFeedback, record, serialise, Ne.symm hj] }
  refine ⟨hQueued.doWrite, ?_⟩
  rw [doWrite_locals]
  rfl

theorem notifyContinue_touches (hRun : c.notifyContinue id = .ok c') :
    Touches id c c' ∧ c'.locals id = c.locals id := by
  obtain ⟨header, first, eom, encoder, -, -, rfl⟩ := notifyContinue_ok.mp hRun
  refine ⟨((Touches.rfl id c).encodes encoder (header ++ eom)).doWrite, ?_⟩
  rw [doWrite_locals]
  rfl

/-- A server's object that requires a continue gives nothing else. -/
theorem pollLoop_of_continue {fuel : Nat} {b : Bool} (h : (c.locals id).continueRequired = true)
    (hRun : pollLoop id fuel c = .ok (c', b)) :
    b = false ∧ Touches id c c' ∧
      c'.locals id = { c.locals id with continueRequired := false } := by
  cases fuel with
  | zero => cases hRun
  | succ fuel =>
      rw [pollLoop, Local.getState_of_continue h] at hRun
      obtain ⟨d, hStep, hRest⟩ := bind_eq_ok.mp hRun
      cases hRest
      obtain ⟨hTouches, hLocal⟩ := notifyContinue_touches hStep
      refine ⟨rfl, (setLocal_touches c id _).trans hTouches, ?_⟩
      rw [hLocal]
      exact Function.update_self _ _ _

/-- Any other object is drained, and has finished if it has ended. -/
theorem pollLoop_drains {fuel : Nat} {b : Bool} (h : (c.locals id).continueRequired = false)
    (hRun : pollLoop id fuel c = .ok (c', b)) :
    b = (c.locals id).ended ∧ Touches id c c' ∧ c'.locals id = (c.locals id).drained := by
  induction fuel generalizing c with
  | zero => cases hRun
  | succ fuel ih =>
      obtain ⟨hSame, hState⟩ := Local.getState_of_not_continue h
      rcases hGet : (c.locals id).getState with ⟨state, l⟩
      rw [pollLoop, hGet] at hRun
      rw [hGet] at hSame hState
      dsimp only at hSame
      rw [hSame] at hRun
      dsimp only at hRun
      rw [setLocal_self] at hRun
      -- a round takes one thing, and the rest of the loop drains what is left
      have hRound : ∀ {d l}, Touches id c d ∧ d.locals id = l →
          l.continueRequired = false → l.ended = (c.locals id).ended →
          l.drained = (c.locals id).drained → pollLoop id fuel d = .ok (c', b) →
          b = (c.locals id).ended ∧ Touches id c c' ∧
            c'.locals id = (c.locals id).drained := by
        rintro d l ⟨hTouches, rfl⟩ hContinue hEnded hDrained hRest
        obtain ⟨hFinished, hTouches', hLocal⟩ := ih hContinue hRest
        exact ⟨hFinished.trans hEnded, hTouches.trans hTouches', hLocal.trans hDrained⟩
      cases state with
      | sendContinue => exact hState.elim
      | pending =>
          obtain ⟨hHeaders, hContent, hTrailers, hEnded⟩ := hState
          cases hRun
          refine ⟨hEnded.symm, Touches.rfl id _, ?_⟩
          rw [Local.drained, ← hHeaders, ← hContent, ← hTrailers]
      | headersReceived =>
          cases hHeaders : (c.locals id).headers with
          | none =>
              rw [LocalState.Of, hHeaders] at hState
              cases hState
          | some m =>
              simp only [hHeaders] at hRun
              obtain ⟨d, hStep, hRest⟩ := bind_eq_ok.mp hRun
              exact hRound (notifyLocalHeaders_touches hStep) h rfl rfl hRest
      | bodyReceived =>
          obtain ⟨d, hStep, hRest⟩ := bind_eq_ok.mp hRun
          exact hRound (notifyLocalBody_touches hStep) h rfl rfl hRest
      | trailerReceived =>
          cases hTrailers : (c.locals id).trailers with
          | nil => exact absurd hTrailers hState.2.2
          | cons trailer rest =>
              simp only [hTrailers] at hRun
              obtain ⟨d, hStep, hRest⟩ := bind_eq_ok.mp hRun
              exact hRound (notifyLocalTrailer_touches hStep) h rfl rfl hRest
      | ended =>
          obtain ⟨hHeaders, hContent, hTrailers, hEnded⟩ := hState
          obtain ⟨d, hStep, hRest⟩ := bind_eq_ok.mp hRun
          cases hRest
          obtain ⟨hTouches, hLocal⟩ := notifyLocalEnd_touches hStep
          refine ⟨hEnded.symm, hTouches, ?_⟩
          rw [hLocal, Local.drained, ← hHeaders, ← hContent, ← hTrailers]

/-! ### Stalled responses -/

/-- The first object has nothing to emit. -/
def Quiet (c : Http1) : Prop :=
  ∀ id rest, c.localObjects = id :: rest → (c.locals id).getState.1 = .pending

/-- After the objects at the front that have ended, and require no continue, comes one
that requires a continue and has something else to emit. -/
def stalls (c : Http1) : List Nat → Bool
  | [] => false
  | id :: rest =>
      c.alive id && if (c.locals id).continueRequired then (c.locals id).ready
        else (c.locals id).ended && c.stalls rest

theorem stalls_congr {ids : List Nat} (hLocals : ∀ id ∈ ids, d.locals id = c.locals id)
    (hAlive : ∀ id ∈ ids, d.alive id = c.alive id) : d.stalls ids = c.stalls ids := by
  induction ids with
  | nil => rfl
  | cons id rest ih =>
      have hRest := ih (fun j hj => hLocals j (List.mem_cons_of_mem _ hj))
        fun j hj => hAlive j (List.mem_cons_of_mem _ hj)
      rw [stalls, stalls, hRest, hLocals id List.mem_cons_self, hAlive id List.mem_cons_self]

theorem quiet_of_nil (h : c.localObjects = []) : Quiet c := by
  intro id rest hLocals
  rw [h] at hLocals
  cases hLocals

theorem quiet_cons {rest : List Nat} (h : c.localObjects = id :: rest) :
    Quiet c ↔ (c.locals id).getState.1 = .pending := by
  constructor
  · intro hQuiet
    exact hQuiet id rest h
  · intro hPending j others hLocals
    rw [h] at hLocals
    cases hLocals
    exact hPending

/-- A call of `notify_local_content` on a server leaves nothing to emit at the front of
the queue, unless the loop breaks at an object that requires a continue. -/
theorem notifyLocalContent_quiet_iff {sent : Http1 → List UserOp} {fuel : Nat}
    (hRole : c.role = .server) (hNodup : c.localObjects.Nodup)
    (hRun : notifyLocalContent sent fuel c = .ok c') :
    Quiet c' ↔ c.stalls c.localObjects = false := by
  induction fuel generalizing c with
  | zero => cases hRun
  | succ fuel ih =>
      rw [notifyLocalContent] at hRun
      cases hLocals : c.localObjects with
      | nil =>
          rw [hLocals] at hRun
          cases hRun
          simp [quiet_of_nil hLocals, stalls]
      | cons id rest =>
          rw [hLocals] at hRun hNodup
          dsimp only at hRun
          split at hRun
          case isFalse hDead =>
            -- the object has expired: everybody is told, and nothing is queued any more
            have hStalls : c.stalls (id :: rest) = false := by simp [stalls, hDead]
            have hNil := ih (c := (c.error .missingStreamElement).notifyAll .missingStreamElement)
              (by rw [notifyAll_role]; exact hRole) List.nodup_nil hRun
            rw [hNil, hStalls]
            simp [notifyAll, stalls]
          case isTrue hAlive =>
            obtain ⟨⟨d, finished⟩, hPoll, hRun⟩ := bind_eq_ok.mp hRun
            dsimp only at hRun
            by_cases hContinue : (c.locals id).continueRequired = true
            · obtain ⟨hFinished, hTouches, hLocal⟩ := pollLoop_of_continue hContinue hPoll
              rw [hFinished] at hRun
              cases hRun
              rw [quiet_cons (hTouches.localObjects.trans hLocals), hLocal,
                Local.getState_pending rfl]
              simp [stalls, hAlive, hContinue, Local.ready]
            · have hContinue : (c.locals id).continueRequired = false := by simpa using hContinue
              obtain ⟨hFinished, hTouches, hLocal⟩ := pollLoop_drains hContinue hPoll
              have hServer : d.role = .server := hTouches.role.trans hRole
              cases hEnded : (c.locals id).ended with
              | false =>
                  rw [hFinished, hEnded] at hRun
                  cases hRun
                  have hDrained : (c.locals id).drained.continueRequired = false := hContinue
                  rw [quiet_cons (hTouches.localObjects.trans hLocals), hLocal,
                    Local.getState_pending hDrained]
                  simp [stalls, hContinue, hEnded, Local.ready, Local.drained]
              | true =>
                  rw [hFinished, hEnded, if_pos rfl, if_neg (by simp [hServer])] at hRun
                  have hRun : d.popFront >>= notifyLocalContent sent fuel = .ok c' := hRun
                  obtain ⟨e, hPop, hRest⟩ := bind_eq_ok.mp hRun
                  obtain ⟨id', rest', hQueue, rfl⟩ := popFront_ok.mp hPop
                  rw [hTouches.localObjects, hLocals] at hQueue
                  cases hQueue
                  have hFresh := (List.nodup_cons.mp hNodup).1
                  rw [ih (c := { d.record (.removed id) with localObjects := rest }) hServer
                    (List.nodup_cons.mp hNodup).2 hRest]
                  have hSame : d.stalls rest = c.stalls rest :=
                    stalls_congr (fun j hj => hTouches.locals j (ne_of_mem_of_not_mem hj hFresh))
                      fun j hj => hTouches.alive j (ne_of_mem_of_not_mem hj hFresh)
                  have hRecorded : stalls { d.record (.removed id) with localObjects := rest } rest =
                      d.stalls rest :=
                    stalls_congr (fun _ _ => by rfl) fun _ _ => by rfl
                  rw [hRecorded, hSame]
                  simp [stalls, hAlive, hContinue, hEnded]

/-- The connections for which a server calls `notify_local_content`: after an update of a response,
and in the closure that `end` posts. -/
inductive Notifies (c : Http1) : Http1 → Prop
  | update (id : Nat) (l : Local) : Notifies c (c.setLocal id l)
  | closure (id : Nat) (rest : List Posted) (hPosted : c.posted = .endResponse id :: rest) :
      Notifies c ({ c with posted := rest, running := some id }.setLocal id
        { c.locals id with ended := true })

theorem Notifies.same (h : c.Notifies d) : d.role = c.role ∧ d.localObjects = c.localObjects := by
  cases h with
  | update id l => exact ⟨rfl, rfl⟩
  | closure id rest hPosted => exact ⟨rfl, rfl⟩

/-- A server, whatever has happened so far: when a call of `notify_local_content` returns, be it
after an update of a response or in a closure posted by `end`, nothing is left to emit at the front
of the queue, if and only if the queue does not stall. -/
theorem no_stalled_response_iff (sent : Http1 → List UserOp) (fuel : Nat) (ops : List Op)
    (c c' d : Http1) (hRun : run sent fuel { role := .server } ops = .ok c) (hCall : c.Notifies d)
    (hNotify : notifyLocalContent sent fuel d = .ok c') :
    Quiet c' ↔ d.stalls d.localObjects = false := by
  have hQueued : Queued c :=
    Queued.stable.run (Queued.start .server) (writesWithin_true sent fuel _ ops) hRun
  have hRole : c.role = .server :=
    (role_stable .server).run rfl (writesWithin_true sent fuel _ ops) hRun
  obtain ⟨hSameRole, hSame⟩ := hCall.same
  exact notifyLocalContent_quiet_iff (hSameRole.trans hRole) (hSame ▸ hQueued.locals) hNotify

/-- Two requests; the second response is complete, requires a continue, and waits for the
first one, the end of which is posted. -/
def stallingRun : List Op :=
  let response := Message.response
    { HttpResponse.fresh 200 with toStructuredData := StructuredData.fresh.setProtocol .HTTP11 }
  [.decodingStart, .decodingEnd, .decodingStart, .decodingEnd, .user (.sendContinue 1),
    .user (.headers 1 response), .user (.headers 0 response), .posted, .posted, .user (.finish 0)]

theorem no_stalled_response_iff_stalling :
    ∃ c c' d, run (fun _ => []) 9 { role := .server } stallingRun = .ok c ∧ c.Notifies d ∧
      notifyLocalContent (fun _ => []) 9 d = .ok c' ∧
      (Quiet c' ↔ d.stalls d.localObjects = false) :=
  ⟨_, _, _, rfl, .closure 0 [] rfl, rfl,
    no_stalled_response_iff (fun _ => []) 9 stallingRun _ _ _ rfl (.closure 0 [] rfl) rfl⟩

/-- The closure runs. The loop takes off the first response, serialises the interim response of the
second one and breaks, with the headers of the second response left in the queue. -/
theorem response_stalled :
    ∃ c, run (fun _ => []) 9 { role := .server } (stallingRun ++ [.posted]) = .ok c ∧
      c.localObjects = [1] ∧ (c.locals 1).getState.1 = .headersReceived ∧ ¬ Quiet c := by
  refine ⟨_, rfl, rfl, rfl, ?_⟩
  intro hQuiet
  cases hQuiet 1 [] rfl

end Http1

end Doormat.Protocol
