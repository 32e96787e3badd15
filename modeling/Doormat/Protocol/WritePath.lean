import Mathlib.Data.List.TakeWhile
import Doormat.Protocol.Silence

/-! The write path: every byte that the handler serialises goes to `async_write` once and
in order, one write at a time, and an object is told of a success only after all that it has
serialised has been written, unless `on_request_sent` starts the request again that it reports. -/
namespace Doormat.Protocol

open Bytes Doormat.Http

/-- The bytes that a log tells of. -/
def bytesOf (log : List Happening) : ByteString :=
  log.flatMap fun
    | .serialised _ bytes => bytes
    | _ => []

@[simp] theorem bytesOf_append (log more : List Happening) :
    bytesOf (log ++ more) = bytesOf log ++ bytesOf more := List.flatMap_append

/-- The end of the feedback's object is in the log, and `upTo` counts the bytes before. -/
def Ends (log : List Happening) (f : Feedback) : Prop :=
  ∃ before after, log = before ++ .ended f.id :: after ∧ (bytesOf before).length = f.upTo

theorem Ends.append {log : List Happening} {f : Feedback} (h : Ends log f)
    (more : List Happening) : Ends (log ++ more) f := by
  obtain ⟨before, after, rfl, hUpTo⟩ := h
  exact ⟨before, after ++ more, by simp, hUpTo⟩

theorem Ends.upTo_le {log : List Happening} {f : Feedback} (h : Ends log f) :
    f.upTo ≤ (bytesOf log).length := by
  obtain ⟨before, after, rfl, hUpTo⟩ := h
  rw [bytesOf_append, List.length_append, hUpTo]
  exact Nat.le_add_right _ _

namespace Http1

/-- The bytes of the writes before the first one that has not succeeded. -/
def covered (c : Http1) : ByteString :=
  ((c.completed.takeWhile fun p => p.2 = .ok).map Prod.fst).flatten

theorem covered_eq {c : Http1} (h : ∀ p ∈ c.completed, p.2 = .ok) :
    c.covered = (c.completed.map Prod.fst).flatten := by
  have hAll : c.completed.takeWhile (fun p => decide (p.2 = .ok)) = c.completed := by
    apply List.takeWhile_eq_self_iff.mpr
    intro p hp
    exact decide_eq_true (h p hp)
  rw [covered, hAll]

theorem covered_prefix (c : Http1) : c.covered <+: (c.completed.map Prod.fst).flatten :=
  ((List.takeWhile_prefix _).map _).flatten

/-- The alignment of the bytes serialised, the writes and the feedbacks. -/
structure Aligned (c : Http1) : Prop where
  log : bytesOf c.log = c.serialised
  bytes : c.serialised = c.buffers.flatten ++ c.serialization
  outstanding : c.outstanding = if c.writing.isSome then 1 else 0
  inFlight : ∀ w, c.writing = some w → w.buffer = c.out ∧ c.connected = true
  buffers : c.buffers = c.completed.map Prod.fst ++ (c.writing.map Write.buffer).toList
  healthy : c.writing.isSome ∨ c.stopped = false → ∀ p ∈ c.completed, p.2 = .ok
  pending : ∀ f ∈ c.pendingClearCallbacks, Ends c.log f
  captured : ∀ w, c.writing = some w → ∀ f ∈ w.feedbacks,
    Ends c.log f ∧ f.upTo ≤ c.buffers.flatten.length
  reported : ∀ f, .feedback f true ∈ c.posted → Ends c.log f ∧ f.upTo ≤ c.covered.length

namespace Aligned

variable {c c' : Http1}

theorem start (role : Role) : Aligned { role := role } where
  log := rfl
  bytes := rfl
  outstanding := rfl
  inFlight := nofun
  buffers := rfl
  healthy := by
    intro _ p hp
    cases hp
  pending := nofun
  captured := nofun
  reported := nofun

/-- A log entry with its bytes; an entry without bytes is the case `bytes = []`. -/
theorem logged (h : Aligned c) (e : Happening) (bytes : ByteString) (he : bytesOf [e] = bytes) :
    Aligned { c.record e with
      serialization := c.serialization ++ bytes, serialised := c.serialised ++ bytes } where
  log := by rw [record, bytesOf_append, h.log, he]
  bytes := by rw [h.bytes, List.append_assoc]; rfl
  outstanding := h.outstanding
  inFlight := h.inFlight
  buffers := h.buffers
  healthy := h.healthy
  pending f hf := (h.pending f hf).append _
  captured w hw f hf := ⟨(h.captured w hw f hf).1.append _, (h.captured w hw f hf).2⟩
  reported f hf := ⟨(h.reported f hf).1.append _, (h.reported f hf).2⟩

theorem silent (h : Aligned c) (e : Happening) (he : bytesOf [e] = []) : Aligned (c.record e) := by
  have hLogged := h.logged e [] he
  simp only [List.append_nil] at hLogged
  exact hLogged

theorem serialise (h : Aligned c) (id : Nat) (bytes : ByteString) :
    Aligned (c.serialise id bytes) := h.logged (.serialised id bytes) bytes (by simp [bytesOf])

/-- With nothing in flight and nothing left to write, all that was serialised is covered. -/
theorem covered_all (h : Aligned c) (hWriting : c.writing = none) (hStopped : c.stopped = false) :
    c.covered = c.buffers.flatten := by
  rw [covered_eq (h.healthy (.inr hStopped)), h.buffers, hWriting]
  simp

theorem postFeedbacks (h : Aligned c) (hWriting : c.writing = none) (hStopped : c.stopped = false)
    (hNothing : c.serialization = []) : Aligned c.postFeedbacks where
  log := h.log
  bytes := h.bytes
  outstanding := h.outstanding
  inFlight := h.inFlight
  buffers := h.buffers
  healthy := h.healthy
  pending := nofun
  captured := h.captured
  reported f hf := by
    rcases List.mem_append.mp hf with hf | hf
    · exact h.reported f hf
    have hf : f ∈ c.pendingClearCallbacks := by simpa using hf
    have hEnds := h.pending f hf
    refine ⟨hEnds, ?_⟩
    show f.upTo ≤ c.covered.length
    have hAll : c.serialised = c.buffers.flatten := by rw [h.bytes, hNothing, List.append_nil]
    rw [h.covered_all hWriting hStopped, ← hAll, ← h.log]
    exact hEnds.upTo_le

theorem asyncWrite (h : Aligned c) (hWriting : c.writing = none) (hStopped : c.stopped = false)
    (hConnected : c.connected = true) :
    Aligned { c with out := c.serialization, serialization := [] }.asyncWrite where
  log := h.log
  bytes := by
    show c.serialised = (c.buffers ++ [c.serialization]).flatten ++ []
    rw [h.bytes]
    simp
  outstanding := by
    show c.outstanding + 1 = 1
    rw [h.outstanding, hWriting]
    rfl
  inFlight w hw := by
    cases hw
    exact ⟨rfl, hConnected⟩
  buffers := by
    show c.buffers ++ [c.serialization] = _
    rw [h.buffers, hWriting]
    simp [Http1.asyncWrite]
  healthy _ := h.healthy (.inr hStopped)
  pending := nofun
  captured w hw f hf := by
    cases hw
    have hEnds := h.pending f hf
    refine ⟨hEnds, ?_⟩
    have hBytes : (c.buffers ++ [c.serialization]).flatten = c.serialised := by
      rw [h.bytes]
      simp
    show f.upTo ≤ (c.buffers ++ [c.serialization]).flatten.length
    rw [hBytes, ← h.log]
    exact hEnds.upTo_le
  reported := h.reported

theorem connectorDoWrite (h : Aligned c) (hConnected : c.connected = true) :
    Aligned c.connectorDoWrite := by
  rcases connectorDoWrite_cases c with
    ⟨hEq, -⟩ | ⟨hWriting, hStopped, hNothing, hEq⟩ | ⟨hWriting, hStopped, -, -, hEq⟩
  · rw [hEq]
    exact h
  · have hEmpty : c.serialization = [] := by
      rcases hNothing with hLost | hEmpty
      · rw [hConnected] at hLost
        cases hLost
      · exact hEmpty
    have hCleared : Aligned { c with out := [] } :=
      { h with
        inFlight := by
          intro w hw
          rw [show c.writing = some w from hw] at hWriting
          cases hWriting }
    have hPosted := hCleared.postFeedbacks hWriting hStopped hEmpty
    rw [hEq, noteIdle, if_pos hEmpty]
    exact { hPosted with }
  · rw [hEq]
    exact h.asyncWrite hWriting hStopped hConnected

theorem doWrite (h : Aligned c) : Aligned c.doWrite := by
  rw [Http1.doWrite]
  split
  case isTrue hConnected => exact h.connectorDoWrite hConnected
  case isFalse => exact h

/-- The feedback of an object that has ended, queued once its last byte is serialised. -/
theorem queueFeedback (h : Aligned c) (id : Nat) : Aligned (c.queueFeedback id) :=
  { h.silent (.ended id) rfl with
    pending := by
      intro f hf
      rcases List.mem_append.mp hf with hf | hf
      · exact (h.pending f hf).append _
      · rw [List.mem_singleton.mp hf]
        exact ⟨c.log, [], rfl, by rw [h.log]⟩ }

/-- A closure that is not a success. -/
theorem post (h : Aligned c) (ps : List Posted) (hps : ∀ p ∈ ps, p.succeeds = false) :
    Aligned (c.post ps) :=
  { h with
    reported := by
      intro f hf
      rcases List.mem_append.mp hf with hf | hf
      · exact h.reported f hf
      · cases hps _ hf }

/-- The completion of a write, before its closures are posted. -/
theorem completes (h : Aligned c) {w : Write} (hw : c.writing = some w) (r : WriteResult)
    (hStopped : r ≠ .ok → c.stopped = true) :
    Aligned { c with
      writing := none, outstanding := c.outstanding - 1,
      completed := c.completed ++ [(w.buffer, r)] } where
  log := h.log
  bytes := h.bytes
  outstanding := by
    show c.outstanding - 1 = 0
    rw [h.outstanding, hw]
    rfl
  inFlight := nofun
  buffers := by
    show c.buffers = _
    rw [h.buffers, hw]
    simp
  healthy hHealthy p hp := by
    have hRunning : c.stopped = false := by simpa using hHealthy
    rcases List.mem_append.mp hp with hp | hp
    · exact h.healthy (.inr hRunning) p hp
    · rw [List.mem_singleton.mp hp]
      by_contra hFailed
      rw [hStopped hFailed] at hRunning
      cases hRunning
  pending := h.pending
  captured := nofun
  reported f hf := by
    obtain ⟨hEnds, hCovered⟩ := h.reported f hf
    refine ⟨hEnds, hCovered.trans ?_⟩
    have hAll : ∀ p ∈ c.completed, decide (p.2 = .ok) = true := by
      intro p hp
      exact decide_eq_true (h.healthy (.inl (by rw [hw]; rfl)) p hp)
    show c.covered.length ≤
      (((c.completed ++ [(w.buffer, r)]).takeWhile fun p => p.2 = .ok).map Prod.fst).flatten.length
    rw [List.takeWhile_append_of_pos hAll, covered_eq (h.healthy (.inl (by rw [hw]; rfl)))]
    simp

theorem stop (h : Aligned c) : Aligned c.stop :=
  { h with
    healthy := by
      intro hWriting
      apply h.healthy
      rcases hWriting with hWriting | hStopped
      · exact .inl hWriting
      · cases hStopped }

theorem written (h : Aligned c) (r : WriteResult) (hCancelled : r = .cancelled → c.stopped = true) :
    Aligned (c.written r) := by
  rw [Http1.written]
  split
  · exact h
  case h_2 w hw =>
    have hFailures : ∀ p ∈ w.feedbacks.map fun f => Posted.feedback f false,
        p.succeeds = false := by
      intro p hp
      obtain ⟨f, -, rfl⟩ := List.mem_map.mp hp
      rfl
    cases r with
    | ok =>
        have hDone := h.completes hw .ok (absurd rfl)
        -- a write in flight means that all before it have succeeded, stopped or not
        have hAll : ∀ p ∈ c.completed ++ [(w.buffer, .ok)], p.2 = WriteResult.ok := by
          intro p hp
          rcases List.mem_append.mp hp with hp | hp
          · exact h.healthy (.inl (by rw [hw]; rfl)) p hp
          · rw [List.mem_singleton.mp hp]
        have hReported : ∀ f ∈ w.feedbacks, Ends c.log f ∧
            f.upTo ≤
              { c with completed := c.completed ++ [(w.buffer, WriteResult.ok)] }.covered.length := by
          intro f hf
          obtain ⟨hEnds, hWritten⟩ := h.captured w hw f hf
          rw [covered_eq hAll]
          rw [h.buffers, hw] at hWritten
          exact ⟨hEnds, by simpa using hWritten⟩
        apply connectorDoWrite
        · exact
          { hDone with
            reported := by
              intro f hf
              rcases List.mem_append.mp hf with hf | hf
              · exact hDone.reported f hf
              · exact hReported f (by simpa using hf) }
        · exact (h.inFlight w hw).2
    | failed => exact (h.stop.completes hw .failed fun _ => rfl).post _ hFailures
    | cancelled => exact (h.completes hw .cancelled fun _ => hCancelled rfl).post _ hFailures

/-- Every operation of a connection keeps the alignment, as long as a write is cancelled
only after the connector has been stopped. -/
theorem stable : Stable Aligned fun c r => r = .cancelled → c.stopped = true where
  setLocal _ _ h := { h with }
  setRemote _ _ _ h := { h with }
  shows _ m _ h := { h.silent (.received m true) rfl with }
  post p hp h := h.post [p] (by simpa using hp)
  running _ h := { h with }
  unpost h := { h with reported := fun f hf => h.reported f (List.mem_of_mem_tail hf) }
  error _ h := { h with }
  opens _ h := { h with }
  clear h := { h with }
  userClose h := { h with }
  stop h := h.stop
  persistentSet b h := { h.silent (.persistentSet b) rfl with }
  encoder _ h := { h with }
  serialise id bytes h := h.serialise id bytes
  doWrite h := h.doWrite
  sent _ m h := { h.silent (.sent m.data) rfl with }
  feedback id h := h.queueFeedback id
  removed id h := { h.silent (.removed id) rfl with }
  flags _ _ h := { h with }
  received m taken h := { h.silent (.received m taken) rfl with }
  remoteTail h := { h with }
  localTail h := { h with }
  written r hr h := h.written r hr
  disconnect hWriting h :=
    { h with
      inFlight := by
        intro w hw
        rw [show _ = some w from hw] at hWriting
        cases hWriting }
  drained h := { h with pending := nofun }

end Aligned

/-- A request that asks for the connection to be closed, and its response. -/
def closingRun : List Op :=
  let request := (StructuredData.fresh.setProtocol .HTTP11).setKeepalive false
  let response := (StructuredData.fresh.setProtocol .HTTP11).setKeepalive false
  [.decodingStart, .decodedHeaders (.request { HttpRequest.fresh with toStructuredData := request }),
    .decodingEnd,
    .user (.headers 0 (.response { HttpResponse.fresh 200 with toStructuredData := response })),
    .user (.finish 0), .posted, .written .ok]

/-- Every byte that the object has serialised is in the writes that have succeeded. -/
def Covers (c : Http1) (id : Nat) : Prop :=
  ∀ before bytes after, c.log = before ++ .serialised id bytes :: after →
    bytesOf before ++ bytes <+: c.covered

/-- In any run, the writes that have succeeded are the beginning of what has been serialised. -/
theorem Aligned.covered_prefix_log {c : Http1} (h : Aligned c) : c.covered <+: bytesOf c.log := by
  have hBuffers : c.covered <+: c.buffers.flatten := by
    rw [h.buffers, List.flatten_append]
    exact c.covered_prefix.trans (List.prefix_append _ _)
  rw [h.log, h.bytes]
  exact hBuffers.trans (List.prefix_append _ _)

/-- A success that is reported covers all of an object that says nothing behind its end. -/
theorem Aligned.covers {c : Http1} (h : Aligned c) (hSilent : Silent c.log) {f : Feedback}
    (hf : .feedback f true ∈ c.posted) : c.Covers f.id := by
  intro before bytes after hLog
  obtain ⟨⟨front, back, hEnd, hUpTo⟩, hCovered⟩ := h.reported f hf
  -- the bytes stand before the end of the object
  have hFront : before ++ [.serialised f.id bytes] <+: front := by
    rcases List.append_eq_append_iff.mp (hLog.symm.trans hEnd) with
      ⟨rest, hFront, hRest⟩ | ⟨rest, -, hRest⟩
    · cases rest with
      | nil => cases hRest
      | cons first rest =>
          cases hRest
          exact ⟨rest, by rw [hFront, List.append_assoc, List.singleton_append]⟩
    · cases rest with
      | nil => cases hRest
      | cons first rest =>
          cases hRest
          have hMem : .serialised f.id bytes ∈ rest ++ .serialised f.id bytes :: after :=
            List.mem_append_right _ List.mem_cons_self
          exact absurd hMem (hSilent front _ f.id bytes hEnd)
  obtain ⟨rest, hFront⟩ := hFront
  have hBytes : bytesOf before ++ bytes <+: bytesOf front := by
    rw [← hFront, bytesOf_append, bytesOf_append]
    simp [bytesOf]
  have hLog : bytesOf before ++ bytes <+: bytesOf c.log := by
    apply hBytes.trans
    rw [hEnd, bytesOf_append]
    exact List.prefix_append _ _
  exact List.prefix_of_prefix_length_le hLog h.covered_prefix_log
    (hBytes.length_le.trans (hUpTo.trans_le hCovered))

/-- A run from the start of a connection, whose writes are cancelled only after the
connector has been stopped: at most one write is outstanding, and its buffer is the one
that was passed; the buffers, in order, are a prefix of what has been serialised; and an
object is told of a success only once everything that it has serialised has been written, as long
as `on_request_sent` gives no headers to the request that it reports. -/
theorem write_path_aligned (role : Role) (sent : Http1 → List UserOp) (fuel : Nat)
    (ops : List Op) (c : Http1)
    (hCancelled : WritesWithin (fun c r => r = .cancelled → c.stopped = true) sent fuel
      { role := role } ops)
    (hRun : run sent fuel { role := role } ops = .ok c) :
    c.outstanding ≤ 1 ∧ c.outstanding = (if c.writing.isSome then 1 else 0) ∧
    (∀ w, c.writing = some w → w.buffer = c.out ∧ c.buffers.getLast? = some w.buffer) ∧
    c.buffers.flatten <+: bytesOf c.log ∧
    (HoldsBack sent → ∀ f, .feedback f true ∈ c.posted → c.Covers f.id) := by
  have h : Aligned c := Aligned.stable.run (Aligned.start role) hCancelled hRun
  refine ⟨?_, h.outstanding, ?_, ?_, ?_⟩
  · rw [h.outstanding]
    split <;> omega
  · intro w hw
    refine ⟨(h.inFlight w hw).1, ?_⟩
    rw [h.buffers, hw]
    simp
  · rw [h.log, h.bytes]
    exact List.prefix_append _ _
  · intro hSent f hf
    exact h.covers (silent_throughout hSent hRun) hf

theorem write_path_aligned_closing :
    ∃ c, run (fun _ => []) 9 { role := .server } closingRun = .ok c ∧
    c.outstanding ≤ 1 ∧ c.outstanding = (if c.writing.isSome then 1 else 0) ∧
    (∀ w, c.writing = some w → w.buffer = c.out ∧ c.buffers.getLast? = some w.buffer) ∧
    c.buffers.flatten <+: bytesOf c.log ∧
    (HoldsBack (fun _ => []) → ∀ f, .feedback f true ∈ c.posted → c.Covers f.id) := by
  refine ⟨_, rfl, write_path_aligned .server (fun _ => []) 9 closingRun _ ?_ rfl⟩
  apply writesWithin_of_forall
  intro r hr c hCancelled
  simp [closingRun, hCancelled] at hr

/-- What an object has serialised as the entry `n` of the log, with all before it. -/
theorem Covers.length_le {c : Http1} {id n : Nat} {bytes : ByteString} (h : c.Covers id)
    (hEntry : c.log[n]? = some (.serialised id bytes)) :
    (bytesOf (c.log.take n)).length + bytes.length ≤ c.covered.length := by
  obtain ⟨hLt, hEntry⟩ := List.getElem?_eq_some_iff.mp hEntry
  have hLog : c.log = c.log.take n ++ .serialised id bytes :: c.log.drop (n + 1) := by
    rw [← hEntry, List.cons_getElem_drop_succ, List.take_append_drop]
  have hPrefix := h _ _ _ hLog
  rw [← List.length_append]
  exact hPrefix.length_le

/-- A chunked request. -/
def chunkedRequest : Message :=
  .request { HttpRequest.fresh with
    toStructuredData := (StructuredData.fresh.setProtocol .HTTP11).setChunked true }

/-- A callback that gives the first request its headers once more. -/
def startAgain (c : Http1) : List UserOp :=
  if c.log.count (.ended 0) = 1 then [.headers 0 chunkedRequest] else []

/-- Two transactions, of which the first is sent: its headers, and its end. -/
def sentOps : List Op :=
  [.user .create, .user .create, .user (.headers 0 chunkedRequest), .written .ok, .user (.finish 0),
    .written .ok]

/-- The callback is called while the request is still at the front of the queue, so that its headers
are serialised again. The success of the first time is reported when these have not been written. -/
theorem success_before_all_written :
    ∃ c, run startAgain 9 { role := .client } sentOps = .ok c ∧
      ∃ f, .feedback f true ∈ c.posted ∧ ¬ c.Covers f.id := by
  have hRun : (run startAgain 9 { role := .client } sentOps).map (fun c =>
      (c.posted, c.covered.length, (bytesOf (c.log.take 6)).length, c.log[6]?)) =
        .ok ([.feedback ⟨0, 51⟩ true], 51, 97,
          some (.serialised 0 (transferChunkedTermination ++ crlf))) := by
    decide +kernel
  cases hEnd : run startAgain 9 { role := .client } sentOps with
  | error e =>
      rw [hEnd] at hRun
      cases hRun
  | ok c =>
      rw [hEnd] at hRun
      simp only [Except.map, Except.ok.injEq, Prod.mk.injEq] at hRun
      obtain ⟨hPosted, hCovered, hBefore, hEntry⟩ := hRun
      refine ⟨c, rfl, ⟨0, 51⟩, ?_, ?_⟩
      · rw [hPosted]
        exact List.mem_singleton_self _
      · intro h
        have hLength := h.length_le hEntry
        omega

/-- No call of `do_write` that has nothing to write stops the connector. -/
def KeepsGoing (c : Http1) : Prop := ∀ p ∈ c.idleWrites, p.stopped = false

namespace KeepsGoing

variable {c : Http1}

theorem connectorDoWrite (h : KeepsGoing c) : KeepsGoing c.connectorDoWrite := by
  rcases connectorDoWrite_cases c with ⟨hEq, -⟩ | ⟨-, hStopped, -, hEq⟩ | ⟨-, -, -, -, hEq⟩
  · rw [hEq]
    exact h
  · rw [hEq, noteIdle]
    split
    · intro p hp
      rcases List.mem_append.mp hp with hp | hp
      · exact h p hp
      · rw [List.mem_singleton.mp hp]
        exact hStopped
    · exact h
  · rw [hEq]
    exact h

theorem stable : Stable KeepsGoing fun _ _ => True where
  doWrite h := by
    rw [Http1.doWrite]
    split
    · exact h.connectorDoWrite
    · exact h
  written r _ h := by
    rw [Http1.written]
    split
    · exact h
    · cases r with
      | ok => exact connectorDoWrite h
      | failed => exact h
      | cancelled => exact h

end KeepsGoing

/-- In any run, a call of `do_write` that finds no write in flight and nothing left to
serialise stops the connector exactly when it should, if and only if it should not: the
connection is persistent, or an exchange is outstanding. -/
theorem idle_write_stops_iff (role : Role) (sent : Http1 → List UserOp) (fuel : Nat)
    (ops : List Op) (c : Http1) (hRun : run sent fuel { role := role } ops = .ok c) :
    ∀ p ∈ c.idleWrites, (p.stopped = true ↔ p.finished = true) ↔ p.finished = false := by
  have hStart : KeepsGoing { role := role } := fun p hp => by cases hp
  have h : KeepsGoing c := KeepsGoing.stable.run hStart (writesWithin_true sent fuel _ ops) hRun
  intro p hp
  rw [h p hp]
  simp

theorem idle_write_stops_iff_closing :
    ∃ c, run (fun _ => []) 9 { role := .server } closingRun = .ok c ∧
      ∀ p ∈ c.idleWrites, (p.stopped = true ↔ p.finished = true) ↔ p.finished = false :=
  ⟨_, rfl, idle_write_stops_iff .server (fun _ => []) 9 closingRun _ rfl⟩

/-- Everything has been sent and the connection is not persistent, but the call of
`do_write` after the last write does not stop the connector. -/
theorem idle_write_does_not_stop :
    (run (fun _ => []) 9 { role := .server } closingRun).map Http1.idleWrites =
      .ok [⟨true, false⟩] := by
  decide

end Http1

end Doormat.Protocol
