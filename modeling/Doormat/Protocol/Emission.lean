import Doormat.Protocol.Feedback
import Doormat.Protocol.Pipeline

/-! What a server has emitted of its pipelined responses. A connector that has no write in flight and
has not stopped holds nothing back; once every response has ended, all of them have been written. -/
namespace Doormat.Protocol

open Bytes Doormat.Http

namespace Http1

variable {c c' d : Http1} {id : Nat}

/-! ### Nothing is held back -/

/-- The write in flight, whether the connector has stopped or is lost, and what waits for a write. -/
def outlet (c : Http1) : Option Write × Bool × Bool × ByteString :=
  (c.writing, c.stopped, c.connected, c.serialization)

/-- Unless a write is in flight, or the connector has stopped or is lost, nothing waits for a write. -/
def Flushed (c : Http1) : Prop :=
  c.writing = none → c.stopped = false → c.connected = true → c.serialization = []

namespace Flushed

theorem frame (h : Flushed c) (hOutlet : d.outlet = c.outlet) : Flushed d := by
  obtain ⟨hWriting, hStopped, hConnected, hBytes⟩ := by simpa [outlet] using hOutlet
  intro hFree hGoing hOpen
  rw [hBytes]
  exact h (hWriting ▸ hFree) (hStopped ▸ hGoing) (hConnected ▸ hOpen)

theorem of_stopped (h : c.stopped = true) : Flushed c := by
  intro _ hGoing
  rw [h] at hGoing
  cases hGoing

theorem of_lost (h : c.connected = false) : Flushed c := by
  intro _ _ hOpen
  rw [h] at hOpen
  cases hOpen

theorem connectorDoWrite (c : Http1) : Flushed c.connectorDoWrite := by
  intro hFree hGoing hOpen
  rcases connectorDoWrite_cases c with ⟨hEq, hBusy⟩ | ⟨-, -, hNothing, hEq⟩ | ⟨-, -, -, -, hEq⟩
  · rw [hEq] at hFree hGoing
    simp [hFree, hGoing] at hBusy
  · have hNote : (c.noteIdle { c with out := [] }.postFeedbacks).connected = c.connected ∧
        (c.noteIdle { c with out := [] }.postFeedbacks).serialization = c.serialization := by
      rw [noteIdle]
      split
      · exact ⟨rfl, rfl⟩
      · exact ⟨rfl, rfl⟩
    rw [hEq, hNote.1] at hOpen
    rw [hEq, hNote.2]
    exact hNothing.resolve_left (by simp [hOpen])
  · rw [hEq] at hFree
    cases hFree

/-- Whatever has been serialised, a call of `do_write` takes it. -/
theorem doWrite (c : Http1) : Flushed c.doWrite := by
  rw [Http1.doWrite]
  split
  · exact connectorDoWrite c
  case isFalse hLost => exact of_lost (by simpa using hLost)

theorem remote : RemoteStable Flushed where
  setRemote _ _ _ h := h
  shows _ _ _ h := h
  postEnd _ h := h
  error _ h := h
  flags _ _ h := h
  received _ _ h := h
  remoteTail h := h

theorem opens (h : Flushed c) : Flushed c.getUserHandlers := by
  rw [getUserHandlers]
  split
  · exact h
  · exact h

theorem notifyAll (h : Flushed c) (e : ErrorCode) : Flushed (c.notifyAll e) :=
  h.frame (notifyAll_keeps outlet (fun _ _ _ => rfl) (fun _ _ _ => rfl) (fun _ _ => rfl) (fun _ => rfl) c e)

end Flushed

/-- The application lets go of a response only once it has been polled to its end, and a write is
cancelled only by a connector that has stopped. -/
def Attended (c : Http1) : Op → Prop
  | .user (.drop id) => id ∉ c.localObjects
  | .written .cancelled => c.stopped = true
  | _ => True

instance (c : Http1) (op : Op) : Decidable (Attended c op) := by
  unfold Attended
  cases op with
  | user op => cases op <;> infer_instance
  | written result => cases result <;> infer_instance
  | _ => infer_instance

theorem Flushed.locallyKept (G : Http1 → Op → Prop) : LocallyKept Flushed (fun _ => Flushed) G where
  edit _ h := h
  create _ _ h := h.opens
  ends _ _ _ h := h
  continues _ h := h
  postEnd _ _ h := h
  runEnd _ h := h
  ran h := h
  close {c} _ h := by
    rw [Http1.close]
    dsimp only
    split
    · exact Flushed.notifyAll (c := Http1.stop { c with userClose := true }) (.of_stopped rfl) _
    · exact Flushed.notifyAll (c := { c with userClose := true }) h _
  persistentSet _ h := h
  headers _ _ _ hRun := by
    obtain ⟨_, _, -, rfl⟩ := notifyLocalHeaders_ok.mp hRun
    exact .doWrite _
  body _ _ hRun := by
    obtain ⟨_, _, -, rfl⟩ := notifyLocalBody_ok.mp hRun
    exact .doWrite _
  trailer _ _ hRun := by
    obtain ⟨_, _, -, rfl⟩ := notifyLocalTrailer_ok.mp hRun
    exact .doWrite _
  finish _ _ _ hRun := by
    obtain ⟨_, _, -, rfl⟩ := notifyLocalEnd_ok.mp hRun
    exact .doWrite _
  interim _ _ _ hRun := by
    obtain ⟨_, _, _, _, -, -, rfl⟩ := notifyContinue_ok.mp hRun
    exact .doWrite _
  removed h hRun := by
    obtain ⟨first, rest, -, rfl⟩ := popFront_ok.mp hRun
    exact h
  expired {c id rest} _ _ h := Flushed.notifyAll (c := c.error .missingStreamElement) h _
  cleared {c f rest} _ h :=
    h.frame (d := { c with posted := rest }.localCleared f.id)
      (localCleared_keeps outlet (fun _ _ _ => rfl) (fun _ _ => rfl) { c with posted := rest } f.id)
  failed {c f rest} _ h :=
    h.frame (d := { c with posted := rest }.localError .missingStreamElement f.id)
      (localError_keeps outlet (fun _ _ _ => rfl) (fun _ _ => rfl) { c with posted := rest } .missingStreamElement f.id)
  remoteEnded _ h := h
  called _ h := h

theorem Flushed.kept : Kept Flushed (fun _ => Flushed) Attended where
  toLocallyKept := Flushed.locallyKept Attended
  decodingStart {c} _ h := by
    rw [Http1.decodingStart]
    dsimp only
    split
    · exact Flushed.opens (c := { c with decodingError := false, managingContinue := false }) h
    · exact h
  decodedHeaders garbage m h := Flushed.remote.decodedHeaders garbage m h
  decodedBody bytes h := Flushed.remote.decodedBody bytes h
  decodedTrailer key value h := Flushed.remote.decodedTrailer key value h
  decodingEnd h := Flushed.remote.decodingEnd h
  decodingFailure {c c'} _ h hRun := by
    have hCurrent := Flushed.remote.getCurrent h
    rcases hEq : c.getCurrent with ⟨current, d⟩
    rw [hEq] at hCurrent
    cases current with
    | none =>
        rw [Http1.decodingFailure, hEq] at hRun
        cases hRun
        exact hCurrent
    | some i =>
        rw [decodingFailure_some hEq] at hRun
        split at hRun
        · cases hRun
        · cases hRun
          exact h.frame (failLast_keeps outlet (fun _ _ _ => rfl) (fun _ _ _ => rfl) (fun _ _ => rfl)
            (fun _ _ _ => rfl) c i _)
  written {c} r hGuard h := by
    rw [Http1.written]
    split
    · exact h
    · cases r with
      | ok => exact .connectorDoWrite _
      | failed => exact .of_stopped rfl
      | cancelled => exact .of_stopped hGuard
  stop _ := .of_stopped rfl
  lost {c} _ _ := by
    rw [loseConnector, onConnectorNulled]
    split
    · exact .of_lost rfl
    · refine .of_lost ?_
      dsimp only
      rw [foldl_keeps Http1.connected fun (c : Http1) (f : Feedback) =>
        localError_keeps Http1.connected (fun _ _ _ => rfl) (fun _ _ => rfl) c .missingStreamElement f.id]
      exact notifyAll_connected { c with connected := false } .closedByClient

end Http1

/-! ### Responses that the application lets go of -/

namespace Book

end Book

namespace Serves

variable {c : Http1} {b : Book} {parts : List ByteString} {now : ByteString}

/-- A response that is no longer in the queue is written, and nothing more is asked of its object. -/
theorem drop (h : Serves c b parts now) {id : Nat} (hGone : id ∉ c.localObjects) :
    Serves (if c.usable id then c.setLocal id { c.locals id with held := false } else c) b parts now := by
  split
  case isFalse => exact h
  case isTrue hUsable =>
    have hOpened : id < c.opened := by
      simp only [Http1.usable, Bool.and_eq_true, decide_eq_true_eq] at hUsable
      exact hUsable.1
    have hWritten : id < parts.length := by
      by_contra hWaits
      rw [h.awaits, List.mem_range'_1] at hGone
      omega
    exact (h.told hWritten _).1

end Serves

end Doormat.Protocol
