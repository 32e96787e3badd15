import Doormat.Http2.StreamBody
import Doormat.Http2.StreamClient

/-! The two body callbacks beside each other. `stream` and `stream_client` copy the same
bytes out of the same chunks, but the client looks for the end of the body before it copies
and the server after. -/
namespace Doormat.Http2

open Bytes

namespace StreamClient

def step (s : StreamClient) : BodyOp → StreamClient
  | .body data => (s.onBody data).1
  | .trailer key value => s.onTrailer key value
  | .eom => s.onEom.1
  | .read length => (s.dataSourceReadCallback length).2

/-- What a read returns; the calls of the application return nothing. -/
def result (s : StreamClient) : BodyOp → Option ReadResult
  | .read length => some (s.dataSourceReadCallback length).1
  | _ => none

end StreamClient

namespace Stream

def result (s : Stream) : BodyOp → Option ReadResult
  | .read length => some (s.dataSourceReadCallback length).1
  | _ => none

/-- The stream of a client in the same state. -/
def asClient (s : Stream) : StreamClient where
  status := s.status
  headersSent := s.headersSent
  bodySent := s.bodySent
  resumeNeeded := s.resumeNeeded
  eof := s.eof
  errored := s.errored
  closed := s.closed
  body := s.body
  bodyIndex := s.bodyIndex
  trailers := s.trailers

/-- Along the calls both streams stay in the same state, and every read returns the same
bytes with the same flags. -/
def AgreesWith (s : Stream) (c : StreamClient) : List BodyOp → Prop
  | [] => c = s.asClient
  | op :: ops => c = s.asClient ∧ c.result op = s.result op ∧ (s.step op).AgreesWith (c.step op) ops

/-- The read takes the last chunk: nothing but an empty chunk is behind it. -/
def TakesLast (s : Stream) (length : Nat) : Prop :=
  s.frontLength ≤ length ∧ (s.body.tail = [] ∨ s.body.tail = [[]])

instance (s : Stream) (length : Nat) : Decidable (s.TakesLast length) :=
  inferInstanceAs (Decidable (_ ∧ _))

/-- Both callbacks see the end of the body at the same read: when there is nothing to copy
or no end is known yet; before trailers, when the read leaves something; and without trailers
when the last chunk fits exactly, or when what is left before and after is not as long as the
read. -/
def EndsAlike (s : Stream) (length : Nat) : Prop :=
  s.bodyEmpty = true ∨
    if s.hasTrailers then ¬ s.TakesLast length
    else s.eof = false ∨
      if s.TakesLast length then s.frontLength = length
      else s.frontLength = 0 ∨
        s.bodyLength ≠ length ∧ s.bodyLength ≠ length + min s.frontLength length

instance (s : Stream) (length : Nat) : Decidable (s.EndsAlike length) := by
  unfold EndsAlike
  infer_instance

/-- Does the client see the end? It looks before the copy. -/
def endsBefore (s : Stream) (length : Nat) : Bool := s.bodyEof || s.isLastFrame length

/-- Does the server see the end? It looks after the copy. -/
def endsAfter (s : Stream) (length : Nat) : Bool := (s.readFront length).2.endsBefore length

variable {s : Stream}

theorem asClient_takeFront (s : Stream) (length : Nat) :
    s.asClient.takeFront length = ((s.takeFront length).1, (s.takeFront length).2.asClient) := by
  rcases s with ⟨_, _, _, _, _, _, _, body, index, _⟩
  cases body with
  | nil => rfl
  | cons first rest =>
      by_cases hUsed : index + ((first.drop index).take length).length = first.length
      · simp only [asClient, StreamClient.takeFront, takeFront, hUsed, if_true]
      · simp only [asClient, StreamClient.takeFront, takeFront, hUsed, if_false]

theorem takeFront_bodySent (s : Stream) (length : Nat) (b : Bool) :
    { s with bodySent := b }.takeFront length =
      ((s.takeFront length).1, { (s.takeFront length).2 with bodySent := b }) := by
  rcases s with ⟨_, _, _, _, _, _, _, body, index, _⟩
  cases body with
  | nil => rfl
  | cons first rest =>
      by_cases hUsed : index + ((first.drop index).take length).length = first.length
      · simp only [takeFront, hUsed, if_true]
      · simp only [takeFront, hUsed, if_false]

theorem readFront_bodySent (s : Stream) (length : Nat) : (s.readFront length).2.bodySent = s.bodySent := by
  unfold readFront takeFront
  split
  case isTrue => rfl
  case isFalse =>
    split
    case h_1 => rfl
    case h_2 =>
      simp only
      split
      · rfl
      · rfl

/-- A read of the server that is not deferred. -/
theorem read_eq (hGo : s.defer = false) (length : Nat) :
    s.dataSourceReadCallback length =
      (.data (s.readFront length).1 (s.endsAfter length) s.hasTrailers,
        { (s.readFront length).2 with bodySent := s.bodySent || s.endsAfter length }) := by
  have hSent := readFront_bodySent s length
  unfold dataSourceReadCallback endsAfter endsBefore
  rw [if_neg (by simp [hGo])]
  simp only
  split
  case isTrue hEnd => simp [hEnd]
  case isFalse hEnd =>
    have hEnd : ((s.readFront length).2.bodyEof || (s.readFront length).2.isLastFrame length) = false := by
      simpa using hEnd
    simp [hEnd, ← hSent]

/-- The same read by a client. -/
theorem client_read_eq (hGo : s.defer = false) (length : Nat) :
    s.asClient.dataSourceReadCallback length =
      (.data (s.readFront length).1 (s.endsBefore length) s.hasTrailers,
        { (s.readFront length).2 with bodySent := s.bodySent || s.endsBefore length }.asClient) := by
  have hGo' : ¬ s.asClient.defer = true := by
    rw [show s.asClient.defer = s.defer from rfl, hGo]
    exact Bool.false_ne_true
  have hFlag : (s.asClient.bodyEof || s.asClient.isLastFrame length) = s.endsBefore length := rfl
  have hMarked : (if s.endsBefore length = true then { s.asClient with bodySent := true } else s.asClient) =
      { s with bodySent := s.bodySent || s.endsBefore length }.asClient := by
    cases s.endsBefore length with
    | true => simp [asClient]
    | false => simp [asClient]
  have hBody : { s with bodySent := s.bodySent || s.endsBefore length }.asClient.bodyEmpty = s.bodyEmpty := rfl
  unfold StreamClient.dataSourceReadCallback
  rw [if_neg hGo']
  simp only [hFlag, hMarked, hBody]
  unfold readFront
  rw [asClient_takeFront, takeFront_bodySent]
  split
  · rfl
  · rfl

/-- After a copy the body is empty exactly if the copy took the last chunk. -/
theorem bodyEmpty_takeFront (hValid : s.Valid) (hMore : s.bodyEmpty = false) (length : Nat) :
    (s.takeFront length).2.bodyEmpty = true ↔ s.TakesLast length := by
  cases hBody : s.body with
  | nil => simp [bodyEmpty, hBody] at hMore
  | cons first rest =>
      simp only [Valid, hBody, List.headD_cons] at hValid
      have hFront : s.frontLength = first.length - s.bodyIndex := by simp [frontLength, hBody]
      simp only [takeFront, TakesLast, hBody, hFront, List.tail_cons, List.length_take,
        List.length_drop]
      split
      case isTrue hUsed =>
        have hLe : first.length - s.bodyIndex ≤ length := by omega
        cases rest with
        | nil => simp [bodyEmpty, hLe]
        | cons second rest =>
            cases rest with
            | nil => simp [bodyEmpty, hLe]
            | cons third rest => simp [bodyEmpty]
      case isFalse hLeft =>
        have hGt : ¬ first.length - s.bodyIndex ≤ length := by omega
        cases rest with
        | nil =>
            simp only [bodyEmpty, hGt, false_and, iff_false, decide_eq_true_eq]
            omega
        | cons second rest => simp [bodyEmpty, hGt]

theorem TakesLast.bodyLength {length : Nat} (h : s.TakesLast length) : s.bodyLength = s.frontLength := by
  unfold Stream.bodyLength frontLength
  match hBody : s.body with
  | [] => simp
  | [first] => simp
  | first :: second :: rest =>
      have hTail := h.2
      rw [hBody, List.tail_cons] at hTail
      rcases hTail with hNil | hEmpty
      · exact absurd hNil (List.cons_ne_nil _ _)
      · simp [hEmpty]

/-- The end is seen at the same read exactly if the streams end alike. -/
theorem endsBefore_eq_endsAfter_iff (hValid : s.Valid) {length : Nat} (hPos : 0 < length) :
    s.endsBefore length = s.endsAfter length ↔ s.EndsAlike length := by
  by_cases hEmpty : s.bodyEmpty = true
  · have hSame : (s.readFront length).2 = s := by rw [readFront, if_pos hEmpty]
    simp only [endsAfter, hSame, EndsAlike, hEmpty, true_or]
  have hMore : s.bodyEmpty = false := by simpa using hEmpty
  have hTake : s.readFront length = s.takeFront length := by rw [readFront, if_neg hEmpty]
  obtain ⟨-, -, -, hEof, hTrailers⟩ := takeFront_spec hValid length
  have hLast := isLastFrame_readFront hValid length
  have hTakes := bodyEmpty_takeFront hValid hMore length
  have hHas : (s.takeFront length).2.hasTrailers = s.hasTrailers := by
    unfold hasTrailers
    rw [hTrailers]
  have hFrame : s.isLastFrame length = true ↔
      s.eof = true ∧ s.hasTrailers = false ∧ s.bodyLength = length := by
    simp [isLastFrame, and_assoc]
  rw [hTake] at hLast
  rw [Bool.eq_iff_iff]
  simp only [endsAfter, hTake, endsBefore, Bool.or_eq_true, hLast, CutsShort, EndsAlike, hMore,
    Bool.false_eq_true, false_or, bodyEof, hFrame, Bool.and_eq_true, hTakes, hHas, hEof, false_and]
  cases hT : s.hasTrailers with
  | true => simp
  | false =>
      cases hE : s.eof with
      | false => simp
      | true =>
          simp only [true_and, and_true, or_false, Bool.false_eq_true, if_false, reduceCtorEq,
            false_or]
          by_cases hTakesLast : s.TakesLast length
          · have hLength := hTakesLast.bodyLength
            have hLe := hTakesLast.1
            simp only [hTakesLast, if_true, true_or, iff_true, hLength]
          · simp only [hTakesLast, if_false, false_or]
            omega

/-- A read does the same in both streams exactly if they see the end alike. -/
theorem read_agrees_iff (hValid : s.Valid) {length : Nat} (hPos : 0 < length) :
    ((s.asClient.dataSourceReadCallback length).1 = (s.dataSourceReadCallback length).1 ∧
        (s.asClient.dataSourceReadCallback length).2 = (s.dataSourceReadCallback length).2.asClient) ↔
      s.EndsAlike length := by
  cases hDefer : s.defer with
  | true =>
      have hEmpty : s.bodyEmpty = true := by
        simp only [defer, Bool.and_eq_true] at hDefer
        exact hDefer.2
      have hServer : s.dataSourceReadCallback length = (.deferred, { s with resumeNeeded := true }) := by
        rw [dataSourceReadCallback, if_pos hDefer]
      have hClient : s.asClient.dataSourceReadCallback length =
          (.deferred, { s with resumeNeeded := true }.asClient) := by
        have hDefer' : s.asClient.defer = true := hDefer
        rw [StreamClient.dataSourceReadCallback, if_pos hDefer']
        rfl
      rw [hServer, hClient]
      simp only [EndsAlike, hEmpty, true_or, and_self]
  | false =>
      rw [read_eq hDefer, client_read_eq hDefer, ← endsBefore_eq_endsAfter_iff hValid hPos]
      constructor
      · intro hAgree
        exact (ReadResult.data.inj hAgree.1).2.1
      · intro hEnds
        rw [hEnds]
        exact ⟨rfl, rfl⟩

theorem asClient_flush (s : Stream) : s.asClient.flush.1 = s.flush.1.asClient := by
  unfold StreamClient.flush flush
  by_cases hClosed : s.closed = true
  · simp [asClient, hClosed]
  by_cases hStatus : s.status = 101
  · simp [asClient, hClosed, hStatus]
  by_cases hResume : s.resumeNeeded = true
  · simp [asClient, hClosed, hStatus, hResume]
  by_cases hHeaders : s.headersSent = true
  · by_cases hSent : s.bodySent = true ∧ s.eof = true
    · simp [asClient, hClosed, hStatus, hResume, hHeaders, hSent]
    · simp [asClient, hClosed, hStatus, hResume, hHeaders, hSent]
  · simp [asClient, hClosed, hStatus, hResume, hHeaders]

/-- The calls of the application do the same to both streams. -/
theorem asClient_step (s : Stream) {op : BodyOp} (hCall : ∀ length, op ≠ .read length) :
    s.asClient.step op = (s.step op).asClient ∧ s.asClient.result op = s.result op := by
  cases op with
  | body data => exact ⟨asClient_flush { s with body := s.body ++ [data] }, rfl⟩
  | trailer key value => exact ⟨rfl, rfl⟩
  | eom =>
      have hClient : s.asClient.onEom =
          if s.closed then { s with eof := true }.asClient.die else { s with eof := true }.asClient.flush := rfl
      have hServer : s.onEom =
          if s.closed then { s with eof := true }.die else { s with eof := true }.flush := rfl
      refine ⟨?_, rfl⟩
      rw [StreamClient.step, Stream.step, hClient, hServer]
      split
      · rfl
      · exact asClient_flush { s with eof := true }
  | read length => exact absurd rfl (hCall length)

theorem Valid.step (h : s.Valid) {op : BodyOp} (hPos : ∀ length, op = .read length → 0 < length) :
    (s.step op).Valid := by
  cases op with
  | body data =>
      obtain ⟨hBody, hIndex, -, -⟩ := flush_body { s with body := s.body ++ [data] }
      unfold Valid at h ⊢
      rw [Stream.step, onBody, hBody, hIndex]
      cases hChunks : s.body with
      | nil =>
          rw [hChunks] at h
          exact Nat.le_trans h (Nat.zero_le _)
      | cons first rest =>
          rw [hChunks] at h
          exact h
  | trailer key value => exact h
  | eom =>
      obtain ⟨hBody, hIndex, -, -⟩ := onEom_body s
      unfold Valid at h ⊢
      rw [Stream.step, hBody, hIndex]
      exact h
  | read length => exact (read_spec h (hPos length rfl)).valid

end Stream

/-- Whatever the state and the calls, the callbacks of the client and of the server agree
exactly if at every read the streams end alike. -/
theorem body_callbacks_agree_iff (s : Stream) (hValid : s.Valid) (ops : List BodyOp)
    (hPos : ∀ length, BodyOp.read length ∈ ops → 0 < length) :
    s.AgreesWith s.asClient ops ↔
      ∀ front length rest, ops = front ++ .read length :: rest → (s.run front).EndsAlike length := by
  induction ops generalizing s with
  | nil =>
      constructor
      · intro _ front length rest hOps
        exact absurd hOps (by simp)
      · intro _
        exact rfl
  | cons op ops ih =>
      have hPos' : ∀ length, op = .read length → 0 < length :=
        fun length hOp => hPos length (hOp ▸ List.mem_cons_self)
      have hRest := ih (s.step op) (hValid.step hPos')
        (fun length hMem => hPos length (List.mem_cons_of_mem _ hMem))
      have hStep : (s.asClient.result op = s.result op ∧ s.asClient.step op = (s.step op).asClient) ↔
          ∀ length, op = .read length → s.EndsAlike length := by
        by_cases hCall : ∀ length, op ≠ .read length
        · have hSame := s.asClient_step hCall
          exact ⟨fun _ length hOp => absurd hOp (hCall length), fun _ => ⟨hSame.2, hSame.1⟩⟩
        · simp only [ne_eq, not_forall, not_not] at hCall
          obtain ⟨length, rfl⟩ := hCall
          have hRead := Stream.read_agrees_iff hValid (hPos' length rfl)
          simp only [StreamClient.result, Stream.result, StreamClient.step, Stream.step, Option.some.injEq,
            hRead, BodyOp.read.injEq, forall_eq']
      constructor
      · intro hAgree front length rest hOps
        have hResult := hAgree.2.1
        have hLater := hAgree.2.2
        -- The states after the first call are the same, as the rest starts from them.
        have hState : s.asClient.step op = (s.step op).asClient := by
          cases ops with
          | nil => exact hLater
          | cons _ _ => exact hLater.1
        cases front with
        | nil =>
            obtain ⟨rfl, rfl⟩ := List.cons.inj hOps
            exact hStep.mp ⟨hResult, hState⟩ length rfl
        | cons first front =>
            obtain ⟨rfl, hTail⟩ := List.cons.inj hOps
            rw [hState] at hLater
            exact hRest.mp hLater front length rest hTail
      · intro hEnds
        have hSame := hStep.mpr fun length hOp => hEnds [] length ops (by rw [hOp]; rfl)
        refine ⟨rfl, hSame.1, ?_⟩
        rw [hSame.2]
        exact hRest.mpr fun front length rest hOps =>
          hEnds (op :: front) length rest (by rw [hOps]; rfl)

theorem body_callbacks_agree_iff_exact_length :
    (Stream.init 200).AgreesWith (Stream.init 200).asClient [.body (ofString "abc"), .eom, .read 3] ↔
      ∀ front length rest, [.body (ofString "abc"), .eom, .read 3] = front ++ .read length :: rest →
        ((Stream.init 200).run front).EndsAlike length :=
  body_callbacks_agree_iff (Stream.init 200) (Nat.zero_le _) [.body (ofString "abc"), .eom, .read 3]
    (by simp)

/-- Three bytes and the end, read into a larger buffer: the server reports the end with the
bytes, the client does not. -/
theorem body_callbacks_differ :
    ¬ ∀ (s : Stream), s.Valid → ∀ ops : List BodyOp,
      (∀ length, BodyOp.read length ∈ ops → 0 < length) → s.AgreesWith s.asClient ops := by
  intro hAll
  have hAgree := hAll (Stream.init 200) (Nat.zero_le _) [.body (ofString "abc"), .eom, .read 8] (by simp)
  have hRead := hAgree.2.2.2.2.2.1
  exact absurd hRead (by decide)

end Doormat.Http2
