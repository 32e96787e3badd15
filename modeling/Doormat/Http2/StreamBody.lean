import Doormat.Http2.Stream

/-! What the library reads out of a stream, against the chunks that the application
put in. -/
namespace Doormat.Http2

open Bytes

namespace Stream

/-- The bytes that are still to be read. -/
def remaining (s : Stream) : ByteString := s.body.flatten.drop s.bodyIndex

/-- The index points into the first chunk. -/
def Valid (s : Stream) : Prop := s.bodyIndex ≤ (s.body.headD []).length

/-- What is left of the first chunk. -/
def frontLength (s : Stream) : Nat := (s.body.headD []).length - s.bodyIndex

/-- After the read as many bytes are left as the read could have returned, and the
frame is taken for the last one. -/
def CutsShort (s : Stream) (length : Nat) : Prop :=
  s.eof = true ∧ s.hasTrailers = false ∧ s.bodyLength = length + min s.frontLength length

instance (s : Stream) (length : Nat) : Decidable (s.CutsShort length) := by
  unfold CutsShort
  infer_instance

theorem bodyLength_eq {s : Stream} (h : s.Valid) : s.bodyLength = s.remaining.length := by
  cases hBody : s.body with
  | nil => simp [bodyLength, remaining, hBody]
  | cons first rest =>
      simp only [Valid, hBody, List.headD_cons] at h
      simp only [bodyLength, remaining, hBody, List.flatten_cons, List.length_drop,
        List.length_append, List.length_flatten]
      omega

theorem remaining_of_bodyEmpty {s : Stream} (h : s.bodyEmpty) : s.remaining = [] := by
  unfold bodyEmpty at h
  split at h
  case h_1 hBody => simp [remaining, hBody]
  case h_2 chunk hBody =>
    have hLength : chunk.length = s.bodyIndex := by simpa using h
    simp [remaining, hBody, ← hLength]
  case h_3 => cases h

/-- What comes out of the front is gone from the rest. -/
theorem takeFront_spec {s : Stream} (hValid : s.Valid) (length : Nat) :
    (s.takeFront length).1 ++ (s.takeFront length).2.remaining = s.remaining ∧
      (s.takeFront length).1.length = min s.frontLength length ∧
      (s.takeFront length).2.Valid ∧ (s.takeFront length).2.eof = s.eof ∧
      (s.takeFront length).2.trailers = s.trailers := by
  cases hBody : s.body with
  | nil => simp [takeFront, frontLength, hBody, hValid]
  | cons first rest =>
      simp only [Valid, hBody, List.headD_cons] at hValid
      have hTaken : ((first.drop s.bodyIndex).take length).length =
          min length (first.length - s.bodyIndex) := by simp
      have hFront : s.frontLength = first.length - s.bodyIndex := by simp [frontLength, hBody]
      have hRemaining : s.remaining = first.drop s.bodyIndex ++ rest.flatten := by
        simp [remaining, hBody, List.drop_append_of_le_length hValid]
      simp only [takeFront, hBody]
      split
      case isTrue hUsed =>
        have hAll : (first.drop s.bodyIndex).take length = first.drop s.bodyIndex := by
          apply List.take_of_length_le
          rw [List.length_drop]
          omega
        refine ⟨?_, ?_, ?_, rfl, rfl⟩
        · rw [hRemaining, hAll]
          rfl
        · rw [hTaken, hFront, min_comm]
        · exact Nat.zero_le _
      case isFalse hLeft =>
        refine ⟨?_, ?_, ?_, rfl, rfl⟩
        · have hPrefix : (first.drop s.bodyIndex).take length <+: s.remaining := by
            rw [hRemaining]
            exact (List.take_prefix _ _).trans (List.prefix_append _ _)
          rw [← List.prefix_iff_eq_append.mp hPrefix, remaining, remaining, hBody, List.drop_drop]
        · rw [hTaken, hFront, min_comm]
        · simp only [Valid, List.headD_cons]
          omega

theorem readFront_spec {s : Stream} (hValid : s.Valid) (length : Nat) :
    (s.readFront length).1 ++ (s.readFront length).2.remaining = s.remaining ∧
      (s.readFront length).1.length = min s.frontLength length ∧
      (s.readFront length).2.Valid ∧ (s.readFront length).2.eof = s.eof ∧
      (s.readFront length).2.trailers = s.trailers := by
  unfold readFront
  split
  case isTrue hEmpty =>
    refine ⟨rfl, ?_, hValid, rfl, rfl⟩
    have hFront : s.frontLength = 0 := by
      unfold bodyEmpty at hEmpty
      split at hEmpty
      case h_1 hBody => simp [frontLength, hBody]
      case h_2 chunk hBody =>
        have hLength : chunk.length = s.bodyIndex := by simpa using hEmpty
        simp [frontLength, hBody, hLength]
      case h_3 => cases hEmpty
    simp [hFront]
  case isFalse => exact takeFront_spec hValid length

/-- The frame is taken for the last one exactly if the stream cuts short. -/
theorem isLastFrame_readFront {s : Stream} (hValid : s.Valid) (length : Nat) :
    (s.readFront length).2.isLastFrame length = true ↔ s.CutsShort length := by
  obtain ⟨hSplit, hTaken, hValid', hEof, hTrailers⟩ := readFront_spec hValid length
  have hLength := congrArg List.length hSplit
  rw [List.length_append, hTaken, ← bodyLength_eq hValid, ← bodyLength_eq hValid'] at hLength
  simp only [isLastFrame, hasTrailers, hEof, hTrailers, CutsShort, Bool.and_eq_true,
    Bool.not_eq_true', decide_eq_true_eq, and_assoc]
  have hSum : (s.readFront length).2.bodyLength = length ↔
      s.bodyLength = length + min s.frontLength length := by omega
  rw [hSum]

/-- How a read leaves the stream: its bytes are the next ones, and it reports the end
of the body only once the application has ended it. Then all bytes are out, unless
the stream cuts short. -/
structure ReadSpec (s : Stream) (length : Nat) (r : ReadResult) (t : Stream) : Prop where
  bytes : r.bytes ++ t.remaining = s.remaining
  length_le : r.bytes.length ≤ length
  valid : t.Valid
  eof : t.eof = s.eof
  trailers : t.trailers = s.trailers
  cutsShort : s.CutsShort length → r.eof = true ∧ t.remaining ≠ []
  ended : r.eof = true → s.eof = true ∨ s.hasTrailers = true
  complete : r.eof = true → ¬ s.CutsShort length → t.remaining = []

theorem read_spec {s : Stream} (hValid : s.Valid) {length : Nat} (hPos : 0 < length) :
    s.ReadSpec length (s.dataSourceReadCallback length).1 (s.dataSourceReadCallback length).2 := by
  unfold dataSourceReadCallback
  split
  case isTrue hDefer =>
    have hOpen : s.eof = false := by
      simp only [defer, Bool.and_eq_true, Bool.not_eq_true'] at hDefer
      exact hDefer.1.1
    exact {
      bytes := rfl
      length_le := Nat.zero_le _
      valid := hValid
      eof := rfl
      trailers := rfl
      cutsShort := by
        intro hCuts
        simp [hCuts.1] at hOpen
      ended := nofun
      complete := nofun }
  case isFalse =>
    obtain ⟨hSplit, hTaken, hValid', hEof, hTrailers⟩ := readFront_spec hValid length
    have hLast := isLastFrame_readFront hValid length
    rcases hRead : s.readFront length with ⟨bytes, t⟩
    rw [hRead] at hSplit hTaken hValid' hEof hTrailers hLast
    simp only at hSplit hTaken hValid' hEof hTrailers hLast
    have hLeft : s.CutsShort length → t.remaining ≠ [] := by
      intro hCuts hNil
      have hLength := congrArg List.length hSplit
      rw [List.length_append, hTaken, hNil, List.length_nil, ← bodyLength_eq hValid] at hLength
      have hCut := hCuts.2.2
      omega
    have hEnded : t.bodyEof = true → s.eof = true ∨ s.hasTrailers = true := by
      intro hBody
      simp only [bodyEof, hasTrailers, hEof, hTrailers, Bool.and_eq_true, Bool.or_eq_true] at hBody
      simpa [hasTrailers] using hBody.2
    simp only
    split
    case isTrue hFlag =>
      have hFlag : t.bodyEof = true ∨ s.CutsShort length := by simpa [hLast] using hFlag
      exact {
        bytes := hSplit
        length_le := by
          simp only [ReadResult.bytes, hTaken]
          omega
        valid := hValid'
        eof := hEof
        trailers := hTrailers
        cutsShort := fun hCuts => ⟨rfl, hLeft hCuts⟩
        ended := fun _ => hFlag.elim hEnded (fun hCuts => .inl hCuts.1)
        complete := by
          intro _ hNot
          have hBody := hFlag.resolve_right hNot
          simp only [bodyEof, Bool.and_eq_true] at hBody
          exact remaining_of_bodyEmpty hBody.1 }
    case isFalse hFlag =>
      have hFlag : ¬ s.CutsShort length := by
        intro hCuts
        simp [hLast.mpr hCuts] at hFlag
      exact {
        bytes := hSplit
        length_le := by
          simp only [ReadResult.bytes, hTaken]
          omega
        valid := hValid'
        eof := hEof
        trailers := hTrailers
        cutsShort := fun hCuts => absurd hCuts hFlag
        ended := nofun
        complete := nofun }

theorem flush_body (s : Stream) :
    s.flush.1.body = s.body ∧ s.flush.1.bodyIndex = s.bodyIndex ∧ s.flush.1.eof = s.eof ∧
      s.flush.1.trailers = s.trailers := by
  unfold flush
  repeat' split
  all_goals exact ⟨rfl, rfl, rfl, rfl⟩

theorem die_body (s : Stream) :
    s.die.1.body = s.body ∧ s.die.1.bodyIndex = s.bodyIndex ∧ s.die.1.eof = s.eof ∧
      s.die.1.trailers = s.trailers := by
  unfold die
  split
  all_goals exact ⟨rfl, rfl, rfl, rfl⟩

theorem onEom_body (s : Stream) :
    s.onEom.1.body = s.body ∧ s.onEom.1.bodyIndex = s.bodyIndex ∧ s.onEom.1.eof = true ∧
      s.onEom.1.trailers = s.trailers := by
  simp only [onEom]
  split
  · exact die_body _
  · exact flush_body _

theorem returned_append (s : Stream) (front rest : List BodyOp) :
    s.returned (front ++ rest) = s.returned front ++ (s.run front).returned rest := by
  induction front generalizing s with
  | nil => rfl
  | cons op front ih => cases op <;> simp [returned, run, ih, List.append_assoc]

theorem run_append (s : Stream) (front rest : List BodyOp) :
    s.run (front ++ rest) = (s.run front).run rest :=
  List.foldl_append

end Stream

open Doormat.Http2.Stream

theorem given_append (front rest : List BodyOp) : given (front ++ rest) = given front ++ given rest := by
  induction front with
  | nil => rfl
  | cons op front ih => cases op <;> simp [given, ih]

/-- The state of a stream in a run from the start. -/
structure Progress (status : Nat) (ops : List BodyOp) (s : Stream) : Prop where
  valid : s.Valid
  bytes : (init status).returned ops ++ s.remaining = given ops
  eof : s.eof = true → .eom ∈ ops
  trailers : s.hasTrailers = true → ∃ op ∈ ops, op.ends = true

theorem wellOrdered_left {front rest : List BodyOp} (h : WellOrdered (front ++ rest)) :
    WellOrdered front := by
  induction front with
  | nil => rfl
  | cons op front ih =>
      cases op with
      | read length =>
          simp only [List.cons_append, WellOrdered, Bool.and_eq_true] at h ⊢
          exact ⟨h.1, ih h.2⟩
      | body data =>
          simp only [List.cons_append, WellOrdered, BodyOp.ends, Bool.not_false, Bool.true_or,
            Bool.true_and] at h ⊢
          exact ih h
      | trailer | eom =>
          simp only [List.cons_append, WellOrdered, List.all_append, BodyOp.ends, Bool.not_true,
            Bool.false_or, Bool.and_eq_true] at h ⊢
          exact ⟨h.1.1, ih h.2⟩

theorem wellOrdered_right {front rest : List BodyOp} (h : WellOrdered (front ++ rest)) :
    WellOrdered rest := by
  induction front with
  | nil => exact h
  | cons op front ih =>
      apply ih
      cases op <;> simp only [List.cons_append, WellOrdered, Bool.and_eq_true] at h <;> exact h.2

/-- Nothing is given after the end. -/
theorem given_eq_of_ended {front rest : List BodyOp} (h : WellOrdered (front ++ rest))
    (hEnd : ∃ op ∈ front, op.ends = true) : given (front ++ rest) = given front := by
  have hNoBody : rest.all (!·.isBody) = true := by
    induction front with
    | nil =>
        obtain ⟨op, hMem, -⟩ := hEnd
        cases hMem
    | cons op front ih =>
        obtain ⟨last, hMem, hLast⟩ := hEnd
        rcases List.mem_cons.mp hMem with rfl | hMem
        · cases last with
          | body | read => cases hLast
          | trailer | eom =>
              simp only [List.cons_append, WellOrdered, BodyOp.ends, Bool.not_true, Bool.false_or,
                Bool.and_eq_true, List.all_append] at h
              exact h.1.2
        · have hRest : WellOrdered ([op] ++ (front ++ rest)) := h
          exact ih (wellOrdered_right hRest) ⟨last, hMem, hLast⟩
  have hRest : given rest = [] := by
    clear h
    induction rest with
    | nil => rfl
    | cons op rest ih =>
        simp only [List.all_cons, Bool.and_eq_true] at hNoBody
        cases op with
        | body => simp [BodyOp.isBody] at hNoBody
        | trailer | eom | read => exact ih hNoBody.2
  rw [given_append, hRest, List.append_nil]

theorem Progress.step {status : Nat} {ops : List BodyOp} {s : Stream} {op : BodyOp}
    (h : Progress status ops s) (hRun : s = (init status).run ops) (hOrdered : WellOrdered [op]) :
    Progress status (ops ++ [op]) (s.step op) := by
  have hMem : op ∈ ops ++ [op] := by simp
  cases op with
  | body data =>
      obtain ⟨hBody, hIndex, hEof, hTrailers⟩ := flush_body { s with body := s.body ++ [data] }
      have hValid : s.bodyIndex ≤ ((s.body ++ [data]).headD []).length := by
        have hIndex := h.valid
        unfold Valid at hIndex
        cases hs : s.body <;> simp_all
      have hLength : s.bodyIndex ≤ s.body.flatten.length := by
        have hIndex := h.valid
        unfold Valid at hIndex
        cases hs : s.body with
        | nil => simpa [hs] using hIndex
        | cons first rest =>
            rw [hs, List.headD_cons] at hIndex
            simp only [List.flatten_cons, List.length_append]
            omega
      exact {
        valid := by
          unfold Valid
          simp only [Stream.step, onBody, hBody, hIndex]
          exact hValid
        bytes := by
          have hRemaining : (s.step (.body data)).remaining = s.remaining ++ data := by
            simp only [remaining, Stream.step, onBody, hBody, hIndex, List.flatten_append,
              List.flatten_singleton]
            exact List.drop_append_of_le_length hLength
          rw [hRemaining, returned_append, given_append, ← h.bytes]
          simp [returned, given]
        eof := by
          intro hEnd
          simp only [Stream.step, onBody, hEof] at hEnd
          simp [h.eof hEnd]
        trailers := by
          intro hHas
          simp only [Stream.step, onBody, hasTrailers, hTrailers] at hHas
          obtain ⟨last, hLast, hEnds⟩ := h.trailers hHas
          exact ⟨last, by simp [hLast], hEnds⟩ }
  | trailer key value =>
      exact {
        valid := h.valid
        bytes := by
          rw [returned_append, given_append, ← h.bytes]
          simp [returned, given, Stream.step, onTrailer, remaining]
        eof := by
          intro hEnd
          simp [h.eof hEnd]
        trailers := fun _ => ⟨_, hMem, rfl⟩ }
  | eom =>
      obtain ⟨hBody, hIndex, hEof, hTrailers⟩ := onEom_body s
      exact {
        valid := by
          have hValid := h.valid
          unfold Valid at hValid ⊢
          simpa [Stream.step, hBody, hIndex] using hValid
        bytes := by
          rw [returned_append, given_append, ← h.bytes]
          simp [returned, given, Stream.step, remaining, hBody, hIndex]
        eof := fun _ => hMem
        trailers := by
          intro hHas
          simp only [Stream.step, hasTrailers, hTrailers] at hHas
          obtain ⟨last, hLast, hEnds⟩ := h.trailers hHas
          exact ⟨last, by simp [hLast], hEnds⟩ }
  | read length =>
      have hPos : 0 < length := by simpa [WellOrdered] using hOrdered
      have hSpec := read_spec h.valid hPos
      exact {
        valid := hSpec.valid
        bytes := by
          rw [returned_append, given_append, ← h.bytes, ← hRun]
          simp only [returned, given, List.append_nil, List.append_assoc]
          rw [Stream.step, hSpec.bytes]
        eof := by
          intro hEnd
          rw [Stream.step, hSpec.eof] at hEnd
          simp [h.eof hEnd]
        trailers := by
          intro hHas
          rw [Stream.step, hasTrailers, hSpec.trailers] at hHas
          obtain ⟨last, hLast, hEnds⟩ := h.trailers hHas
          exact ⟨last, by simp [hLast], hEnds⟩ }

theorem progress (status : Nat) {ops : List BodyOp} (hOrdered : WellOrdered ops) :
    Progress status ops ((init status).run ops) := by
  induction ops using List.reverseRecOn with
  | nil =>
      exact {
        valid := Nat.zero_le _
        bytes := rfl
        eof := nofun
        trailers := nofun }
  | append_singleton ops op ih =>
      have hProgress := ih (wellOrdered_left hOrdered)
      rw [run_append]
      exact hProgress.step rfl (wellOrdered_right hOrdered)

/-- What a read of a run must do: return no more than it is asked for, add to a prefix
of what has been given, and report the end only after the whole body. -/
structure ReadsFaithfully (status : Nat) (ops front : List BodyOp) (length : Nat) : Prop where
  length_le : (((init status).run front).dataSourceReadCallback length).1.bytes.length ≤ length
  bytes : (init status).returned (front ++ [.read length]) <+: given front
  eof : (((init status).run front).dataSourceReadCallback length).1.eof = true →
    (init status).returned (front ++ [.read length]) = given ops ∧ ∃ op ∈ front, op.ends = true

theorem readsFaithfully_iff {status : Nat} {ops front rest : List BodyOp} {length : Nat}
    (hOrdered : WellOrdered ops) (hOps : ops = front ++ .read length :: rest) :
    ReadsFaithfully status ops front length ↔ ¬ ((init status).run front).CutsShort length := by
  have hSplit : ops = (front ++ [.read length]) ++ rest := by simp [hOps]
  have hFront : WellOrdered (front ++ [.read length]) := wellOrdered_left (hSplit ▸ hOrdered)
  have hPos : 0 < length := by simpa [WellOrdered] using wellOrdered_right hFront
  have hProgress := progress status (wellOrdered_left hFront)
  have hSpec := read_spec hProgress.valid hPos
  have hAfter := (progress status hFront).bytes
  rw [run_append, given_append] at hAfter
  simp only [run, List.foldl_cons, List.foldl_nil, given, List.append_nil] at hAfter
  have hPrefix : (init status).returned (front ++ [.read length]) <+: given front := ⟨_, hAfter⟩
  constructor
  · intro hFaithful hCuts
    obtain ⟨hEof, hLeft⟩ := hSpec.cutsShort hCuts
    have hAll := (hFaithful.eof hEof).1
    have hGiven : given ops = given front ++ given rest := by simp [hOps, given_append, given]
    rw [hAll, hGiven, List.append_assoc] at hAfter
    have hNil := List.append_right_eq_self.mp hAfter
    exact hLeft (List.append_eq_nil_iff.mp hNil).2
  · intro hNot
    refine ⟨hSpec.length_le, hPrefix, ?_⟩
    intro hEof
    have hEnds : ∃ op ∈ front, op.ends = true := by
      rcases hSpec.ended hEof with hEnd | hTrailers
      · exact ⟨.eom, hProgress.eof hEnd, rfl⟩
      · exact hProgress.trailers hTrailers
    refine ⟨?_, hEnds⟩
    have hLeft := hSpec.complete hEof hNot
    rw [hOps, given_eq_of_ended (hOps ▸ hOrdered) hEnds, ← hAfter]
    change _ = _ ++ (((init status).run front).dataSourceReadCallback length).2.remaining
    rw [hLeft, List.append_nil]

/-- Every read of a run is faithful if and only if none cuts the body short. -/
theorem reads_faithful_iff (status : Nat) (ops : List BodyOp) (hOrdered : WellOrdered ops) :
    (∀ front length rest, ops = front ++ .read length :: rest →
        ReadsFaithfully status ops front length) ↔
      ∀ front length rest, ops = front ++ .read length :: rest →
        ¬ ((init status).run front).CutsShort length := by
  constructor
  · intro hFaithful front length rest hOps
    exact (readsFaithfully_iff hOrdered hOps).mp (hFaithful front length rest hOps)
  · intro hNot front length rest hOps
    exact (readsFaithfully_iff hOrdered hOps).mpr (hNot front length rest hOps)

/-- Twenty bytes and the end, read ten at a time: the first read already reports the
end of the body. -/
theorem reads_not_faithful :
    ¬ ReadsFaithfully 200 [.body (ofString "0123456789abcdefghij"), .eom, .read 10]
      [.body (ofString "0123456789abcdefghij"), .eom] 10 := by
  intro hFaithful
  have hAll := (hFaithful.eof (by decide)).1
  exact absurd hAll (by decide)

theorem reads_faithful_iff_short_body :
    WellOrdered [.body (ofString "abc"), .eom, .read 8] = true ∧
      ((∀ front length rest,
          [.body (ofString "abc"), .eom, .read 8] = front ++ .read length :: rest →
            ReadsFaithfully 200 [.body (ofString "abc"), .eom, .read 8] front length) ↔
        ∀ front length rest,
          [.body (ofString "abc"), .eom, .read 8] = front ++ .read length :: rest →
            ¬ ((init 200).run front).CutsShort length) :=
  ⟨by decide, reads_faithful_iff 200 [.body (ofString "abc"), .eom, .read 8] (by decide)⟩

end Doormat.Http2
