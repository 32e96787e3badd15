import Doormat.Utils.ReusableBuffer

/-! The read loop of `connector`: a region is reserved, the socket reads into it, and what it read
is produced, handed to the handler and consumed. -/
namespace Doormat.Utils.ReusableBuffer

open Bytes Runs

variable {size : Size}

/-- The region that `reserve` gives, and the buffer when the socket has read into it. -/
def readInto (order : Order) (b : ReusableBuffer size) (bytes : ByteString) :
    ReusableBuffer size :=
  (b.reserve order).2.store (b.reserve order).1.1 bytes

/-- `do_read` up to its next call. A read yields at least one byte and no more than the region
has room for. -/
def doRead (order : Order) (b : ReusableBuffer size) (bytes : ByteString) :
    Option (ReusableBuffer size) :=
  if 0 < bytes.length ∧ bytes.length ≤ (b.reserve order).1.2 then
    match (b.readInto order bytes).produce bytes.length with
    | (some tmp, b) => some (b.consume (tmp + bytes.length)).2
    | (none, _) => none
  else none

/-- `reserve` and `produce` agree on the next read, whatever it yields. -/
structure Agrees (order : Order) (b : ReusableBuffer size) : Prop where
  room : 0 < (b.reserve order).1.2
  inside : (b.reserve order).1.1 + (b.reserve order).1.2 ≤ size.N
  pointer : ∀ bytes : ByteString, 0 < bytes.length → bytes.length ≤ (b.reserve order).1.2 →
    ((b.readInto order bytes).produce bytes.length).1 = some (b.reserve order).1.1
  handed : ∀ bytes : ByteString, 0 < bytes.length → bytes.length ≤ (b.reserve order).1.2 →
    ∀ tmp, ((b.readInto order bytes).produce bytes.length).1 = some tmp →
      (List.range' tmp bytes.length).map
        ((b.readInto order bytes).produce bytes.length).2.byteAt = bytes

/-- Between two reads all that was produced has been consumed. -/
structure Idle (b : ReusableBuffer size) : Prop where
  aligned : b.Aligned
  nothing : b.live = []

theorem idle_empty (size : Size) : (empty size).Idle := ⟨aligned_empty size, rfl⟩

theorem Idle.realigned_eq {b : ReusableBuffer size} (h : b.Idle) :
    b.realigned = { b with wr := 0, rd := 0 } :=
  if_pos h.nothing

/-- The region is the whole array, but for where it is said to start. -/
theorem Idle.reserve_fst {b : ReusableBuffer size} (h : b.Idle) (order : Order) :
    (b.reserve order).1 = (if order = .rightToLeft then 0 else b.wr, size.N) := by
  have hRoom := (room_nil h.nothing).2
  have hWr : b.realigned.wr = 0 := by rw [h.realigned_eq]
  cases order <;> simp [reserve, h.aligned.availMem_eq, hRoom, hWr]

/-- What has been read lies in a buffer whose pointers are at the start of the array. -/
theorem Idle.readInto_eq {b : ReusableBuffer size} (h : b.Idle) (order : Order)
    (bytes : ByteString) :
    b.readInto order bytes =
      { empty size with mem := (b.store (b.reserve order).1.1 bytes).mem } := by
  have hBound := (h.aligned.live_eq_nil_iff.mp h.nothing).1
  rw [readInto, h.aligned.reserve_snd order, h.realigned_eq, store, hBound]
  rfl

/-- `produce` always yields the start of the array. -/
theorem Idle.produce_read {b : ReusableBuffer size} (h : b.Idle) (order : Order)
    {bytes : ByteString} (hLen : bytes.length ≤ size.N) :
    (b.readInto order bytes).produce bytes.length = (some 0,
      if bytes.length = size.N then { b.readInto order bytes with bound := true, wr := 0 }
      else { b.readInto order bytes with wr := bytes.length }) := by
  have hRoom : (b.readInto order bytes).availMem = (size.N, b.readInto order bytes) := by
    rw [h.readInto_eq]
    rfl
  have hWr : (b.readInto order bytes).wr = 0 := by
    rw [h.readInto_eq]
    rfl
  simp only [produce, hRoom, hWr, Nat.zero_add]
  rw [if_pos hLen]
  split <;> rfl

theorem Idle.aligned_readInto {b : ReusableBuffer size} (h : b.Idle) (order : Order)
    (bytes : ByteString) : (b.readInto order bytes).Aligned := by
  rw [h.readInto_eq]
  exact ⟨size.pos, size.pos, (fun hNot => nomatch hNot), fun _ => Nat.le_refl _⟩

/-- A read leaves the buffer idle, with its pointers at the end of what was read, or at the start
of the array if that filled it. -/
theorem Idle.doRead {b t : ReusableBuffer size} (h : b.Idle) {order : Order} {bytes : ByteString}
    (hStep : b.doRead order bytes = some t) :
    t.Idle ∧ (t.wr = 0 ↔ bytes.length = size.N) := by
  unfold ReusableBuffer.doRead at hStep
  split at hStep
  case isFalse => cases hStep
  case isTrue hLen =>
    rw [h.reserve_fst] at hLen
    obtain ⟨hSome, hLe⟩ := hLen
    have hProduced := (h.aligned_readInto order bytes).produce bytes.length
    rw [h.produce_read order hLe] at hStep hProduced
    simp only [Option.some.injEq, Nat.zero_add] at hStep hProduced
    subst hStep
    rw [h.readInto_eq] at hProduced ⊢
    generalize (b.store (b.reserve order).1.1 bytes).mem = mem at hProduced ⊢
    by_cases hAll : bytes.length = size.N
    · rw [if_pos hAll] at hProduced ⊢
      have hEnd : ReusableBuffer.Readable
          { empty size with mem := mem, bound := true, wr := 0 } bytes.length :=
        ⟨Nat.zero_le _, hLe⟩
      have hAfter := hProduced.consume hEnd
      rw [hProduced.consume_eq hEnd, if_pos hAll] at hAfter ⊢
      have hNothing := hAfter.live_eq_nil_iff.mpr ⟨rfl, rfl⟩
      exact ⟨⟨hAfter, hNothing⟩, iff_of_true rfl hAll⟩
    · rw [if_neg hAll] at hProduced ⊢
      have hEnd : ReusableBuffer.Readable
          { empty size with mem := mem, wr := bytes.length } bytes.length :=
        ⟨Nat.zero_le _, Nat.le_refl _⟩
      have hAfter := hProduced.consume hEnd
      rw [hProduced.consume_eq hEnd, if_neg hAll] at hAfter ⊢
      have hNothing := hAfter.live_eq_nil_iff.mpr ⟨rfl, rfl⟩
      exact ⟨⟨hAfter, hNothing⟩, iff_of_false (Nat.ne_of_gt hSome) hAll⟩

/-- From an idle buffer the region that `reserve` gives is the one that `produce` yields if and only
if it starts with the array. -/
theorem Idle.agrees_iff {b : ReusableBuffer size} (h : b.Idle) (order : Order) :
    b.Agrees order ↔ order = .rightToLeft ∨ b.wr = 0 := by
  have hFst := h.reserve_fst order
  have hStart : (b.reserve order).1.1 = 0 ↔ order = .rightToLeft ∨ b.wr = 0 := by
    rw [hFst]
    by_cases hOrder : order = .rightToLeft <;> simp [hOrder]
  rw [← hStart]
  constructor
  · intro hAgrees
    have hInside := hAgrees.inside
    rw [hFst] at hInside ⊢
    simp only at hInside ⊢
    omega
  · intro hZero
    have hPos := size.pos
    constructor
    · rw [hFst]
      exact hPos
    · rw [hZero, hFst]
      simp
    · intro bytes _ hLen
      rw [hFst] at hLen
      rw [h.produce_read order hLen, hZero]
    · intro bytes _ hLen tmp hTmp
      rw [hFst] at hLen
      have hIn : 0 + bytes.length ≤ size.N := by omega
      rw [h.produce_read order hLen] at hTmp
      cases hTmp
      have hByte : ((b.readInto order bytes).produce bytes.length).2.byteAt =
          ((b.reserve order).2.store 0 bytes).byteAt := by
        funext i
        simp [byteAt, readInto, hZero]
      rw [hByte]
      exact map_byteAt_store hIn

/-- In every run of reads `reserve` and `produce` agree throughout if and only if the arguments
are evaluated right to left or every read fills the whole buffer. -/
theorem reserve_produce_agree_iff (size : Size) (order : Order) (reads : List ByteString) :
    Throughout (doRead order) (Agrees order) (empty size) reads ↔
      Heeds (doRead order) (fun _ bytes => order = .rightToLeft ∨ bytes.length = size.N)
        (empty size) reads := by
  have hKeeps : ∀ {b : ReusableBuffer size} {bytes : ByteString} {t : ReusableBuffer size},
      b.Idle → b.Agrees order → b.doRead order bytes = some t → t.Agrees order → t.Idle := by
    intro b bytes t hIdle _ hStep _
    exact (hIdle.doRead hStep).1
  apply throughout_iff_heeds hKeeps
  · intro b bytes t hIdle _ hStep
    obtain ⟨hAfter, hWr⟩ := hIdle.doRead hStep
    rw [hAfter.agrees_iff, hWr]
  · exact idle_empty size
  · exact ((idle_empty size).agrees_iff order).mpr (Or.inr rfl)

/-- Evaluated left to right, the region reserved after a first read of one byte reaches beyond
the array. -/
theorem reserved_beyond : ¬ ∀ (size : Size) (order : Order) (reads : List ByteString),
    Throughout (doRead order) (Agrees order) (empty size) reads := by
  intro hAll
  have hAgrees := (hAll ⟨2, by decide, by decide⟩ .leftToRight [[7]]).2 _ rfl
  have hInside := hAgrees.inside
  revert hInside
  decide

end Doormat.Utils.ReusableBuffer
