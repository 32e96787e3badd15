import Doormat.Library.Bytes
import Doormat.Library.Runs

/-! `reusable_buffer<N>`: an array of bytes with a pointer where the next byte is written and one
where the next byte is read. Pointers are offsets into the array. -/
namespace Doormat.Utils

open Bytes Runs

/-- What the template parameter `int N` may be for an array of `N` bytes. -/
structure Size where
  N : Nat
  pos : 0 < N
  isInt : N < 2 ^ 31

/-- The order in which the two arguments of `boost::asio::buffer(wr, avail_mem())` are
evaluated. -/
inductive Order
  | leftToRight
  | rightToLeft
deriving DecidableEq

structure ReusableBuffer (size : Size) where
  bound : Bool
  mem : Vector UInt8 size.N
  wr : Nat
  rd : Nat

namespace ReusableBuffer

variable {size : Size}

/-- The constructor. -/
def empty (size : Size) : ReusableBuffer size :=
  { bound := false, mem := Vector.replicate size.N 0, wr := 0, rd := 0 }

def availMem (b : ReusableBuffer size) : Nat × ReusableBuffer size :=
  if b.wr < b.rd then (b.rd - b.wr, b)
  else if b.wr > b.rd then (size.N - b.wr, b)
  else if b.bound then (0, b)
  else (size.N, { b with rd := 0, wr := 0 })

/-- The region is told by its first byte and its length. -/
def reserve (order : Order) (b : ReusableBuffer size) : (Nat × Nat) × ReusableBuffer size :=
  match order with
  | .leftToRight => ((b.wr, b.availMem.1), b.availMem.2)
  | .rightToLeft => ((b.availMem.2.wr, b.availMem.1), b.availMem.2)

def produce (len : Nat) (b : ReusableBuffer size) : Option Nat × ReusableBuffer size :=
  let max := b.availMem.1
  let b := b.availMem.2
  if len ≤ max then
    if b.wr + len = size.N then (some b.wr, { b with bound := true, wr := 0 })
    else (some b.wr, { b with wr := b.wr + len })
  else (none, b)

/-- The count is a `size_t`, a difference of two pointers modulo the word. -/
def consume (ptr : Nat) (b : ReusableBuffer size) : Nat × ReusableBuffer size :=
  let upperBound := if b.bound then size.N else b.wr
  if 0 < ptr ∧ ptr ≤ upperBound then
    let bytes := (2 ^ 64 + ptr - b.rd) % 2 ^ 64
    if ptr = size.N then (bytes, { b with bound := false, rd := 0 })
    else (bytes, { b with rd := ptr })
  else (0, b)

/-- What the caller does with a region that it was given: bytes are stored from `start` on. -/
def store (start : Nat) (bytes : ByteString) (b : ReusableBuffer size) : ReusableBuffer size :=
  { b with mem := Vector.ofFn fun i =>
      if start ≤ i.val ∧ i.val < start + bytes.length then bytes.getD (i.val - start) 0
      else b.mem[i] }

/-- The cells from the read pointer to the write pointer, in reading order. -/
def live (b : ReusableBuffer size) : List Nat :=
  if b.bound then List.range' b.rd (size.N - b.rd) ++ List.range' 0 b.wr
  else List.range' b.rd (b.wr - b.rd)

def byteAt (b : ReusableBuffer size) (i : Nat) : UInt8 := b.mem[i]?.getD 0

def liveBytes (b : ReusableBuffer size) : ByteString := b.live.map b.byteAt

/-- Where the contiguous readable run that starts at `rd` ends. -/
def runEnd (b : ReusableBuffer size) : Nat := if b.bound then size.N else b.wr

/-- An empty buffer is written from the start of the array. -/
def start (b : ReusableBuffer size) : Nat := if b.live = [] then 0 else b.wr

/-- The free contiguous space: the cells from `start` on, up to the first live one or to the end
of the array. -/
def room (b : ReusableBuffer size) : Nat :=
  ((List.range' b.start (size.N - b.start)).takeWhile fun i => i ∉ b.live).length

/-- The buffer with its pointers put back to the start of the array if it is empty. -/
def realigned (b : ReusableBuffer size) : ReusableBuffer size :=
  if b.live = [] then { b with wr := 0, rd := 0 } else b

/-- The representation invariant. The flag tells on which side of `rd` the next byte is
written. -/
structure Aligned (b : ReusableBuffer size) : Prop where
  wr_lt : b.wr < size.N
  rd_lt : b.rd < size.N
  wr_le : b.bound = true → b.wr ≤ b.rd
  rd_le : b.bound = false → b.rd ≤ b.wr

theorem aligned_empty (size : Size) : (empty size).Aligned := by
  have hPos := size.pos
  constructor <;> simp [empty, hPos]

/-! ### Cells -/

theorem live_bound {b : ReusableBuffer size} (h : b.bound = true) :
    b.live = List.range' b.rd (size.N - b.rd) ++ List.range' 0 b.wr := by
  simp [live, h]

theorem live_unbound {b : ReusableBuffer size} (h : b.bound = false) :
    b.live = List.range' b.rd (b.wr - b.rd) := by
  simp [live, h]

theorem Aligned.live_eq_nil_iff {b : ReusableBuffer size} (h : b.Aligned) :
    b.live = [] ↔ b.bound = false ∧ b.wr = b.rd := by
  have hRd := h.rd_lt
  cases hBound : b.bound with
  | true =>
      have hSome : size.N - b.rd ≠ 0 := by omega
      simp [live_bound hBound, hSome]
  | false =>
      have hLe := h.rd_le hBound
      rw [live_unbound hBound, List.range'_eq_nil_iff]
      simp only [true_and]
      omega

/-- No more is live than the array holds. -/
theorem Aligned.length_live_le {b : ReusableBuffer size} (h : b.Aligned) :
    b.live.length ≤ size.N := by
  have hWr := h.wr_lt
  cases hBound : b.bound with
  | true =>
      have hLe := h.wr_le hBound
      have hRd := h.rd_lt
      simp only [live_bound hBound, List.length_append, List.length_range']
      omega
  | false =>
      simp only [live_unbound hBound, List.length_range']
      omega

/-- A scan of consecutive cells yields those before the first that stops it. -/
theorem takeWhile_range' (p : Nat → Bool) (s n : Nat) :
    (List.range' s n).takeWhile p = List.range' s ((List.range' s n).takeWhile p).length := by
  have hPrefix := List.takeWhile_prefix p (l := List.range' s n)
  have hTake := List.prefix_iff_eq_take.mp hPrefix
  have hLe : ((List.range' s n).takeWhile p).length ≤ n := by
    simpa using hPrefix.length_le
  rw [List.take_range'_of_length_ge hLe] at hTake
  exact hTake

theorem length_takeWhile_range' {p : Nat → Bool} {s n k : Nat} (hk : k ≤ n)
    (hPass : ∀ i, s ≤ i → i < s + k → p i = true) (hStop : k = n ∨ p (s + k) = false) :
    ((List.range' s n).takeWhile p).length = k := by
  have hSplit : List.range' s n = List.range' s k ++ List.range' (s + k) (n - k) := by
    rw [List.range'_append_1, Nat.add_sub_cancel' hk]
  have hAll : ∀ i ∈ List.range' s k, p i = true := by
    intro i hi
    rw [List.mem_range'_1] at hi
    exact hPass i hi.1 hi.2
  rw [hSplit, List.takeWhile_append_of_pos hAll]
  rcases hStop with rfl | hStop
  · simp
  · cases hRest : n - k with
    | zero => simp
    | succ m => simp [List.range'_succ, hStop]

/-- The free contiguous space is inside the array and holds no live byte. -/
theorem room_spec (b : ReusableBuffer size) (hStart : b.start ≤ size.N) :
    b.start + b.room ≤ size.N ∧ ∀ i, b.start ≤ i → i < b.start + b.room → i ∉ b.live := by
  constructor
  · have hLe := (List.takeWhile_prefix (fun i => decide (i ∉ b.live))
      (l := List.range' b.start (size.N - b.start))).length_le
    rw [List.length_range'] at hLe
    unfold room
    omega
  · intro i hFrom hTo
    have hMem : i ∈ (List.range' b.start (size.N - b.start)).takeWhile
        fun i => decide (i ∉ b.live) := by
      rw [takeWhile_range', List.mem_range'_1]
      exact ⟨hFrom, hTo⟩
    simpa using List.mem_takeWhile_imp hMem

theorem room_eq {b : ReusableBuffer size} {k : Nat} (hk : b.start + k ≤ size.N)
    (hFree : ∀ i, b.start ≤ i → i < b.start + k → i ∉ b.live)
    (hStop : b.start + k = size.N ∨ b.start + k ∈ b.live) : b.room = k := by
  apply length_takeWhile_range'
  · omega
  · intro i hFrom hTo
    simpa using hFree i hFrom hTo
  · rcases hStop with hEnd | hLive
    · left
      omega
    · right
      simpa using hLive

/-! ### What each function does -/

@[simp] theorem realigned_mem (b : ReusableBuffer size) : b.realigned.mem = b.mem := by
  unfold realigned
  split <;> rfl

@[simp] theorem realigned_bound (b : ReusableBuffer size) : b.realigned.bound = b.bound := by
  unfold realigned
  split <;> rfl

theorem Aligned.realigned {b : ReusableBuffer size} (h : b.Aligned) : b.realigned.Aligned := by
  unfold ReusableBuffer.realigned
  split
  · next hNil =>
      have hBound := (h.live_eq_nil_iff.mp hNil).1
      have hPos := size.pos
      constructor <;> simp [hBound, hPos]
  · exact h

theorem Aligned.live_realigned {b : ReusableBuffer size} (h : b.Aligned) :
    b.realigned.live = b.live := by
  unfold ReusableBuffer.realigned
  split
  · next hNil =>
      have hBound := (h.live_eq_nil_iff.mp hNil).1
      rw [hNil]
      simp [live, hBound]
  · rfl

theorem realigned_wr (b : ReusableBuffer size) : b.realigned.wr = b.start := by
  unfold realigned start
  split <;> rfl

theorem Aligned.room_bound {b : ReusableBuffer size} (h : b.Aligned) (hBound : b.bound = true) :
    b.start = b.wr ∧ b.room = b.rd - b.wr := by
  have hLe := h.wr_le hBound
  have hRd := h.rd_lt
  have hSome : ¬ b.live = [] := by simp [h.live_eq_nil_iff, hBound]
  have hStart : b.start = b.wr := if_neg hSome
  refine ⟨hStart, ?_⟩
  apply room_eq
  · omega
  · intro i hFrom hTo
    simp only [live_bound hBound, List.mem_append, List.mem_range'_1]
    omega
  · right
    simp only [live_bound hBound, List.mem_append, List.mem_range'_1]
    omega

theorem Aligned.room_unbound {b : ReusableBuffer size} (h : b.Aligned) (hBound : b.bound = false)
    (hSome : b.live ≠ []) : b.start = b.wr ∧ b.room = size.N - b.wr := by
  have hWr := h.wr_lt
  have hStart : b.start = b.wr := if_neg hSome
  refine ⟨hStart, ?_⟩
  apply room_eq
  · omega
  · intro i hFrom hTo
    simp only [live_unbound hBound, List.mem_range'_1]
    omega
  · left
    omega

theorem room_nil {b : ReusableBuffer size} (hNone : b.live = []) :
    b.start = 0 ∧ b.room = size.N := by
  have hStart : b.start = 0 := if_pos hNone
  refine ⟨hStart, ?_⟩
  apply room_eq
  · omega
  · intro i hFrom hTo
    simp [hNone]
  · left
    omega

theorem Aligned.start_le {b : ReusableBuffer size} (h : b.Aligned) : b.start < size.N := by
  have hPos := size.pos
  have hWr := h.wr_lt
  unfold start
  split <;> omega

/-- `avail_mem` yields the free contiguous space, and realigns an empty buffer. -/
theorem Aligned.availMem_eq {b : ReusableBuffer size} (h : b.Aligned) :
    b.availMem = (b.room, b.realigned) := by
  have hNil := h.live_eq_nil_iff
  unfold availMem
  cases hBound : b.bound with
  | true =>
      have hLe := h.wr_le hBound
      have hSome : ¬ b.live = [] := by simp [hNil, hBound]
      have hSame : b.realigned = b := if_neg hSome
      rw [(h.room_bound hBound).2, hSame]
      by_cases hLt : b.wr < b.rd
      · rw [if_pos hLt]
      · have hFull : b.rd - b.wr = 0 := by omega
        rw [if_neg hLt, if_neg (by omega), if_pos rfl, hFull]
  | false =>
      have hLe := h.rd_le hBound
      rw [if_neg (by omega)]
      by_cases hGt : b.wr > b.rd
      · have hSome : ¬ b.live = [] := by
          rw [hNil]
          omega
        have hSame : b.realigned = b := if_neg hSome
        rw [if_pos hGt, (h.room_unbound hBound hSome).2, hSame]
      · have hNone : b.live = [] := hNil.mpr ⟨hBound, by omega⟩
        have hMoved : b.realigned = { b with wr := 0, rd := 0 } := if_pos hNone
        rw [if_neg hGt, if_neg Bool.false_ne_true, (room_nil hNone).2, hMoved, hBound]

theorem Aligned.reserve_snd {b : ReusableBuffer size} (h : b.Aligned) (order : Order) :
    (b.reserve order).2 = b.realigned := by
  cases order <;> simp [reserve, h.availMem_eq]

/-- `produce` grants a region at `start` if and only if the free contiguous space is enough. -/
theorem Aligned.produce_fst {b : ReusableBuffer size} (h : b.Aligned) (len : Nat) :
    (b.produce len).1 = if len ≤ b.room then some b.start else none := by
  simp only [produce, h.availMem_eq, realigned_wr]
  split
  · split <;> rfl
  · rfl

theorem Aligned.produce_refused {b : ReusableBuffer size} (h : b.Aligned) {len : Nat}
    (hLen : b.room < len) : (b.produce len).2 = b.realigned := by
  simp only [produce, h.availMem_eq]
  rw [if_neg (Nat.not_le.mpr hLen)]

@[simp] theorem availMem_mem (b : ReusableBuffer size) : b.availMem.2.mem = b.mem := by
  unfold availMem
  repeat' split
  all_goals rfl

@[simp] theorem produce_mem (b : ReusableBuffer size) (len : Nat) :
    (b.produce len).2.mem = b.mem := by
  simp only [produce]
  split
  · split <;> exact availMem_mem b
  · exact availMem_mem b

/-- What `produce` does to the pointers of a realigned buffer. -/
theorem Aligned.produce_granted {b : ReusableBuffer size} (h : b.Aligned) {len : Nat}
    (hLen : len ≤ b.room) :
    (b.produce len).2 =
      if b.start + len = size.N then { b.realigned with bound := true, wr := 0 }
      else { b.realigned with wr := b.start + len } := by
  simp only [produce, h.availMem_eq, realigned_wr]
  rw [if_pos hLen]
  split <;> rfl

/-- Where the free contiguous space ends: at the read pointer behind a wrap, else with the
array. -/
theorem Aligned.room_end {b : ReusableBuffer size} (h : b.Aligned) :
    (b.bound = true ∧ b.realigned = b ∧ b.start + b.room = b.rd) ∨
      (b.bound = false ∧ b.realigned.rd ≤ b.start ∧ b.start + b.room = size.N) := by
  have hWr := h.wr_lt
  cases hBound : b.bound with
  | true =>
      have hLe := h.wr_le hBound
      have hSome : ¬ b.live = [] := by simp [h.live_eq_nil_iff, hBound]
      obtain ⟨hStart, hRoom⟩ := h.room_bound hBound
      left
      exact ⟨rfl, if_neg hSome, by omega⟩
  | false =>
      have hLe := h.realigned.rd_le (by rw [realigned_bound, hBound])
      rw [realigned_wr] at hLe
      right
      refine ⟨rfl, hLe, ?_⟩
      by_cases hNone : b.live = []
      · obtain ⟨hStart, hRoom⟩ := room_nil hNone
        omega
      · obtain ⟨hStart, hRoom⟩ := h.room_unbound hBound hNone
        omega

theorem Aligned.produce {b : ReusableBuffer size} (h : b.Aligned) (len : Nat) :
    (b.produce len).2.Aligned := by
  have hRe := h.realigned
  by_cases hLen : len ≤ b.room
  · rw [h.produce_granted hLen]
    have hRdLt := hRe.rd_lt
    rcases h.room_end with ⟨hBound, hSame, hEnd⟩ | ⟨hBound, hLe, hEnd⟩
    · have hRd := h.rd_lt
      rw [if_neg (by omega), hSame]
      constructor
      · show b.start + len < size.N
        omega
      · exact hRd
      · intro _
        show b.start + len ≤ b.rd
        omega
      · intro hNot
        rw [hBound] at hNot
        exact nomatch hNot
    · split
      · exact ⟨size.pos, hRdLt, fun _ => Nat.zero_le _, fun hNot => nomatch hNot⟩
      · constructor
        · show b.start + len < size.N
          omega
        · exact hRdLt
        · intro hNot
          simp [hBound] at hNot
        · intro _
          show b.realigned.rd ≤ b.start + len
          omega
  · rw [h.produce_refused (by omega)]
    exact hRe

/-- The region that `produce` grants becomes live behind what was. -/
theorem Aligned.live_produce {b : ReusableBuffer size} (h : b.Aligned) {len : Nat}
    (hLen : len ≤ b.room) : (b.produce len).2.live = b.live ++ List.range' b.start len := by
  rw [h.produce_granted hLen, ← h.live_realigned]
  rcases h.room_end with ⟨hBound, hSame, hEnd⟩ | ⟨hBound, hLe, hEnd⟩
  · have hRd := h.rd_lt
    have hStart := (h.room_bound hBound).1
    rw [if_neg (by omega), hSame, live_bound hBound, live_bound (by exact hBound), hStart,
      List.append_assoc]
    show _ ++ List.range' 0 (b.wr + len) = _
    rw [← List.range'_append_1, Nat.zero_add]
  · have hWr := realigned_wr b
    have hOld : b.realigned.live = List.range' b.realigned.rd (b.start - b.realigned.rd) := by
      rw [live_unbound (by rw [realigned_bound, hBound]), hWr]
    have hJoin : List.range' b.realigned.rd (b.start - b.realigned.rd) ++ List.range' b.start len =
        List.range' b.realigned.rd (b.start + len - b.realigned.rd) := by
      have hAt : b.start = b.realigned.rd + (b.start - b.realigned.rd) := by omega
      have hMore : b.start + len - b.realigned.rd = b.start - b.realigned.rd + len := by omega
      rw [hMore, ← List.range'_append_1, ← hAt]
    rw [hOld, hJoin]
    split
    · next hAll =>
        rw [live_bound rfl, ← hAll]
        simp
    · rw [live_unbound (by rw [realigned_bound, hBound])]

/-! ### Bytes -/

theorem byteAt_store (b : ReusableBuffer size) (start : Nat) (bytes : ByteString) (i : Nat) :
    (b.store start bytes).byteAt i =
      if start ≤ i ∧ i < start + bytes.length ∧ i < size.N then bytes.getD (i - start) 0
      else b.byteAt i := by
  unfold byteAt store
  by_cases hi : i < size.N
  · simp only [hi, and_true, Vector.getElem?_eq_getElem, Vector.getElem_ofFn, Option.getD_some]
    rfl
  · simp [hi]

@[simp] theorem live_store (b : ReusableBuffer size) (start : Nat) (bytes : ByteString) :
    (b.store start bytes).live = b.live := rfl

theorem Aligned.store {b : ReusableBuffer size} (h : b.Aligned) (start : Nat)
    (bytes : ByteString) : (b.store start bytes).Aligned :=
  ⟨h.wr_lt, h.rd_lt, h.wr_le, h.rd_le⟩

/-- Bytes that are stored clear of the live cells leave the live bytes alone. -/
theorem liveBytes_store {b : ReusableBuffer size} {start : Nat} {bytes : ByteString}
    (hClear : ∀ i, start ≤ i → i < start + bytes.length → i ∉ b.live) :
    (b.store start bytes).liveBytes = b.liveBytes := by
  unfold liveBytes
  apply List.map_congr_left
  intro i hi
  rw [byteAt_store, if_neg]
  intro hIn
  exact hClear i hIn.1 hIn.2.1 hi

/-- Bytes that are stored inside the array are there to be read. -/
theorem map_byteAt_store {b : ReusableBuffer size} {start : Nat} {bytes : ByteString}
    (hIn : start + bytes.length ≤ size.N) :
    (List.range' start bytes.length).map (b.store start bytes).byteAt = bytes := by
  apply List.ext_getElem
  · simp
  · intro k hk hk'
    simp only [List.getElem_map, List.getElem_range', byteAt_store, Nat.one_mul]
    rw [if_pos (by omega), Nat.add_sub_cancel_left]
    simp [hk']

/-- What is produced is live behind what was. -/
theorem Aligned.liveBytes_produce {b : ReusableBuffer size} (h : b.Aligned) {bytes : ByteString}
    (hLen : bytes.length ≤ b.room) :
    ((b.produce bytes.length).2.store b.start bytes).liveBytes = b.liveBytes ++ bytes := by
  obtain ⟨hIn, hClear⟩ := b.room_spec (Nat.le_of_lt h.start_le)
  have hOld : b.live.map ((b.produce bytes.length).2.store b.start bytes).byteAt =
      b.live.map b.byteAt := by
    apply List.map_congr_left
    intro i hi
    rw [byteAt_store, if_neg]
    · simp [byteAt]
    · intro hAt
      exact hClear i hAt.1 (by omega) hi
  unfold liveBytes
  rw [live_store, h.live_produce hLen, List.map_append, hOld, map_byteAt_store (by omega)]

theorem Aligned.liveBytes_realigned {b : ReusableBuffer size} (h : b.Aligned) :
    b.realigned.liveBytes = b.liveBytes := by
  have hByte : b.realigned.byteAt = b.byteAt := by
    funext i
    simp [byteAt]
  rw [liveBytes, h.live_realigned, hByte, liveBytes]

/-! ### `consume` -/

/-- A pointer inside, or at the end of, the contiguous readable run. -/
def Readable (b : ReusableBuffer size) (ptr : Nat) : Prop := b.rd ≤ ptr ∧ ptr ≤ b.runEnd

instance (b : ReusableBuffer size) (ptr : Nat) : Decidable (b.Readable ptr) :=
  inferInstanceAs (Decidable (_ ∧ _))

theorem Aligned.runEnd_le {b : ReusableBuffer size} (h : b.Aligned) : b.runEnd ≤ size.N := by
  have hWr := h.wr_lt
  unfold runEnd
  split <;> omega

/-- The difference of two pointers into the array where it is not negative. -/
theorem sub_word {n rd ptr : Nat} (hn : n < 2 ^ 31) (hLe : rd ≤ ptr) (hPtr : ptr ≤ n) :
    (2 ^ 64 + ptr - rd) % 2 ^ 64 = ptr - rd := by
  omega

/-- On a pointer of the readable run `consume` moves the read pointer there. -/
theorem Aligned.consume_eq {b : ReusableBuffer size} (h : b.Aligned) {ptr : Nat}
    (hPtr : b.Readable ptr) :
    b.consume ptr = (ptr - b.rd,
      if ptr = size.N then { b with bound := false, rd := 0 } else { b with rd := ptr }) := by
  obtain ⟨hFrom, hTo⟩ := hPtr
  have hCount := sub_word size.isInt hFrom (hTo.trans h.runEnd_le)
  have hPos := size.pos
  unfold consume
  by_cases hZero : 0 < ptr
  · rw [if_pos ⟨hZero, hTo⟩]
    simp only [hCount]
    split <;> rfl
  · have hPtr : ptr = 0 := by omega
    have hRd : b.rd = 0 := by omega
    have hSame : { b with rd := 0 } = b := by rw [← hRd]
    rw [if_neg (fun hIn => hZero hIn.1), if_neg (by omega), hPtr, hSame, hRd]

theorem Aligned.consume {b : ReusableBuffer size} (h : b.Aligned) {ptr : Nat}
    (hPtr : b.Readable ptr) : (b.consume ptr).2.Aligned := by
  have hEnd := hPtr.2.trans h.runEnd_le
  rw [h.consume_eq hPtr]
  obtain ⟨hFrom, hTo⟩ := hPtr
  show ReusableBuffer.Aligned (if ptr = size.N then _ else _)
  split
  · exact ⟨h.wr_lt, size.pos, (fun hNot => nomatch hNot), fun _ => Nat.zero_le _⟩
  · constructor
    · exact h.wr_lt
    · show ptr < size.N
      omega
    · intro hBound
      exact (h.wr_le hBound).trans hFrom
    · intro hBound
      have hUnbound : b.bound = false := hBound
      rw [runEnd, hUnbound] at hTo
      exact hTo

/-- `consume` takes as many cells from the front as it returns. -/
theorem Aligned.live_consume {b : ReusableBuffer size} (h : b.Aligned) {ptr : Nat}
    (hPtr : b.Readable ptr) : (b.consume ptr).2.live = b.live.drop (b.consume ptr).1 := by
  have hWr := h.wr_lt
  rw [h.consume_eq hPtr]
  obtain ⟨hFrom, hTo⟩ := hPtr
  show ReusableBuffer.live (if ptr = size.N then _ else _) = b.live.drop (ptr - b.rd)
  cases hBound : b.bound with
  | true =>
      rw [runEnd, hBound] at hTo
      have hDrop : ptr - b.rd ≤ (List.range' b.rd (size.N - b.rd)).length := by
        rw [List.length_range']
        have hLe : ptr ≤ size.N := hTo
        omega
      have hAt : b.rd + (ptr - b.rd) * 1 = ptr := by omega
      have hLeft : size.N - b.rd - (ptr - b.rd) = size.N - ptr := by omega
      rw [live_bound hBound, List.drop_append_of_le_length hDrop, List.drop_range', hAt, hLeft]
      split
      · next hAll =>
          rw [live_unbound rfl, hAll]
          simp
      · rw [live_bound rfl]
  | false =>
      rw [runEnd, hBound] at hTo
      have hLe : ptr ≤ b.wr := hTo
      have hAt : b.rd + (ptr - b.rd) * 1 = ptr := by omega
      have hLeft : b.wr - b.rd - (ptr - b.rd) = b.wr - ptr := by omega
      rw [if_neg (by omega), live_unbound hBound, List.drop_range', hAt, hLeft, live_unbound rfl]

/-- The readable run is live. -/
theorem Aligned.sub_rd_le {b : ReusableBuffer size} (h : b.Aligned) {ptr : Nat}
    (hPtr : b.Readable ptr) : ptr - b.rd ≤ b.live.length := by
  obtain ⟨hFrom, hTo⟩ := hPtr
  have hEnd := h.runEnd_le
  cases hBound : b.bound with
  | true =>
      simp only [live_bound hBound, List.length_append, List.length_range']
      omega
  | false =>
      have hLe : b.runEnd = b.wr := by simp [runEnd, hBound]
      simp only [live_unbound hBound, List.length_range']
      omega

theorem Aligned.liveBytes_consume {b : ReusableBuffer size} (h : b.Aligned) {ptr : Nat}
    (hPtr : b.Readable ptr) :
    (b.consume ptr).2.liveBytes = b.liveBytes.drop (b.consume ptr).1 := by
  have hMem : (b.consume ptr).2.mem = b.mem := by
    rw [h.consume_eq hPtr]
    show ReusableBuffer.mem (if ptr = size.N then _ else _) = _
    split <;> rfl
  have hByte : (b.consume ptr).2.byteAt = b.byteAt := by
    funext i
    rw [byteAt, hMem, byteAt]
  rw [liveBytes, h.live_consume hPtr, hByte, List.map_drop, liveBytes]

/-! ### Runs -/

/-- A call, with the bytes that its caller puts into the region it is given. -/
inductive Call
  | reserve (fill : ByteString)
  | produce (bytes : ByteString)
  | consume (ptr : Nat)

/-- The buffer after a call. What a caller stores outside of the array has no meaning, and
neither has a pointer that is not into the array or one past its end. -/
def call (order : Order) (b : ReusableBuffer size) : Call → Option (ReusableBuffer size)
  | .reserve fill =>
      let region := (b.reserve order).1
      if fill.length ≤ region.2 ∧ region.1 + fill.length ≤ size.N then
        some ((b.reserve order).2.store region.1 fill)
      else none
  | .produce bytes =>
      let b' := (b.produce bytes.length).2
      match (b.produce bytes.length).1 with
      | some ptr => some (b'.store ptr bytes)
      | none => some b'
  | .consume ptr => if ptr ≤ size.N then some (b.consume ptr).2 else none

/-- A buffer together with all that was produced and how much of it was consumed. -/
structure History (size : Size) where
  buffer : ReusableBuffer size
  produced : ByteString
  consumed : Nat

namespace History

def begin (size : Size) : History size := { buffer := empty size, produced := [], consumed := 0 }

/-- A call whose pointer, if it consumes, is inside or at the end of the readable run. -/
def step (order : Order) (h : History size) : Call → Option (History size)
  | .reserve fill => (h.buffer.call order (.reserve fill)).map fun b => { h with buffer := b }
  | .produce bytes =>
      (h.buffer.call order (.produce bytes)).map fun b =>
        { h with
          buffer := b
          produced :=
            if (h.buffer.produce bytes.length).1.isSome then h.produced ++ bytes else h.produced }
  | .consume ptr =>
      if h.buffer.Readable ptr then
        (h.buffer.call order (.consume ptr)).map fun b =>
          { h with buffer := b, consumed := h.consumed + (h.buffer.consume ptr).1 }
      else none

/-- The live bytes are those produced and not yet consumed, in order. -/
structure Keeps (h : History size) : Prop where
  aligned : h.buffer.Aligned
  live_bytes : h.buffer.liveBytes = h.produced.drop h.consumed
  consumed_le : h.consumed ≤ h.produced.length

theorem keeps_begin (size : Size) : (begin size).Keeps := by
  constructor
  · exact aligned_empty size
  · simp [begin, liveBytes, live, empty]
  · exact Nat.le_refl _

theorem Keeps.reserve {h : History size} (hKeeps : h.Keeps) (order : Order) {fill : ByteString}
    {b : ReusableBuffer size} (hCall : h.buffer.call order (.reserve fill) = some b) :
    Keeps { h with buffer := b } := by
  obtain ⟨hAligned, hLive, hLe⟩ := hKeeps
  have hSnd := hAligned.reserve_snd order
  obtain ⟨-, hClear⟩ := h.buffer.room_spec (Nat.le_of_lt hAligned.start_le)
  simp only [call, Option.ite_none_right_eq_some, Option.some.injEq] at hCall
  obtain ⟨⟨hFill, -⟩, rfl⟩ := hCall
  rw [hSnd]
  have hSame : (h.buffer.realigned.store (h.buffer.reserve order).1.1 fill).liveBytes =
      h.buffer.realigned.liveBytes := by
    apply liveBytes_store
    intro i hFrom hTo
    rw [hAligned.live_realigned]
    by_cases hNone : h.buffer.live = []
    · simp [hNone]
    · have hRe : h.buffer.realigned = h.buffer := if_neg hNone
      have hStart : h.buffer.start = h.buffer.wr := if_neg hNone
      have hRegion : (h.buffer.reserve order).1 = (h.buffer.start, h.buffer.room) := by
        cases order <;> simp [ReusableBuffer.reserve, hAligned.availMem_eq, hRe, hStart]
      rw [hRegion] at hFrom hTo hFill
      exact hClear i hFrom (by omega)
  refine ⟨?_, ?_, hLe⟩
  · exact hAligned.realigned.store _ _
  · show ReusableBuffer.liveBytes _ = _
    rw [hSame, hAligned.liveBytes_realigned, hLive]

theorem Keeps.step {h t : History size} (hKeeps : h.Keeps) {order : Order} {c : Call}
    (hStep : h.step order c = some t) : t.Keeps := by
  cases c with
  | reserve fill =>
      simp only [History.step, Option.map_eq_some_iff] at hStep
      obtain ⟨b, hCall, rfl⟩ := hStep
      exact hKeeps.reserve order hCall
  | produce bytes =>
      obtain ⟨hAligned, hLive, hLe⟩ := hKeeps
      have hFst := hAligned.produce_fst bytes.length
      have hAfter := hAligned.produce bytes.length
      simp only [History.step, Option.map_eq_some_iff] at hStep
      obtain ⟨b, hCall, rfl⟩ := hStep
      by_cases hRoom : bytes.length ≤ h.buffer.room
      · rw [if_pos hRoom] at hFst
        have hBuffer : b = (h.buffer.produce bytes.length).2.store h.buffer.start bytes := by
          simp only [call, hFst] at hCall
          exact (Option.some.inj hCall).symm
        subst hBuffer
        constructor
        · exact hAfter.store _ _
        · simp only [hFst, Option.isSome_some, if_true]
          rw [hAligned.liveBytes_produce hRoom, hLive, List.drop_append_of_le_length hLe]
        · simp only [hFst, Option.isSome_some, if_true, List.length_append]
          omega
      · rw [if_neg hRoom] at hFst
        have hBuffer : b = h.buffer.realigned := by
          simp only [call, hFst] at hCall
          rw [← hAligned.produce_refused (Nat.lt_of_not_le hRoom)]
          exact (Option.some.inj hCall).symm
        subst hBuffer
        simp only [hFst, Option.isSome_none, Bool.false_eq_true, if_false]
        exact ⟨hAligned.realigned, by rw [hAligned.liveBytes_realigned, hLive], hLe⟩
  | consume ptr =>
      obtain ⟨hAligned, hLive, hLe⟩ := hKeeps
      simp only [History.step, Option.ite_none_right_eq_some, Option.map_eq_some_iff] at hStep
      obtain ⟨hPtr, b, hCall, rfl⟩ := hStep
      simp only [call, Option.ite_none_right_eq_some, Option.some.injEq] at hCall
      obtain ⟨-, rfl⟩ := hCall
      have hBytes := hAligned.liveBytes_consume hPtr
      have hCount : (h.buffer.consume ptr).1 ≤ h.produced.length - h.consumed := by
        have hSub := hAligned.sub_rd_le hPtr
        have hLength := congrArg List.length hLive
        rw [liveBytes, List.length_map, List.length_drop] at hLength
        rw [hAligned.consume_eq hPtr]
        omega
      constructor
      · exact hAligned.consume hPtr
      · show ReusableBuffer.liveBytes _ = List.drop (h.consumed + _) _
        rw [hBytes, hLive, List.drop_drop]
      · show h.consumed + _ ≤ h.produced.length
        omega

/-- What a byte queue of `N` bytes in an array does: what it holds, when it gives a region to
write, and what it takes back. -/
structure Fifo (h : History size) : Prop where
  live_bytes : h.buffer.liveBytes = h.produced.drop h.consumed
  consumed_le : h.consumed ≤ h.produced.length
  held_le : h.produced.length - h.consumed ≤ size.N
  refused_iff : ∀ len, (h.buffer.produce len).1 = none ↔ h.buffer.room < len
  refusal : ∀ len, h.buffer.room < len → (h.buffer.produce len).2 = h.buffer.realigned
  granted : ∀ len ptr, (h.buffer.produce len).1 = some ptr →
    ptr + len ≤ size.N ∧ ∀ i ∈ h.buffer.live, i < ptr ∨ ptr + len ≤ i
  freed : ∀ ptr, h.buffer.Readable ptr →
    (h.buffer.consume ptr).1 ≤ h.buffer.live.length ∧
      (h.buffer.consume ptr).2.live = h.buffer.live.drop (h.buffer.consume ptr).1

theorem Keeps.fifo {h : History size} (hKeeps : h.Keeps) : h.Fifo := by
  obtain ⟨hAligned, hLive, hLe⟩ := hKeeps
  have hRoom := h.buffer.room_spec (Nat.le_of_lt hAligned.start_le)
  constructor
  · exact hLive
  · exact hLe
  · have hLength := congrArg List.length hLive
    rw [liveBytes, List.length_map, List.length_drop] at hLength
    rw [← hLength]
    exact hAligned.length_live_le
  · intro len
    rw [hAligned.produce_fst]
    split <;> simp <;> omega
  · intro len hLen
    exact hAligned.produce_refused hLen
  · intro len ptr hPtr
    rw [hAligned.produce_fst, Option.ite_none_right_eq_some] at hPtr
    obtain ⟨hLen, hStart⟩ := hPtr
    cases hStart
    refine ⟨by omega, ?_⟩
    intro i hi
    by_contra hNot
    exact hRoom.2 i (by omega) (by omega) hi
  · intro ptr hPtr
    refine ⟨?_, hAligned.live_consume hPtr⟩
    rw [hAligned.consume_eq hPtr]
    exact hAligned.sub_rd_le hPtr

/-- The buffer is a byte queue throughout every run of calls. -/
theorem fifo_throughout (size : Size) (order : Order) (calls : List Call) :
    Throughout (step order) Fifo (begin size) calls := by
  have hKeeps : Throughout (step order) Keeps (begin size) calls :=
    throughout_of_step (fun hKeeps hStep => hKeeps.step hStep) (keeps_begin size) calls
  exact hKeeps.mono fun h hKeeps => hKeeps.fifo

/-- An empty buffer that cannot give what it is asked for has its pointers moved. -/
theorem refusal_moves : ¬ ∀ (size : Size) (order : Order) (calls : List Call) (h : History size),
    run (step order) (begin size) calls = some h → ∀ len, (h.buffer.produce len).1 = none →
      (h.buffer.produce len).2 = h.buffer := by
  intro hAll
  have hMoved := congrArg ReusableBuffer.wr (hAll ⟨2, by decide, by decide⟩ .rightToLeft
    [.produce [7], .consume 1] _ rfl 3 (by decide))
  revert hMoved
  decide

end History

/-! ### Pointers to what is free -/

/-- What `consume` is to do with a pointer: one that is not strictly behind `rd` in the readable
run frees nothing, and none frees more than is live. -/
def Frees (b : ReusableBuffer size) (ptr : Nat) : Prop :=
  (¬ (b.rd < ptr ∧ ptr ≤ b.runEnd) → b.consume ptr = (0, b)) ∧
    (b.consume ptr).1 ≤ b.live.length

/-- The pointer is not to a cell between the start of the array and the read pointer. -/
def NotPassed (b : ReusableBuffer size) (ptr : Nat) : Prop := ¬ (0 < ptr ∧ ptr < b.rd)

theorem consume_beyond {b : ReusableBuffer size} {ptr : Nat} (hPassed : b.NotPassed ptr)
    (hPtr : ¬ b.Readable ptr) : b.consume ptr = (0, b) := by
  unfold consume
  rw [if_neg]
  intro hIn
  have hEnd : ptr ≤ b.runEnd := hIn.2
  apply hPassed
  refine ⟨hIn.1, ?_⟩
  by_contra hNot
  exact hPtr ⟨Nat.le_of_not_lt hNot, hEnd⟩

theorem Aligned.frees_iff {b : ReusableBuffer size} (h : b.Aligned) {ptr : Nat}
    (hPtr : ptr ≤ size.N) : b.Frees ptr ↔ b.NotPassed ptr := by
  have hInt := size.isInt
  have hRd := h.rd_lt
  constructor
  · intro hFrees hPassed
    -- the difference is negative, so that as a `size_t` it is more than any array holds
    have hIn : 0 < ptr ∧ ptr ≤ if b.bound then size.N else b.wr := by
      refine ⟨hPassed.1, ?_⟩
      cases hBound : b.bound with
      | true => exact hPtr
      | false =>
          have hLe := h.rd_le hBound
          show ptr ≤ b.wr
          omega
    have hCount : (b.consume ptr).1 = 2 ^ 64 + ptr - b.rd := by
      unfold ReusableBuffer.consume
      rw [if_pos hIn]
      split <;> exact Nat.mod_eq_of_lt (by omega)
    have hLive := h.length_live_le
    have hMany := hFrees.2
    omega
  · intro hNot
    by_cases hReadable : b.Readable ptr
    · have hEq := h.consume_eq hReadable
      refine ⟨?_, ?_⟩
      · intro hNothing
        have hAt : ptr = b.rd := by
          have hFrom := hReadable.1
          have hTo := hReadable.2
          by_contra hNe
          exact hNothing ⟨by omega, hTo⟩
        rw [hEq, if_neg (by omega), hAt, Nat.sub_self]
      · rw [hEq]
        exact h.sub_rd_le hReadable
    · have hEq := consume_beyond hNot hReadable
      exact ⟨fun _ => hEq, by rw [hEq]; exact Nat.zero_le _⟩

theorem Aligned.call {b t : ReusableBuffer size} (h : b.Aligned) {order : Order} {c : Call}
    (hCall : b.call order c = some t) (hCond : ∀ ptr, c = .consume ptr → b.NotPassed ptr) :
    t.Aligned := by
  cases c with
  | reserve fill =>
      simp only [ReusableBuffer.call, Option.ite_none_right_eq_some, Option.some.injEq] at hCall
      obtain ⟨-, rfl⟩ := hCall
      rw [h.reserve_snd]
      exact h.realigned.store _ _
  | produce bytes =>
      have hAfter := h.produce bytes.length
      simp only [ReusableBuffer.call] at hCall
      split at hCall
      · cases hCall
        exact hAfter.store _ _
      · cases hCall
        exact hAfter
  | consume ptr =>
      simp only [ReusableBuffer.call, Option.ite_none_right_eq_some, Option.some.injEq] at hCall
      obtain ⟨-, rfl⟩ := hCall
      by_cases hReadable : b.Readable ptr
      · exact h.consume hReadable
      · rw [consume_beyond (hCond ptr rfl) hReadable]
        exact h

/-- In every run of calls, all `consume` calls free what they are to free if and only if none
is given a pointer that has been passed. -/
theorem consume_frees_iff (size : Size) (order : Order) (calls : List Call) :
    Heeds (call order) (fun b c => ∀ ptr ≤ size.N, c = .consume ptr → b.Frees ptr) (empty size)
        calls ↔
      Heeds (call order) (fun b c => ∀ ptr ≤ size.N, c = .consume ptr → b.NotPassed ptr)
        (empty size) calls := by
  refine heeds_iff_heeds ?_ ?_ (aligned_empty size) calls
  · intro b c h
    constructor
    · intro hLaw ptr hPtr hc
      exact (h.frees_iff hPtr).mp (hLaw ptr hPtr hc)
    · intro hCond ptr hPtr hc
      exact (h.frees_iff hPtr).mpr (hCond ptr hPtr hc)
  · intro b c t h hCall hCond
    apply h.call hCall
    intro ptr hc
    subst hc
    have hPtr : ptr ≤ size.N := by
      simp only [call, Option.ite_none_right_eq_some] at hCall
      exact hCall.1
    exact hCond ptr hPtr rfl

/-- A pointer to what has been freed moves the read pointer back. -/
theorem freed_twice : ¬ ∀ (size : Size) (order : Order) (calls : List Call)
    (b : ReusableBuffer size), run (call order) (empty size) calls = some b →
      ∀ ptr ≤ size.N, b.Frees ptr := by
  intro hAll
  have hFrees := hAll ⟨4, by decide, by decide⟩ .rightToLeft [.produce [1, 2, 3], .consume 2] _ rfl
    1 (by decide)
  have hSame := congrArg Prod.fst (hFrees.1 (by decide))
  revert hSame
  decide

end ReusableBuffer

end Doormat.Utils
