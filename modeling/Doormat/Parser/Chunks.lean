import Doormat.Parser.Restart

/-! The chunk states: what the parser calls for a chunk whose size is written in
hexadecimal, for the last chunk, and for the end of the trailers. -/
namespace Doormat.Parser

open Bytes

variable {p : Fields} {ch : UInt8} {n : Nat}

/-- One run after another. -/
theorem Locals.reads_trans {l l' l'' : Locals} {front rest : ByteString} {cs cs' : List Callback}
    (hFront : l.reads front = some (l', cs)) (hRest : l'.reads rest = some (l'', cs')) :
    l.reads (front ++ rest) = some (l'', cs ++ cs') :=
  Transducer.reads_append_eq_some.mpr ⟨l', cs, cs', hFront, hRest, rfl⟩

theorem Locals.reads_cons {l l' l'' : Locals} {rest : ByteString} {cs cs' : List Callback}
    (hRead : l.read ch = some (l', cs)) (hRest : l'.reads rest = some (l'', cs')) :
    l.reads (ch :: rest) = some (l'', cs ++ cs') :=
  Transducer.reads_cons_eq_some.mpr ⟨l', cs, cs', hRead, hRest, rfl⟩

theorem Locals.reads_nil (l : Locals) : l.reads [] = some (l, []) := rfl

/-! ### Sizes in hexadecimal -/

/-- A number as `std::hex` writes it. -/
def hexNumeral (n : Nat) : ByteString := (Nat.toDigits 16 n).map Char.toUInt8

/-- The size at hand after a further digit. -/
def nextSize (size : Nat) (digit : UInt8) : Nat := size * 16 + (unhex digit).getD 0

/-- The size that hexadecimal digits write after those of `size`. -/
def sizeFrom (size : Nat) (digits : ByteString) : Nat := digits.foldl nextSize size

@[simp] theorem sizeFrom_nil (size : Nat) : sizeFrom size [] = size := rfl

@[simp] theorem sizeFrom_cons (size : Nat) (digit : UInt8) (digits : ByteString) :
    sizeFrom size (digit :: digits) = sizeFrom (nextSize size digit) digits := rfl

@[simp] theorem sizeFrom_concat (size : Nat) (digits : ByteString) (digit : UInt8) :
    sizeFrom size (digits ++ [digit]) = nextSize (sizeFrom size digits) digit := by
  simp [sizeFrom]

/-- Further digits never write a smaller size. -/
theorem le_sizeFrom (size : Nat) (digits : ByteString) : size ≤ sizeFrom size digits := by
  induction digits generalizing size with
  | nil => exact Nat.le_refl size
  | cons digit rest ih =>
      have hNext : size ≤ nextSize size digit := by
        rw [nextSize]
        omega
      exact Nat.le_trans hNext (ih (nextSize size digit))

theorem unhex_digitChar (h : n < 16) : unhex n.digitChar.toUInt8 = some n := by
  have hAll : ∀ d : Fin 16, unhex d.val.digitChar.toUInt8 = some d.val := by decide
  exact hAll ⟨n, h⟩

theorem hexNumeral_of_lt (h : n < 16) : hexNumeral n = [n.digitChar.toUInt8] := by
  simp [hexNumeral, Nat.toDigits_of_lt_base h]

theorem hexNumeral_of_le (h : 16 ≤ n) :
    hexNumeral n = hexNumeral (n / 16) ++ [(n % 16).digitChar.toUInt8] := by
  simp [hexNumeral, Nat.toDigits_of_base_le (by decide : 1 < 16) h]

theorem hexNumeral_ne_nil (n : Nat) : hexNumeral n ≠ [] := by
  simp [hexNumeral, Nat.toDigits_ne_nil]

theorem length_hexNumeral {k : Nat} (hn : n < 16 ^ k) (hk : 0 < k) : (hexNumeral n).length ≤ k := by
  rw [hexNumeral, List.length_map]
  exact (Nat.length_toDigits_le_iff (by decide) hk).mpr hn

/-- A size is read back from its digits. -/
theorem hexNumeral_digits (n : Nat) :
    (∀ c ∈ hexNumeral n, (unhex c).isSome = true) ∧ sizeFrom 0 (hexNumeral n) = n := by
  induction n using Nat.strongRecOn with
  | ind n ih =>
      by_cases hLt : n < 16
      · have hDigit := unhex_digitChar hLt
        rw [hexNumeral_of_lt hLt]
        constructor
        · intro c hc
          rw [List.mem_singleton.mp hc, hDigit]
          rfl
        · simp [nextSize, hDigit]
      · have hMod := unhex_digitChar (Nat.mod_lt n (by decide : 0 < 16))
        have hDiv := ih (n / 16) (by omega)
        rw [hexNumeral_of_le (by omega)]
        constructor
        · intro c hc
          cases List.mem_append.mp hc with
          | inl hFront => exact hDiv.1 c hFront
          | inr hLast =>
              rw [List.mem_singleton.mp hLast, hMod]
              rfl
        · rw [sizeFrom_concat, hDiv.2, nextSize, hMod, Option.getD_some]
          omega

/-! ### A chunk -/

/-- The locals between two bytes in a chunk state. -/
def inChunk (p : Fields) (s : State) (length n : Nat) (marked : Option (Mark × ByteString)) : Locals :=
  ⟨{ p with state := s, contentLength := length }, n, marked, .outer⟩

/-- The locals at the size of a chunk. -/
abbrev atSize (p : Fields) (length : Nat) : Locals := inChunk p .chunkSizeStart length 0 none

theorem read_sizeStart (hChunked : p.flags.chunked = true) (length : Nat) {v : Nat}
    (hDigit : unhex ch = some v) :
    (atSize p length).read ch = some (inChunk p .chunkSize v 1 none, []) := by
  simp [Locals.read, atSize, inChunk, step, State.parsingHeader, Prog.emit, httpMaxHeaderSize, dispatch,
    chunkSizeStart, assert, hChunked, hDigit, Fields.advance, Flow.locals]

theorem ne_CR_of_unhex (h : (unhex ch).isSome = true) : ch ≠ CR := by
  intro hCR
  rw [hCR] at h
  exact absurd h (by decide)

theorem read_size (hChunked : p.flags.chunked = true) {length : Nat}
    (hDigit : (unhex ch).isSome = true) (hRoom : n < httpMaxHeaderSize)
    (hSize : nextSize length ch < 2 ^ 63) :
    (inChunk p .chunkSize length n none).read ch =
      some (inChunk p .chunkSize (nextSize length ch) (n + 1) none, []) := by
  obtain ⟨v, hv⟩ := Option.isSome_iff_exists.mp hDigit
  have hCR := ne_CR_of_unhex hDigit
  have hCount : ¬ n + 1 > httpMaxHeaderSize := by omega
  have hFits : ¬ (ullongMax - 16) / 16 < length := by
    rw [nextSize] at hSize
    rw [ullongMax]
    omega
  simp [Locals.read, inChunk, step, State.parsingHeader, Prog.emit, hCount, dispatch, chunkSize, assert,
    hChunked, hCR, hv, hFits, nextSize, Fields.advance, Flow.locals]

/-- The digits of a size, but for the first. -/
theorem reads_size (hChunked : p.flags.chunked = true) (length : Nat) {digits : ByteString}
    (hDigits : ∀ c ∈ digits, (unhex c).isSome = true)
    (hRoom : n + digits.length ≤ httpMaxHeaderSize) (hSize : sizeFrom length digits < 2 ^ 63) :
    (inChunk p .chunkSize length n none).reads digits =
      some (inChunk p .chunkSize (sizeFrom length digits) (n + digits.length) none, []) := by
  induction digits generalizing length n with
  | nil => exact Locals.reads_nil _
  | cons digit rest ih =>
      rw [List.length_cons] at hRoom
      have hNext : nextSize length digit < 2 ^ 63 :=
        Nat.lt_of_le_of_lt (le_sizeFrom (nextSize length digit) rest) hSize
      have hRead := read_size (n := n) hChunked (hDigits digit List.mem_cons_self) (by omega) hNext
      have hRest := ih (n := n + 1) (nextSize length digit)
        (fun c hc => hDigits c (List.mem_cons_of_mem digit hc)) (by omega) hSize
      have hLength : n + 1 + rest.length = n + (digit :: rest).length := by
        rw [List.length_cons]
        omega
      rw [hLength] at hRest
      exact Locals.reads_cons hRead hRest

/-- The digits of a size. -/
theorem reads_hexNumeral (hChunked : p.flags.chunked = true) (length : Nat) (hn : n < 2 ^ 63) :
    (atSize p length).reads (hexNumeral n) =
      some (inChunk p .chunkSize n (hexNumeral n).length none, []) := by
  obtain ⟨hDigits, hSize⟩ := hexNumeral_digits n
  have hLength : (hexNumeral n).length ≤ 16 := length_hexNumeral (by omega) (by decide)
  cases hNumeral : hexNumeral n with
  | nil => exact absurd hNumeral (hexNumeral_ne_nil n)
  | cons digit rest =>
      rw [hNumeral] at hDigits hSize hLength
      obtain ⟨v, hv⟩ := Option.isSome_iff_exists.mp (hDigits digit List.mem_cons_self)
      have hFirst : nextSize 0 digit = v := by simp [nextSize, hv]
      rw [sizeFrom_cons, hFirst] at hSize
      rw [List.length_cons] at hLength
      have hRest := reads_size (p := p) (n := 1) hChunked v
        (fun c hc => hDigits c (List.mem_cons_of_mem digit hc))
        (by rw [httpMaxHeaderSize]; omega) (by rw [hSize]; exact hn)
      rw [hSize, Nat.add_comm] at hRest
      exact Locals.reads_cons (read_sizeStart hChunked length hv) hRest

/-- The line end after a size other than zero. -/
theorem reads_sizeEnd (hChunked : p.flags.chunked = true) (length : Nat) (hLength : length ≠ 0)
    (hRoom : n + 2 ≤ httpMaxHeaderSize) :
    (inChunk p .chunkSize length n none).reads [CR, LF] =
      some (inChunk p .chunkData length 0 none,
        [.notify { p with state := .chunkData, contentLength := length } .chunkHeader]) := by
  have hCR : ¬ n + 1 > httpMaxHeaderSize := by omega
  have hLF : ¬ n + 1 + 1 > httpMaxHeaderSize := by omega
  have hReadCR : (inChunk p .chunkSize length n none).read CR =
      some (inChunk p .chunkSizeAlmostDone length (n + 1) none, []) := by
    simp [Locals.read, inChunk, step, State.parsingHeader, Prog.emit, hCR, dispatch, chunkSize, assert,
      hChunked, Fields.updateState, Fields.advance, Flow.locals]
  have hReadLF : (inChunk p .chunkSizeAlmostDone length (n + 1) none).read LF =
      some (inChunk p .chunkData length 0 none,
        [.notify { p with state := .chunkData, contentLength := length } .chunkHeader]) := by
    simp [Locals.read, inChunk, step, State.parsingHeader, Prog.emit, hLF, dispatch, chunkSizeAlmostDone,
      assert, hChunked, hLength, Fields.strictCheck, Fields.updateState, Fields.advance, Flow.locals]
  exact Locals.reads_cons hReadCR (Locals.reads_cons hReadLF (Locals.reads_nil _))

/-- The locals in a chunk with `data` left to read. -/
def inData (p : Fields) (data : ByteString) (marked : Option (Mark × ByteString)) : Locals :=
  inChunk p (if data = [] then .chunkDataAlmostDone else .chunkData) data.length 0 marked

theorem read_data (hChunked : p.flags.chunked = true) (rest : ByteString)
    (hLength : rest.length + 1 < ullongMax) (held : ByteString) (marked : Option (Mark × ByteString))
    (hMarked : marked.getD (.body, []) = (.body, held)) :
    (inData p (ch :: rest) marked).read ch = some (inData p rest (some (.body, held ++ [ch])), []) := by
  have hNe : ¬ rest.length + 1 = ullongMax := by omega
  cases rest with
  | nil =>
      simp [Locals.read, inData, inChunk, step, State.parsingHeader, Prog.emit, dispatch, chunkData, assert,
        hChunked, hMarked, ullongMax, Fields.updateState, Fields.advance, Flow.locals]
  | cons next rest =>
      rw [List.length_cons] at hNe
      simp [Locals.read, inData, inChunk, step, State.parsingHeader, Prog.emit, dispatch, chunkData, assert,
        hChunked, hMarked, hNe, Fields.advance, Flow.locals]

/-- The bytes of a chunk wait behind the mark. -/
theorem reads_data (hChunked : p.flags.chunked = true) (data : ByteString)
    (hLength : data.length < ullongMax) (held : ByteString) :
    (inData p data (some (.body, held))).reads data =
      some (inData p [] (some (.body, held ++ data)), []) := by
  induction data generalizing held with
  | nil =>
      rw [List.append_nil]
      exact Locals.reads_nil _
  | cons ch rest ih =>
      rw [List.length_cons] at hLength
      have hRead : (inData p (ch :: rest) (some (.body, held))).read ch =
          some (inData p rest (some (.body, held ++ [ch])), []) :=
        read_data hChunked rest hLength held _ rfl
      have hRest := ih (by omega) (held ++ [ch])
      rw [List.append_assoc, List.singleton_append] at hRest
      exact Locals.reads_cons hRead hRest

/-- The line end after the bytes of a chunk. -/
theorem reads_dataEnd (hChunked : p.flags.chunked = true) (data : ByteString) :
    (inData p [] (some (.body, data))).reads [CR, LF] =
      some (atSize p 0,
        [.data 0 .body data, .notify { p with state := .chunkSizeStart, contentLength := 0 } .chunkComplete]) := by
  have hReadCR : (inData p [] (some (.body, data))).read CR =
      some (inChunk p .chunkDataDone 0 0 none, [.data 0 .body data]) := by
    simp [Locals.read, inData, inChunk, step, State.parsingHeader, Prog.emit, dispatch, chunkDataAlmostDone,
      assert, hChunked, Fields.strictCheck, Fields.updateState, Fields.advance, Flow.locals, Mark.code]
  have hReadLF : (inChunk p .chunkDataDone 0 0 none).read LF =
      some (atSize p 0, [.notify { p with state := .chunkSizeStart, contentLength := 0 } .chunkComplete]) := by
    simp [Locals.read, inChunk, step, State.parsingHeader, Prog.emit, dispatch, chunkDataDone, assert,
      hChunked, Fields.strictCheck, Fields.updateState, Fields.advance, Flow.locals]
  exact Locals.reads_cons hReadCR (Locals.reads_cons hReadLF (Locals.reads_nil _))

/-- What the parser calls for a chunk. -/
def chunkCallbacks (p : Fields) (data : ByteString) : List Callback :=
  [.notify { p with state := .chunkData, contentLength := data.length } .chunkHeader,
    .data 0 .body data,
    .notify { p with state := .chunkSizeStart, contentLength := 0 } .chunkComplete]

/-- A chunk as it is written: its size, its bytes, and a line end after each. -/
def chunkBytes (data : ByteString) : ByteString :=
  hexNumeral data.length ++ [CR, LF] ++ data ++ [CR, LF]

theorem reads_chunk (hChunked : p.flags.chunked = true) (length : Nat) {data : ByteString}
    (hData : data ≠ []) (hLength : data.length < 2 ^ 63) :
    (atSize p length).reads (chunkBytes data) = some (atSize p 0, chunkCallbacks p data) := by
  cases data with
  | nil => exact absurd rfl hData
  | cons ch rest =>
      have hDigits : (hexNumeral (ch :: rest).length).length ≤ 16 := length_hexNumeral (by omega) (by decide)
      have hSize := reads_hexNumeral hChunked length hLength
      have hSizeEnd := reads_sizeEnd (n := (hexNumeral (ch :: rest).length).length) hChunked
        (ch :: rest).length (Nat.succ_ne_zero rest.length) (by rw [httpMaxHeaderSize]; omega)
      rw [List.length_cons] at hLength
      have hFirst : (inData p (ch :: rest) none).read ch = some (inData p rest (some (.body, [ch])), []) :=
        read_data hChunked rest (by rw [ullongMax]; omega) [] none rfl
      have hRest := reads_data (p := p) hChunked rest (by rw [ullongMax]; omega) [ch]
      have hAll := Locals.reads_trans (Locals.reads_trans (Locals.reads_trans hSize hSizeEnd)
        (Locals.reads_cons hFirst hRest)) (reads_dataEnd hChunked (ch :: rest))
      exact hAll

/-! ### The last chunk, and the end -/

/-- The parser at the trailers. -/
def trailerFields (p : Fields) : Fields :=
  { p with flags := { p.flags with trailing := true }, state := .headerFieldStart, contentLength := 0 }

/-- The line of the last chunk. -/
theorem reads_lastChunk (hChunked : p.flags.chunked = true) (length : Nat) :
    (atSize p length).reads ['0'.toUInt8, CR, LF] =
      some (⟨trailerFields p, 0, none, .outer⟩, [.notify (trailerFields p) .chunkHeader]) := by
  have hFirst : (atSize p length).read '0'.toUInt8 = some (inChunk p .chunkSize 0 1 none, []) :=
    read_sizeStart hChunked length (by decide)
  have hReadCR : (inChunk p .chunkSize 0 1 none).read CR =
      some (inChunk p .chunkSizeAlmostDone 0 2 none, []) := by
    simp [Locals.read, inChunk, step, State.parsingHeader, Prog.emit, httpMaxHeaderSize, dispatch,
      chunkSize, assert, hChunked, Fields.updateState, Fields.advance, Flow.locals]
  have hReadLF : (inChunk p .chunkSizeAlmostDone 0 2 none).read LF =
      some (⟨trailerFields p, 0, none, .outer⟩, [.notify (trailerFields p) .chunkHeader]) := by
    simp [Locals.read, inChunk, step, State.parsingHeader, Prog.emit, httpMaxHeaderSize, dispatch,
      chunkSizeAlmostDone, assert, hChunked, Fields.strictCheck, Fields.advance, Flow.locals, trailerFields]
  exact Locals.reads_cons hFirst (Locals.reads_cons hReadCR (Locals.reads_cons hReadLF (Locals.reads_nil _)))

/-- The empty line after the trailers, in two halves: nothing is complete before its
last byte. -/
theorem read_endCR {q : Fields} (hState : q.state = .headerFieldStart) (hRoom : n < httpMaxHeaderSize) :
    (Locals.mk q n none .outer).read CR =
      some (⟨q.updateState .headersAlmostDone, n + 1, none, .outer⟩, []) := by
  have hCount : ¬ n + 1 > httpMaxHeaderSize := by omega
  simp [Locals.read, step, hState, State.parsingHeader, Prog.emit, hCount, dispatch, headerFieldStart,
    Fields.advance, Flow.locals]

theorem read_endLF {q : Fields} (hTrailing : q.flags.trailing = true) (hRoom : n < httpMaxHeaderSize) :
    (Locals.mk (q.updateState .headersAlmostDone) n none .outer).read LF =
      some (enter fresh, [.notify (q.updateState .messageDone) .chunkComplete, .messageComplete]) := by
  have hCount : ¬ n + 1 > httpMaxHeaderSize := by omega
  simp [Locals.read, step, Fields.updateState, State.parsingHeader, Prog.emit, hCount, dispatch,
    headersAlmostDone, Fields.strictCheck, hTrailing, messageDone, Fields.advance, Flow.locals, enter,
    startMark, HttpParser.init]

theorem reads_end {q : Fields} (hState : q.state = .headerFieldStart)
    (hTrailing : q.flags.trailing = true) (hRoom : n + 2 ≤ httpMaxHeaderSize) :
    (Locals.mk q n none .outer).reads [CR, LF] =
      some (enter fresh, [.notify (q.updateState .messageDone) .chunkComplete, .messageComplete]) :=
  Locals.reads_cons (read_endCR hState (by omega))
    (Locals.reads_cons (read_endLF hTrailing (by omega)) (Locals.reads_nil _))

end Doormat.Parser
