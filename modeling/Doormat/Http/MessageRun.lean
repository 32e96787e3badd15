import Doormat.Http.LineEffect
import Doormat.Http.TrailerSection

/-! From the end of the headers to the end of the message: the parser reads a body as it was
written, whether in chunks or after its length. -/
namespace Doormat.Http

open Bytes Doormat.Parser

variable {p : Fields} {n : Nat} {ch : UInt8}

/-! ### The end of the headers -/

/-- The parser at the call of `on_headers_complete`. -/
def announced (p : Fields) : Fields :=
  { p with
    state := .headersDone
    upgrade := (p.flags.upgrade && p.flags.connectionUpgrade) || p.method = .CONNECT }

/-- The header section of a message whose end the parser knows: it comes in chunks, or
states the length `length`. -/
structure Bounded (p : Fields) (chunked : Bool) (length : Nat) : Prop where
  method : p.method ≠ .CONNECT
  trailing : p.flags.trailing = false
  skipbody : p.flags.skipbody = false
  coding : p.flags.chunked = chunked
  undeclared : chunked = true → p.flags.contentlength = false
  length : chunked = false → p.contentLength = length

theorem read_headersLF_chunked {length : Nat} (h : Bounded p true length) (hRoom : n + 1 ≤ httpMaxHeaderSize) :
    (Locals.mk (p.updateState .headersAlmostDone) n none .outer).read LF =
      some (atSize (announced p) p.contentLength, [.headersComplete (announced p)]) := by
  have hCount : ¬ n + 1 > httpMaxHeaderSize := by omega
  have hMethod := h.method
  have hTrailing := h.trailing
  have hSkip := h.skipbody
  have hChunked := h.coding
  have hUndeclared := h.undeclared rfl
  simp [Locals.read, step, Fields.updateState, State.parsingHeader, Prog.emit, hCount, dispatch,
    headersAlmostDone, headersDone, Fields.strictCheck, hTrailing, hUndeclared, hMethod, hSkip, hChunked,
    Fields.advance, Flow.locals, announced, inChunk]

/-- A length besides the coding is refused. -/
theorem read_headersLF_both (hTrailing : p.flags.trailing = false) (hChunked : p.flags.chunked = true)
    (hDeclared : p.flags.contentlength = true) :
    (Locals.mk (p.updateState .headersAlmostDone) n none .outer).read LF = none := by
  by_cases hCount : n + 1 > httpMaxHeaderSize
  · simp [Locals.read, step, Fields.updateState, State.parsingHeader, Prog.emit, hCount]
  · simp [Locals.read, step, Fields.updateState, State.parsingHeader, Prog.emit, hCount, dispatch,
      headersAlmostDone, Fields.strictCheck, hTrailing, hChunked, hDeclared, Fields.fail]

/-- A `CONNECT` is complete with its headers. -/
theorem read_headersLF_connect (hMethod : p.method = .CONNECT) (hTrailing : p.flags.trailing = false)
    (hUndeclared : p.flags.contentlength = false) (hRoom : n + 1 ≤ httpMaxHeaderSize) :
    (Locals.mk (p.updateState .headersAlmostDone) n none .outer).read LF =
      some (enter fresh, [.headersComplete (announced p), .messageComplete]) := by
  have hCount : ¬ n + 1 > httpMaxHeaderSize := by omega
  simp [Locals.read, step, Fields.updateState, State.parsingHeader, Prog.emit, hCount, dispatch,
    headersAlmostDone, headersDone, Fields.strictCheck, hTrailing, hMethod, hUndeclared, Flow.locals, announced,
    enter, startMark, HttpParser.init]

theorem read_headersLF_empty (h : Bounded p false 0) (hRoom : n + 1 ≤ httpMaxHeaderSize) :
    (Locals.mk (p.updateState .headersAlmostDone) n none .outer).read LF =
      some (enter fresh, [.headersComplete (announced p), .messageComplete]) := by
  have hCount : ¬ n + 1 > httpMaxHeaderSize := by omega
  have hTrailing := h.trailing
  have hSkip := h.skipbody
  have hChunked := h.coding
  have hLength := h.length rfl
  -- with or without an upgrade the message is complete, and the parser fresh
  cases hUpgrade : p.flags.upgrade && p.flags.connectionUpgrade with
  | false =>
      simp [Locals.read, step, Fields.updateState, State.parsingHeader, Prog.emit, hCount, dispatch,
        headersAlmostDone, headersDone, Fields.strictCheck, hTrailing, h.method, hSkip, hChunked, hLength,
        hUpgrade, Fields.advance, Flow.locals, announced, enter, startMark, HttpParser.init]
  | true =>
      simp [Locals.read, step, Fields.updateState, State.parsingHeader, Prog.emit, hCount, dispatch,
        headersAlmostDone, headersDone, Fields.strictCheck, hTrailing, h.method, hSkip, hChunked, hLength,
        hUpgrade, Flow.locals, announced, enter, startMark, HttpParser.init]

theorem read_headersLF_length {length : Nat} (h : Bounded p false length) (hPos : 0 < length)
    (hBound : length < ullongMax) (hRoom : n + 1 ≤ httpMaxHeaderSize) :
    (Locals.mk (p.updateState .headersAlmostDone) n none .outer).read LF =
      some (⟨(announced p).updateState .bodyIdentity, 0, none, .outer⟩, [.headersComplete (announced p)]) := by
  have hCount : ¬ n + 1 > httpMaxHeaderSize := by omega
  have hTrailing := h.trailing
  have hSkip := h.skipbody
  have hChunked := h.coding
  have hLength := h.length rfl
  have hZero : length ≠ 0 := by omega
  have hMax : length ≠ ullongMax := by omega
  simp [Locals.read, step, Fields.updateState, State.parsingHeader, Prog.emit, hCount, dispatch,
    headersAlmostDone, headersDone, Fields.strictCheck, hTrailing, h.method, hSkip, hChunked, hLength, hZero,
    hMax, hPos, Fields.advance, Flow.locals, announced]

/-- Behind the announcement the message goes on, or is complete. -/
theorem headersDone_emit (p : Fields) (n : Nat) :
    ∃ flow rest q m, (headersDone p LF).emit LF n none = some (flow, rest) ∧
      flow.locals = ⟨q, m, none, .outer⟩ ∧ (rest = [] ∨ rest = [.messageComplete]) := by
  unfold headersDone
  dsimp only
  rw [Fields.strictCheck, if_neg (by simp), Prog.emit]
  repeat' split
  -- a message that is complete leaves a new parser, one that goes on does not start at a mark
  all_goals first
    | exact ⟨_, _, _, _, rfl, rfl, .inl rfl⟩
    | exact ⟨_, _, _, _, rfl, rfl, .inr rfl⟩

/-- The headers of any message that is not refused are announced. -/
theorem read_headersLF (hTrailing : p.flags.trailing = false)
    (hOne : ¬ (p.flags.chunked = true ∧ p.flags.contentlength = true)) (hRoom : n + 1 ≤ httpMaxHeaderSize) :
    ∃ q m rest, (Locals.mk (p.updateState .headersAlmostDone) n none .outer).read LF =
        some (⟨q, m, none, .outer⟩, .headersComplete (announced p) :: rest) ∧
      (rest = [] ∨ rest = [.messageComplete]) := by
  have hCount : ¬ n + 1 > httpMaxHeaderSize := by omega
  have hOne' : (p.flags.chunked && p.flags.contentlength) = false := by simpa using hOne
  obtain ⟨flow, rest, q, m, hEmit, hLocals, hRest⟩ := headersDone_emit (announced p) (n + 1)
  refine ⟨q, m, rest, ?_, hRest⟩
  have hStep : (step (p.updateState .headersAlmostDone) .outer LF).emit LF n none =
      some (flow, .headersComplete (announced p) :: rest) := by
    simp [step, Fields.updateState, State.parsingHeader, Prog.emit, hCount, dispatch, headersAlmostDone,
      Fields.strictCheck, hTrailing, hOne']
    exact Emission.prepend_eq_some.mpr ⟨rest, hEmit, rfl⟩
  rw [Locals.read, hStep, Option.map_some, hLocals]

/-! ### A body after its length -/

/-- The parser within a body, with `data` left to read. -/
def inIdentity (p : Fields) (data : ByteString) (n : Nat) (marked : Option (Mark × ByteString)) : Locals :=
  ⟨{ p with state := .bodyIdentity, contentLength := data.length }, n, marked, .outer⟩

theorem reads_identity {data : ByteString} (hData : data ≠ []) (hLength : data.length < ullongMax)
    (held : ByteString) (marked : Option (Mark × ByteString)) (hMarked : marked.getD (.body, []) = (.body, held)) :
    (inIdentity p data n marked).reads data = some (enter fresh, [.data 0 .body (held ++ data), .messageComplete]) := by
  induction data generalizing held marked with
  | nil => exact absurd rfl hData
  | cons ch rest ih =>
      rw [List.length_cons] at hLength
      have hNe : ¬ rest.length + 1 = ullongMax := by omega
      cases rest with
      | nil =>
          have hRead : (inIdentity p [ch] n marked).read ch =
              some (enter fresh, [.data 0 .body (held ++ [ch]), .messageComplete]) := by
            simp [Locals.read, inIdentity, step, State.parsingHeader, Prog.emit, dispatch, bodyIdentity, assert,
              hMarked, ullongMax, Fields.updateState, messageDone, Fields.advance, Flow.locals, enter, startMark,
              HttpParser.init, Mark.code]
          exact Locals.reads_cons hRead (Locals.reads_nil _)
      | cons next rest =>
          rw [List.length_cons] at hNe
          have hRead : (inIdentity p (ch :: next :: rest) n marked).read ch =
              some (inIdentity p (next :: rest) n (some (.body, held ++ [ch])), []) := by
            simp [Locals.read, inIdentity, step, State.parsingHeader, Prog.emit, dispatch, bodyIdentity, assert,
              hMarked, hNe, Fields.advance, Flow.locals]
          have hRest := ih (List.cons_ne_nil _ _) (by omega) (held ++ [ch]) (some (.body, held ++ [ch])) rfl
          rw [snoc_cons] at hRest
          exact Locals.reads_cons hRead hRest

/-! ### The rest of a message -/

/-- A body as it is written, to its end. -/
def bodyBytes (chunked : Bool) (strings : List ByteString) : ByteString :=
  if chunked then (strings.map Encoder.chunkPiece).flatten ++ (Encoder.lastChunk ++ [CR, LF])
  else strings.flatten

/-- What the parser calls for a body, to its end. -/
def restCallbacks (chunked : Bool) (p : Fields) (strings : List ByteString) : List Callback :=
  if chunked then
    bodyCallbacks p strings ++ [.notify (trailerFields p) .chunkHeader,
      .notify ((trailerFields p).updateState .messageDone) .chunkComplete, .messageComplete]
  else (if strings.flatten = [] then [] else [.data 0 .body strings.flatten]) ++ [.messageComplete]

/-- The empty line after the headers, and the body. -/
theorem reads_rest {chunked : Bool} {strings : List ByteString} (hState : p.state = .headerFieldStart)
    (h : Bounded p chunked strings.flatten.length) (hStrings : ∀ s ∈ strings, s.length < 2 ^ 63)
    (hLength : chunked = false → strings.flatten.length < 2 ^ 63) (hRoom : n + 2 ≤ httpMaxHeaderSize) :
    (Locals.mk p n none .outer).reads (CR :: LF :: bodyBytes chunked strings) =
      some (enter fresh, .headersComplete (announced p) :: restCallbacks chunked (announced p) strings) := by
  have hCR := read_endCR hState (n := n) (by omega)
  cases chunked with
  | true =>
      have hChunked : (announced p).flags.chunked = true := h.coding
      have hLF := read_headersLF_chunked h (n := n + 1) (by omega)
      obtain ⟨length, hBody⟩ := reads_chunkPieces hChunked p.contentLength hStrings
      have hLast := reads_lastChunk hChunked length
      have hEnd := reads_end (q := trailerFields (announced p)) (n := 0) rfl rfl (by decide)
      have hAll := Locals.reads_cons hCR (Locals.reads_cons hLF
        (Locals.reads_trans hBody (Locals.reads_trans hLast hEnd)))
      simpa [bodyBytes, restCallbacks, Encoder.lastChunk] using hAll
  | false =>
      by_cases hNil : strings.flatten = []
      · rw [hNil] at h
        have hLF := read_headersLF_empty h (n := n + 1) (by omega)
        have hAll := Locals.reads_cons hCR (Locals.reads_cons hLF (Locals.reads_nil _))
        simpa [bodyBytes, restCallbacks, hNil] using hAll
      · have hBound : strings.flatten.length < ullongMax := by
          have hLess := hLength rfl
          rw [ullongMax]
          omega
        have hLF := read_headersLF_length h (n := n + 1) (List.length_pos_of_ne_nil hNil) hBound (by omega)
        have hSame : Locals.mk ((announced p).updateState .bodyIdentity) 0 none .outer =
            inIdentity (announced p) strings.flatten 0 none := by
          rw [inIdentity, ← h.length rfl]
          rfl
        rw [hSame] at hLF
        have hBody := reads_identity (p := announced p) (n := 0) hNil hBound [] none rfl
        have hAll := Locals.reads_cons hCR (Locals.reads_cons hLF hBody)
        simpa [bodyBytes, restCallbacks, hNil] using hAll

end Doormat.Http
