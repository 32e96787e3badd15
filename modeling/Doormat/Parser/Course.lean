import Doormat.Parser.Budget

/-! Following a stream whose bytes are known: what holds of the parser and of the callbacks
so far, in terms of the bytes that are still to come, is shown byte by byte and for the ends
of buffers, and then holds however the stream is cut. -/
namespace Doormat.Parser

open Bytes

/-- What the parser has come to with `rest` to come, after it has called `said`. -/
structure Course (At : ByteString → Locals → List Callback → Prop) : Prop where
  read : ∀ {ch rest l l' said cs}, l.Regular → At (ch :: rest) l said → l.read ch = some (l', cs) →
    At rest l' (said ++ cs)
  close : ∀ {rest l p said cs}, l.Regular → At rest l said → l.close = some (p, cs) →
    At rest (enter p) (said ++ cs)

variable {At : ByteString → Locals → List Callback → Prop}

theorem Course.reads (h : Course At) {bytes rest : ByteString} {l l' : Locals} {said cs : List Callback}
    (hl : l.Regular) (hAt : At (bytes ++ rest) l said) (hReads : l.reads bytes = some (l', cs)) :
    At rest l' (said ++ cs) := by
  induction bytes generalizing l said cs with
  | nil =>
      cases hReads
      rw [List.append_nil]
      exact hAt
  | cons ch bytes ih =>
      obtain ⟨lt, out₁, out₂, hRead, hRest, rfl⟩ := Transducer.reads_cons_eq_some.mp hReads
      have hNext := ih (read_regular hl hRead) (h.read hl hAt hRead) hRest
      rw [List.append_assoc] at hNext
      exact hNext

/-- The rule for a stream in pieces. -/
theorem Course.emitAll (h : Course At) {pieces : List ByteString} {p p' : HttpParser}
    {rest : ByteString} {said cs : List Callback} (hp : (enter p).Regular)
    (hAt : At (pieces.flatten ++ rest) (enter p) said) (hEmit : emitAll p pieces = some (p', cs)) :
    At rest (enter p') (said ++ cs) := by
  induction pieces generalizing p said cs with
  | nil =>
      cases hEmit
      rw [List.append_nil]
      exact hAt
  | cons piece pieces ih =>
      rw [List.flatten_cons, List.append_assoc] at hAt
      by_cases hPiece : piece = []
      · subst hPiece
        have hRest : Parser.emitAll p pieces = some (p', cs) := by
          simpa [Parser.emitAll, emitPiece] using hEmit
        exact ih hp hAt hRest
      · obtain ⟨l, out₁, q, out₂, out₃, hReads, hClose, hRest, rfl⟩ := (emitAll_cons_eq_some hPiece).mp hEmit
        have hl := reads_regular hp hReads
        have hFront := h.close hl (h.reads hp hAt hReads) hClose
        have hBack := ih (close_regular hl hClose) hFront hRest
        simpa using hBack

variable {p p' : Fields} {n : Nat} {ch : UInt8} {l' : Locals} {q : HttpParser} {cs : List Callback}

/-- A byte of the header section that is only looked at. -/
theorem read_advance (hParsing : p.state.parsingHeader = true) (hDispatch : dispatch p ch = p'.advance)
    (hRead : (Locals.mk p n none .outer).read ch = some (l', cs)) :
    l' = ⟨p', n + 1, none, .outer⟩ ∧ cs = [] := by
  obtain ⟨flow, hEmit, rfl⟩ := Locals.read_eq_some.mp hRead
  simp only [step, hParsing, if_true, hDispatch, Fields.advance, Prog.emit, Option.map_none] at hEmit
  split at hEmit
  · cases hEmit
  · cases hEmit
    exact ⟨rfl, rfl⟩

/-- A byte that the parser does not go on with is not read. -/
theorem read_fails (hParsing : p.state.parsingHeader = true) {e : Errno} (hDispatch : dispatch p ch = .fail p' e) :
    (Locals.mk p n none .outer).read ch ≠ some (l', cs) := by
  intro hRead
  obtain ⟨flow, hEmit, -⟩ := Locals.read_eq_some.mp hRead
  simp only [step, hParsing, if_true, hDispatch, Prog.emit, ite_self] at hEmit
  cases hEmit

/-- At the end of a buffer nothing happens to a parser that has set no mark. -/
theorem close_outer (hStart : startMark p.state = none)
    (hClose : (Locals.mk p n none .outer).close = some (q, cs)) :
    enter q = ⟨p, n, none, .outer⟩ ∧ cs = [] := by
  have hSettled : (Locals.mk p n none .outer).close = some (⟨p, n, none⟩, []) := by
    rw [Locals.close_eq, if_neg (by simp)]
    rfl
  rw [hSettled] at hClose
  cases hClose
  refine ⟨?_, rfl⟩
  show Locals.mk p n ((startMark p.state).map fun m => (m, [])) .outer = _
  rw [hStart]
  rfl

end Doormat.Parser
