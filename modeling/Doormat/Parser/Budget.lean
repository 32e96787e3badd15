import Doormat.Parser.Cut

/-! The contract of the data callbacks, for whole streams: however a stream is cut,
the parser calls the same callbacks up to splitting, exactly if the bytes counted
twice leave every header section within its limit. -/
namespace Doormat.Parser

open Bytes

variable {marked marked' : Option (Mark × ByteString)} {stack stack' : List Callback}

/-- One buffer of the uncut stream `x`, with `extra` bytes counted twice so far in the
section at hand: where it leads, unless the count does not fit. -/
def budgetPiece (x : Locals) (extra : Nat) : ByteString → Option (Locals × Nat)
  | [] => if x.loop ≠ .outer ∧ x.counted + extra > httpMaxHeaderSize then none else some (x, extra)
  | ch :: rest =>
      if x.fields.state.parsingHeader ∧ x.counted + extra > httpMaxHeaderSize then none
      else (x.read ch).bind fun r => budgetPiece r.1 (carry r.1 extra) rest

/-- Do the bytes of every header section, together with one more for every boundary
that falls inside one of its names or values, stay within `HTTP_MAX_HEADER_SIZE`? The
names and values are those of the uncut stream. -/
def headerBudget (x : Locals) (extra : Nat) : List ByteString → Bool
  | [] => true
  | piece :: rest =>
      if piece = [] then headerBudget x extra rest
      else match budgetPiece x extra piece with
        | none => false
        | some (x, extra) => headerBudget x (if x.loop = .outer then extra else extra + 1) rest

/-- Every byte that the parser reads within a header value, but for its first, is one
that header values are made of. The parser itself does not look at all of them. -/
def headerCharsOnly (x : Locals) : ByteString → Bool
  | [] => true
  | ch :: rest =>
      (x.fields.state ≠ .headerValue || isHeaderChar ch) &&
        match x.read ch with
        | none => true
        | some (x, _) => headerCharsOnly x rest

theorem reads_cut {x y x' : Locals} {piece : ByteString} {cs : List Callback} {extra : Nat}
    (hx : x.Regular) (hy : y.Regular) (hCut : Cut x y stack stack' extra)
    (hStart : piece = [] → y.loop = .outer → x.loop = .outer)
    (hChars : headerCharsOnly x piece) (hReads : x.reads piece = some (x', cs))
    {x'' : Locals} {extra' : Nat} (hBudget : budgetPiece x extra piece = some (x'', extra')) :
    x'' = x' ∧ (x'.loop ≠ .outer → x'.counted + extra' ≤ httpMaxHeaderSize) ∧
      ∃ y' cs', y.reads piece = some (y', cs') ∧ y'.Regular ∧
        CutWithin x' y' (pushAll stack cs) (pushAll stack' cs') extra' := by
  induction piece generalizing x y stack stack' extra cs with
  | nil =>
      obtain ⟨rfl, rfl⟩ := by simpa [Locals.reads, Transducer.reads] using hReads
      simp only [budgetPiece] at hBudget
      split at hBudget
      · cases hBudget
      case isFalse hWithin =>
        cases hBudget
        refine ⟨rfl, fun h => ?_, y, [], rfl, hy, ⟨hCut, hStart rfl⟩⟩
        simpa [h] using hWithin
  | cons ch rest ih =>
      obtain ⟨xt, out₁, out₂, hRead, hRest, rfl⟩ := Transducer.reads_cons_eq_some.mp hReads
      simp only [budgetPiece] at hBudget
      split at hBudget
      · cases hBudget
      case isFalse hWithin =>
        rw [hRead] at hBudget
        simp only [headerCharsOnly, hRead, Bool.and_eq_true, Bool.or_eq_true, decide_eq_true_eq] at hChars
        obtain ⟨yt, out₁', hRead', hCut'⟩ := read_cut hx hy hCut
          (fun h => by simpa [h] using hWithin) (fun h => by simpa [h] using hChars.1) hRead
        obtain ⟨hEq, hLoop, y', out₂', hRest', hy', hCut''⟩ :=
          ih (read_regular hx hRead) (read_regular hy hRead') hCut'.toCut (fun _ => hCut'.loop)
            hChars.2 hRest hBudget
        refine ⟨hEq, hLoop, y', out₁' ++ out₂', ?_, hy', ?_⟩
        · exact Transducer.reads_cons_eq_some.mpr ⟨yt, out₁', out₂', hRead', hRest', rfl⟩
        · simpa using hCut''

theorem headerCharsOnly_append {x x' : Locals} {front rest : ByteString} {cs : List Callback}
    (hChars : headerCharsOnly x (front ++ rest)) (hReads : x.reads front = some (x', cs)) :
    headerCharsOnly x front ∧ headerCharsOnly x' rest := by
  induction front generalizing x cs with
  | nil =>
      obtain ⟨rfl, -⟩ := by simpa [Locals.reads, Transducer.reads] using hReads
      exact ⟨rfl, hChars⟩
  | cons ch front ih =>
      obtain ⟨xt, out₁, out₂, hRead, hRest, -⟩ := Transducer.reads_cons_eq_some.mp hReads
      simp only [List.cons_append, headerCharsOnly, hRead, Bool.and_eq_true] at hChars ⊢
      obtain ⟨hFront, hRest'⟩ := ih hChars.2 hRest
      exact ⟨⟨hChars.1, hFront⟩, hRest'⟩

theorem emitAll_cons_eq_some {p p' : HttpParser} {piece : ByteString} {rest : List ByteString}
    {cs : List Callback} (hPiece : piece ≠ []) :
    emitAll p (piece :: rest) = some (p', cs) ↔
      ∃ l out₁ q out₂ out₃, (enter p).reads piece = some (l, out₁) ∧ l.close = some (q, out₂) ∧
        emitAll q rest = some (p', out₃) ∧ cs = out₁ ++ out₂ ++ out₃ := by
  simp only [emitAll, emitPiece, if_neg hPiece, emit, Option.bind_eq_bind, Option.bind_eq_some_iff,
    Option.some.injEq, Prod.mk.injEq, Prod.exists]
  constructor
  · rintro ⟨q, out, ⟨l, out₁, hReads, _, out₂, hClose, rfl, rfl⟩, _, out₃, hRest, rfl, rfl⟩
    exact ⟨l, out₁, _, out₂, out₃, hReads, hClose, hRest, rfl⟩
  · rintro ⟨l, out₁, q, out₂, out₃, hReads, hClose, hRest, rfl⟩
    exact ⟨q, _, ⟨l, out₁, hReads, q, out₂, hClose, rfl, rfl⟩, p', out₃, hRest, rfl, rfl⟩

/-- However a stream is cut, as long as the cutting keeps to the budget the parser
calls what it calls for the uncut stream, but for the splitting of data. -/
theorem emitAll_cut {x x' : Locals} {p : HttpParser} {pieces : List ByteString}
    {cs : List Callback} {extra : Nat} (hx : x.Regular) (hp : (enter p).Regular)
    (hCut : Cut x (enter p) stack stack' extra) (hChars : headerCharsOnly x pieces.flatten)
    (hReads : x.reads pieces.flatten = some (x', cs)) (hBudget : headerBudget x extra pieces) :
    ∃ p' cs' extra', emitAll p pieces = some (p', cs') ∧ (enter p').Regular ∧
      Cut x' (enter p') (pushAll stack cs) (pushAll stack' cs') extra' := by
  induction pieces generalizing x p stack stack' extra cs with
  | nil =>
      obtain ⟨rfl, rfl⟩ := by simpa [Locals.reads, Transducer.reads] using hReads
      exact ⟨p, [], extra, rfl, hp, hCut⟩
  | cons piece rest ih =>
      by_cases hPiece : piece = []
      · subst hPiece
        rw [headerBudget, if_pos rfl] at hBudget
        obtain ⟨p', cs', extra', hRest, hCut'⟩ := ih hx hp hCut hChars hReads hBudget
        exact ⟨p', cs', extra', by simp [emitAll, emitPiece, hRest], hCut'⟩
      · rw [List.flatten_cons] at hReads hChars
        obtain ⟨xt, out₁, out₂, hFront, hBack, rfl⟩ := Transducer.reads_append_eq_some.mp hReads
        obtain ⟨hCharsFront, hCharsBack⟩ := headerCharsOnly_append hChars hFront
        rw [headerBudget, if_neg hPiece] at hBudget
        split at hBudget
        · cases hBudget
        case h_2 x'' extra' hPieceBudget =>
          obtain ⟨rfl, hLoop, y', out₁', hReads', hy', hCut'⟩ :=
            reads_cut hx hp hCut (fun h => absurd h hPiece) hCharsFront hFront hPieceBudget
          obtain ⟨q, out₂', hClose, hCut''⟩ := close_cut (reads_regular hx hFront) hy' hCut' hLoop
          obtain ⟨p', cs', extra'', hRest, hp', hCut⟩ :=
            ih (reads_regular hx hFront) (close_regular hy' hClose) hCut'' hCharsBack hBack hBudget
          refine ⟨p', out₁' ++ out₂' ++ cs', extra'', ?_, hp', by simpa using hCut⟩
          exact (emitAll_cons_eq_some hPiece).mpr ⟨y', out₁', q, out₂', cs', hReads', hClose, hRest, rfl⟩

/-! ### The budget is exact -/

/-- The bytes an inner loop has read no longer fit; the parser finds out when the loop
is left. -/
def Locals.Overdrawn (l : Locals) : Prop := l.loop ≠ .outer ∧ l.counted > httpMaxHeaderSize

theorem read_overdrawn {l l' : Locals} {ch : UInt8} {cs : List Callback} (h : l.Overdrawn)
    (hRead : l.read ch = some (l', cs)) : l'.Overdrawn := by
  obtain ⟨hLoop, hOver⟩ := h
  obtain ⟨flow, hEmit, rfl⟩ := Locals.read_eq_some.mp hRead
  rcases hll : l.loop with _ | read | ⟨read, hs, skip⟩
  · exact absurd hll hLoop
  all_goals simp only [Locals.counted, hll, Loop.pending] at hOver
  · rw [hll, step] at hEmit
    by_cases hToken : token ch = 0
    · simp [headerField, hToken, Prog.emit, hOver] at hEmit
    · simp only [headerField, hToken, if_false] at hEmit
      cases hSwitch : fieldSwitch l.fields ch (token ch) with
      | go p =>
          obtain ⟨rfl, -⟩ := by simpa [hSwitch, Prog.emit] using hEmit
          refine ⟨(fun h => by cases h), ?_⟩
          simp only [Flow.locals, Locals.counted, Loop.pending]
          omega
      | error p e => simp [hSwitch, Fields.fail, Prog.emit] at hEmit
      | abort => simp [hSwitch, Prog.emit] at hEmit
  · rw [hll, step] at hEmit
    have hNext : ∀ (p : Fields) (h' : HeaderState) (skip' : Option Nat),
        (Prog.next p (.value (read + 1) h' skip')).emit ch l.nread l.mark = some (flow, cs) →
          flow.locals.Overdrawn := by
      intro p h' skip' hEmit
      obtain ⟨rfl, -⟩ := by simpa [Prog.emit] using hEmit
      refine ⟨(fun h => by cases h), ?_⟩
      simp only [Flow.locals, Locals.counted, Loop.pending]
      omega
    have hValue : (headerValue l.fields ch read hs).emit ch l.nread l.mark = some (flow, cs) →
        flow.locals.Overdrawn := by
      intro hEmit
      simp only [headerValue] at hEmit
      split at hEmit
      · rw [emit_data_count] at hEmit
        simp [Prog.emit, hOver] at hEmit
      split at hEmit
      · simp [Prog.emit, hOver] at hEmit
      split at hEmit
      · cases hEmit
      split at hEmit
      · exact hNext _ _ _ hEmit
      · cases hEmit
      · cases hEmit
    simp only [headerValueLoop] at hEmit
    split at hEmit
    · exact hValue hEmit
    · split at hEmit
      · exact hValue hEmit
      · exact hNext _ _ _ hEmit

theorem reads_overdrawn {l l' : Locals} {bytes : ByteString} {cs : List Callback}
    (h : l.Overdrawn) (hReads : l.reads bytes = some (l', cs)) : l'.Overdrawn :=
  Transducer.reads_invariant (fun _ _ _ _ h hRead => read_overdrawn h hRead) h hReads

theorem read_over {l l' : Locals} {ch : UInt8} {cs : List Callback} (hLoop : l.loop = .outer)
    (hParsing : l.fields.state.parsingHeader) (hOver : l.counted > httpMaxHeaderSize) :
    l.read ch ≠ some (l', cs) := by
  intro hRead
  obtain ⟨flow, hEmit, -⟩ := Locals.read_eq_some.mp hRead
  simp only [Locals.counted, hLoop, Loop.pending, hParsing, if_true] at hOver
  simp [hLoop, step, hParsing, Prog.emit, hOver] at hEmit

theorem counted_outer {p : Fields} {n : Nat} (marked : Option (Mark × ByteString))
    (hState : p.state.parsingHeader = true) : (Locals.mk p n marked .outer).counted = n + 1 := by
  simp [Locals.counted, Loop.pending, hState]

/-- A byte that has been read has fitted. -/
theorem le_of_read {p : Fields} {n : Nat} {marked : Option (Mark × ByteString)} {ch : UInt8}
    {r : Locals × List Callback} (hParsing : p.state.parsingHeader = true)
    (hRead : (Locals.mk p n marked .outer).read ch = some r) : n + 1 ≤ httpMaxHeaderSize := by
  by_contra hOver
  have hCounted : (Locals.mk p n marked .outer).counted > httpMaxHeaderSize := by
    rw [counted_outer _ hParsing]
    omega
  exact read_over rfl hParsing hCounted hRead

theorem SameParse.state {x y : Locals} (h : SameParse x y) : y.fields.state = x.fields.state := by
  rcases h with ⟨-, -, hFields⟩ | ⟨-, -, hFields⟩ | ⟨-, -, hFields⟩
  all_goals rw [hFields]

/-- Where the budget of a buffer is exceeded, the cut stream cannot come to its end. -/
theorem reads_within {x y x' y' : Locals} {piece : ByteString} {cs cs' : List Callback}
    {extra : Nat} (hx : x.Regular) (hy : y.Regular) (hCut : Cut x y stack stack' extra)
    (hStart : piece = [] → y.loop = .outer → x.loop = .outer) (hChars : headerCharsOnly x piece)
    (hReads : x.reads piece = some (x', cs)) (hReads' : y.reads piece = some (y', cs'))
    (hNot : ¬ y'.Overdrawn) : ∃ extra', budgetPiece x extra piece = some (x', extra') := by
  have hCounted := hCut.counted
  induction piece generalizing x y stack stack' extra cs cs' with
  | nil =>
      obtain ⟨rfl, rfl⟩ := by simpa [Locals.reads, Transducer.reads] using hReads
      obtain ⟨rfl, rfl⟩ := by simpa [Locals.reads, Transducer.reads] using hReads'
      refine ⟨extra, if_neg fun hOver => hNot ⟨fun hyl => hOver.1 (hStart rfl hyl), by omega⟩⟩
  | cons ch rest ih =>
      obtain ⟨xt, out₁, out₂, hRead, hRest, rfl⟩ := Transducer.reads_cons_eq_some.mp hReads
      obtain ⟨yt, out₁', out₂', hRead', hRest', rfl⟩ := Transducer.reads_cons_eq_some.mp hReads'
      have hWithin : ¬ (x.fields.state.parsingHeader ∧ x.counted + extra > httpMaxHeaderSize) := by
        rintro ⟨hParsing, hOver⟩
        by_cases hyl : y.loop = .outer
        · exact read_over hyl (by rw [hCut.parse.state, hParsing]) (by omega) hRead'
        · exact hNot (reads_overdrawn ⟨hyl, by omega⟩ hReads')
      simp only [headerCharsOnly, hRead, Bool.and_eq_true, Bool.or_eq_true, decide_eq_true_eq] at hChars
      obtain ⟨yt', out, hReadt, hCut'⟩ := read_cut hx hy hCut
        (fun h => by simpa [h] using hWithin) (fun h => by simpa [h] using hChars.1) hRead
      obtain ⟨rfl, rfl⟩ := by simpa [hRead'] using hReadt
      rw [budgetPiece, if_neg hWithin, hRead]
      exact ih (read_regular hx hRead) (read_regular hy hRead') hCut'.toCut (fun _ => hCut'.loop)
        hChars.2 hRest hRest' hCut'.counted

theorem not_overdrawn_of_close {l : Locals} {p : HttpParser} {cs : List Callback}
    (hClose : l.close = some (p, cs)) : ¬ l.Overdrawn := by
  rintro ⟨hLoop, hOver⟩
  rw [Locals.close_eq, if_pos ⟨hLoop, hOver⟩] at hClose
  cases hClose

theorem emitAll_within {x x' : Locals} {p p' : HttpParser} {pieces : List ByteString}
    {cs cs' : List Callback} {extra : Nat} (hx : x.Regular) (hp : (enter p).Regular)
    (hCut : Cut x (enter p) stack stack' extra) (hChars : headerCharsOnly x pieces.flatten)
    (hReads : x.reads pieces.flatten = some (x', cs)) (hEmit : emitAll p pieces = some (p', cs')) :
    headerBudget x extra pieces := by
  induction pieces generalizing x p stack stack' extra cs cs' with
  | nil => rfl
  | cons piece rest ih =>
      by_cases hPiece : piece = []
      · subst hPiece
        rw [headerBudget, if_pos rfl]
        have hRest : emitAll p rest = some (p', cs') := by simpa [emitAll, emitPiece] using hEmit
        exact ih hx hp hCut hChars hReads hRest
      · rw [List.flatten_cons] at hReads hChars
        obtain ⟨xt, out₁, out₂, hFront, hBack, rfl⟩ := Transducer.reads_append_eq_some.mp hReads
        obtain ⟨hCharsFront, hCharsBack⟩ := headerCharsOnly_append hChars hFront
        obtain ⟨y', out₁', q, out₂', out₃', hReads', hClose, hRest, rfl⟩ :=
          (emitAll_cons_eq_some hPiece).mp hEmit
        obtain ⟨extra', hPieceBudget⟩ := reads_within hx hp hCut (fun h => absurd h hPiece)
          hCharsFront hFront hReads' (not_overdrawn_of_close hClose)
        obtain ⟨-, hLoop, y'', out, hReads'', hy', hCut'⟩ :=
          reads_cut hx hp hCut (fun h => absurd h hPiece) hCharsFront hFront hPieceBudget
        obtain ⟨rfl, rfl⟩ := by simpa [hReads'] using hReads''
        obtain ⟨q', out', hClose', hCut''⟩ := close_cut (reads_regular hx hFront) hy' hCut' hLoop
        obtain ⟨rfl, rfl⟩ := by simpa [hClose] using hClose'
        simp only [headerBudget, if_neg hPiece, hPieceBudget]
        exact ih (reads_regular hx hFront) (close_regular hy' hClose) hCut'' hCharsBack hBack hRest

theorem Cut.refl (p : HttpParser) : Cut (enter p) (enter p) [] [] 0 :=
  ⟨.outer rfl rfl rfl, .refl _ _, rfl, fun _ => rfl⟩

/-- A cutting gets through the parser if and only if it keeps to the budget. -/
theorem emitAll_isSome_iff {p : HttpParser} {x : Locals} {pieces : List ByteString}
    {cs : List Callback} (hp : (enter p).Regular) (hChars : headerCharsOnly (enter p) pieces.flatten)
    (hReads : (enter p).reads pieces.flatten = some (x, cs)) :
    (∃ r, emitAll p pieces = some r) ↔ headerBudget (enter p) 0 pieces := by
  constructor
  · rintro ⟨⟨p', cs'⟩, hEmit⟩
    exact emitAll_within hp hp (.refl p) hChars hReads hEmit
  · intro hBudget
    obtain ⟨p', cs', -, hEmit, -⟩ := emitAll_cut hp hp (.refl p) hChars hReads hBudget
    exact ⟨(p', cs'), hEmit⟩

end Doormat.Parser
