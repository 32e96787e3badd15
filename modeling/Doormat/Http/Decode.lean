import Doormat.Parser.Budget
import Doormat.Http.Replay

/-! `decode` as the replay of what the parser emits. -/
namespace Doormat.Http

open Bytes Doormat.Parser HttpCodec

variable {υ : Type} {cb : Callbacks υ}

/-- Between two calls of `decode` without an error the codec has none pending, and
nobody has asked it to ignore a content length. -/
structure HttpCodec.Ready (c : HttpCodec υ) : Prop where
  errno : c.parser.errno = none
  contentLen : c.ignoreContentLen = false

/-- The codec with another parser and impl. -/
def HttpCodec.update (c : HttpCodec υ) (p : HttpParser) (d : Impl υ) : HttpCodec υ :=
  { c with parser := p, impl := d }

/-- The rest of a round of the loop of `decode` after `execute`. -/
def HttpCodec.afterExecute (cb : Callbacks υ) (fuel : Nat) (c : HttpCodec υ) (data : ByteString)
    (r : HttpParser × Nat × Impl υ) : Except Fault (HttpCodec υ × Bool) :=
  let (c, err) := onParserError cb (c.update r.1 r.2.2)
  if err ≠ none then .ok (c, false)
  else
    let c := if c.ignoreContentLen then { c.dropContentLen with ignoreContentLen := false } else c
    decodeLoop cb fuel c (data.drop r.2.1)

theorem decodeLoop_succ (fuel : Nat) (c : HttpCodec υ) {data : ByteString} (hData : data ≠ []) :
    decodeLoop cb (fuel + 1) c data =
      execute (settings cb) c.parser data c.impl >>= afterExecute cb fuel c data := by
  rw [decodeLoop, if_neg hData]
  rfl

theorem afterExecute_ok {c : HttpCodec υ} (hc : c.Ready) (fuel parsed : Nat) (data : ByteString)
    {p : HttpParser} (hp : p.errno = none) (d : Impl υ) :
    afterExecute cb fuel c data (p, parsed, d) =
      decodeLoop cb fuel (c.update p d) (data.drop parsed) := by
  simp [afterExecute, onParserError, update, hp, hc.contentLen]

theorem execute_loop {S : Settings Fault (Impl υ)} {p : HttpParser} (hp : p.errno = none)
    {data : ByteString} (hData : data ≠ []) (d : Impl υ) :
    execute S p data d = executeLoop S (enter p) data 0 d := by
  simp [execute, hp, hData]

theorem decodeLoop_nil (fuel : Nat) (c : HttpCodec υ) : decodeLoop cb fuel c [] = .ok (c, true) := by
  cases fuel <;> rfl

/-- A step that returns without an error counts its byte. -/
theorem emit_ret {prog : Prog} {ch : UInt8} {n : Nat} {marked : Option (Mark × ByteString)}
    {p : HttpParser} {consumed : Bool} {cs : List Callback}
    (hEmit : prog.emit ch n marked = some (.ret p consumed, cs)) :
    p.errno = none ∧ consumed = true := by
  induction prog generalizing n marked cs with
  | next p loop => simp [Prog.emit] at hEmit
  | leave q =>
      obtain ⟨⟨rfl, rfl⟩, -⟩ := by simpa [Prog.emit] using hEmit
      exact ⟨rfl, rfl⟩
  | fail p e => cases hEmit
  | abort => cases hEmit
  | mark m k ih => exact ih hEmit
  | data p m inclusive advance k ih =>
      rcases marked with _ | ⟨set, bytes⟩
      · exact ih hEmit
      · simp only [Prog.emit] at hEmit
        split at hEmit
        · exact ih hEmit
        · obtain ⟨rest, hRest, -⟩ := Emission.prepend_eq_some.mp hEmit
          exact ih hRest
  | count p v k ih =>
      simp only [Prog.emit] at hEmit
      split at hEmit
      · cases hEmit
      · exact ih hEmit
  | clearNread k ih => exact ih hEmit
  | assertNread v k ih =>
      simp only [Prog.emit, Option.ite_none_right_eq_some] at hEmit
      exact ih hEmit.2
  | notify p c advance k ih =>
      obtain ⟨rest, hRest, -⟩ := Emission.prepend_eq_some.mp hEmit
      exact ih hRest
  | headersComplete p k ih =>
      obtain ⟨rest, hRest, -⟩ := Emission.prepend_eq_some.mp hEmit
      exact ih 0 hRest
  | messageComplete p k ih =>
      obtain ⟨rest, hRest, -⟩ := Emission.prepend_eq_some.mp hEmit
      exact ih _ hRest

theorem enter_regular_fresh : (enter fresh).Regular := enter_regular (fun _ => rfl)

/-- A step of a regular parser that returns without an error leaves a new parser. -/
theorem step_ret {l : Locals} (hl : l.Regular) {ch : UInt8} {p : HttpParser} {consumed : Bool}
    {cs : List Callback}
    (hEmit : (step l.fields l.loop ch).emit ch l.nread l.mark = some (.ret p consumed, cs)) :
    p = fresh ∧ consumed = true := by
  obtain ⟨hErrno, hConsumed⟩ := emit_ret hEmit
  refine ⟨?_, hConsumed⟩
  rcases emit_outcome (step_restarts _ _ ch) (step_sound hl ch) hEmit with ⟨⟨l', hNext⟩, -⟩ | ⟨-, -, -, hFresh⟩
  · cases hNext
  · have hFields : (enter p).fields = (enter fresh).fields := congrArg Locals.fields hFresh
    have hNread : (enter p).nread = (enter fresh).nread := congrArg Locals.nread hFresh
    obtain ⟨fields, nread, errno⟩ := p
    simp only [enter] at hFields hNread hErrno
    rw [hFields, hNread, hErrno]
    rfl

theorem close_fresh : (enter fresh).close = some (fresh, []) := rfl

/-- From within a buffer on: `decode` goes through, with what the parser emits. -/
theorem executeLoop_of_reads {bytes : ByteString} {l l' : Locals} {c : HttpCodec υ}
    {d d' : Impl υ} {p : HttpParser} {cs cs' : List Callback} {data : ByteString}
    {parsed fuel : Nat} (hc : c.Ready) (hl : l.Regular) (hData : data.drop parsed = bytes)
    (hFuel : bytes.length ≤ fuel + 1) (hReads : l.reads bytes = some (l', cs))
    (hClose : l'.close = some (p, cs')) (hReplay : d.replay cb (cs ++ cs') = .ok d') :
    (executeLoop (settings cb) l bytes parsed d >>= afterExecute cb fuel c data) =
      .ok (c.update p d', true) := by
  induction bytes generalizing l c d cs data parsed fuel with
  | nil =>
      obtain ⟨rfl, rfl⟩ := by simpa [Locals.reads, Transducer.reads] using hReads
      rw [executeLoop]
      unfold Locals.close at hClose
      split at hClose
      case h_2 => cases hClose
      case h_1 q consumed out hEmit =>
        cases hClose
        rw [run_of_emit hEmit (by simpa using hReplay)]
        simp only [bind, Except.bind]
        rw [afterExecute_ok hc _ _ _ (emit_ret hEmit).1, hData, decodeLoop_nil]
  | cons ch rest ih =>
      obtain ⟨lt, out₁, out₂, hRead, hRest, rfl⟩ := Transducer.reads_cons_eq_some.mp hReads
      obtain ⟨flow, hEmit, rfl⟩ := Locals.read_eq_some.mp hRead
      rw [List.append_assoc] at hReplay
      obtain ⟨e, hFront, hBack⟩ := Impl.replay_append_eq_ok.mp hReplay
      have hDrop : data.drop (parsed + 1) = rest := by
        rw [← List.drop_drop, hData]
        rfl
      rw [executeLoop, run_of_emit hEmit hFront]
      simp only [bind, Except.bind]
      cases flow with
      | next lt =>
          exact ih hc (read_regular hl hRead) hDrop (by simp at hFuel; omega) hRest hBack
      | ret q consumed =>
          obtain ⟨rfl, rfl⟩ := step_ret hl hEmit
          simp only [if_true]
          rw [afterExecute_ok hc _ _ _ rfl, hDrop]
          by_cases hNil : rest = []
          · subst hNil
            obtain ⟨rfl, rfl⟩ := by simpa [Locals.reads, Transducer.reads] using hRest
            cases hClose
            cases hBack
            exact decodeLoop_nil _ _
          · obtain ⟨fuel, rfl⟩ : ∃ f, fuel = f + 1 := by
              have hPos := List.length_pos_of_ne_nil hNil
              simp only [List.length_cons] at hFuel
              exact ⟨fuel - 1, by omega⟩
            rw [decodeLoop_succ fuel _ hNil, execute_loop rfl hNil]
            exact ih (c := c.update fresh e) ⟨rfl, hc.contentLen⟩ enter_regular_fresh rfl
              (by simpa using hFuel) hRest hBack

/-- The error callback declares every error fatal. -/
def Callbacks.Fatal (cb : Callbacks υ) : Prop := ∀ e user, (cb.error e user).2 = true

theorem afterExecute_failed (hFatal : cb.Fatal) {c c' : HttpCodec υ} {fuel parsed : Nat}
    {data : ByteString} {p : HttpParser} (hp : p.errno ≠ none) {d : Impl υ} :
    afterExecute cb fuel c data (p, parsed, d) ≠ .ok (c', true) := by
  obtain ⟨err, hErr⟩ := Option.ne_none_iff_exists'.mp hp
  have hUser := hFatal err d.user
  simp [afterExecute, onParserError, update, hErr, hUser]

theorem finish_ret {p : Fields} {loop : Loop} {ch : UInt8} {n : Nat}
    {marked : Option (Mark × ByteString)} {flow : Flow} {cs : List Callback}
    (hEmit : (finish p loop).emit ch n marked = some (flow, cs)) :
    ∃ q consumed, flow = .ret q consumed := by
  cases loop with
  | outer =>
      rw [finish, runOut_emit] at hEmit
      cases hEmit
      exact ⟨_, _, rfl⟩
  | field | value =>
      simp only [finish, Prog.emit, runOut_emit] at hEmit
      split at hEmit
      · cases hEmit
      · cases hEmit
        exact ⟨_, _, rfl⟩

/-- From within a buffer on: where `decode` goes through, the parser emits. -/
theorem reads_of_executeLoop (hFatal : cb.Fatal) {bytes : ByteString} {l : Locals}
    {c c' : HttpCodec υ} {d : Impl υ} {data : ByteString} {parsed fuel : Nat} (hc : c.Ready)
    (hl : l.Regular) (hData : data.drop parsed = bytes)
    (hRun : (executeLoop (settings cb) l bytes parsed d >>= afterExecute cb fuel c data) =
      .ok (c', true)) :
    ∃ l' p cs cs' d', l.reads bytes = some (l', cs) ∧ l'.close = some (p, cs') ∧
      d.replay cb (cs ++ cs') = .ok d' ∧ c' = c.update p d' := by
  induction bytes generalizing l c d data parsed fuel with
  | nil =>
      rw [executeLoop] at hRun
      obtain ⟨⟨p, n, d'⟩, hLoop, hAfter⟩ := bind_eq_ok.mp hRun
      obtain ⟨⟨flow, e⟩, hFinish, hFlow⟩ := bind_eq_ok.mp hLoop
      have hErrno : p.errno = none := by
        by_contra hp
        exact afterExecute_failed hFatal hp hAfter
      obtain ⟨cs, hEmit, hReplay⟩ := emit_of_run hFinish (by
        rintro q consumed rfl
        cases hFlow
        exact hErrno)
      obtain ⟨q, consumed, rfl⟩ := finish_ret hEmit
      cases hFlow
      rw [afterExecute_ok hc _ _ _ hErrno, hData, decodeLoop_nil] at hAfter
      cases hAfter
      exact ⟨l, p, [], cs, d', rfl, by simp [Locals.close, hEmit], hReplay, rfl⟩
  | cons ch rest ih =>
      have hDrop : data.drop (parsed + 1) = rest := by
        rw [← List.drop_drop, hData]
        rfl
      have hReadsCons : ∀ {flow : Flow} {out : List Callback} {e : Impl υ} {t : HttpCodec υ},
          (step l.fields l.loop ch).emit ch l.nread l.mark = some (flow, out) →
          d.replay cb out = .ok e → (∀ p d, t.update p d = c.update p d) →
          (∃ l' p cs cs' d', flow.locals.reads rest = some (l', cs) ∧ l'.close = some (p, cs') ∧
            e.replay cb (cs ++ cs') = .ok d' ∧ c' = t.update p d') →
          ∃ l' p cs cs' d', l.reads (ch :: rest) = some (l', cs) ∧ l'.close = some (p, cs') ∧
            d.replay cb (cs ++ cs') = .ok d' ∧ c' = c.update p d' := by
        rintro flow out e t hEmit hFront hUpdate ⟨l', p, cs, cs', d', hRest, hClose, hBack, rfl⟩
        refine ⟨l', p, out ++ cs, cs', d', ?_, hClose, ?_, hUpdate p d'⟩
        · exact Transducer.reads_cons_eq_some.mpr
            ⟨flow.locals, out, cs, Locals.read_eq_some.mpr ⟨flow, hEmit, rfl⟩, hRest, rfl⟩
        · rw [List.append_assoc]
          exact Impl.replay_append_eq_ok.mpr ⟨e, hFront, hBack⟩
      rw [executeLoop] at hRun
      obtain ⟨⟨p, n, d'⟩, hLoop, hAfter⟩ := bind_eq_ok.mp hRun
      obtain ⟨⟨flow, e⟩, hStep, hFlow⟩ := bind_eq_ok.mp hLoop
      cases flow with
      | next lt =>
          obtain ⟨out, hEmit, hFront⟩ := emit_of_run hStep (fun _ _ hEq => by cases hEq)
          refine hReadsCons hEmit hFront (fun _ _ => rfl) ?_
          have hRead := Locals.read_eq_some.mpr ⟨_, hEmit, rfl⟩
          have hRest : executeLoop (settings cb) lt rest (parsed + 1) e = .ok (p, n, d') := hFlow
          exact ih hc (read_regular hl hRead) hDrop (bind_eq_ok.mpr ⟨(p, n, d'), hRest, hAfter⟩)
      | ret q consumed =>
          have hErrno : q.errno = none := by
            by_contra hq
            cases hFlow
            exact afterExecute_failed hFatal hq hAfter
          obtain ⟨out, hEmit, hFront⟩ := emit_of_run hStep (by
            rintro q' consumed' hEq
            obtain ⟨rfl, -⟩ := Flow.ret.inj hEq
            exact hErrno)
          obtain ⟨rfl, rfl⟩ := step_ret hl hEmit
          cases hFlow
          simp only [if_true] at hAfter
          rw [afterExecute_ok hc _ _ _ rfl, hDrop] at hAfter
          refine hReadsCons (t := c.update fresh d') hEmit hFront (fun _ _ => rfl) ?_
          by_cases hNil : rest = []
          · subst hNil
            rw [decodeLoop_nil] at hAfter
            cases hAfter
            exact ⟨_, _, [], [], d', rfl, close_fresh, rfl, rfl⟩
          · cases fuel with
            | zero =>
                rw [decodeLoop, if_neg hNil] at hAfter
                cases hAfter
            | succ fuel =>
                rw [decodeLoop_succ fuel _ hNil, execute_loop rfl hNil] at hAfter
                exact ih ⟨rfl, hc.contentLen⟩ enter_regular_fresh rfl hAfter

theorem emit_eq_some {p q : HttpParser} {data : ByteString} {cs : List Callback} :
    emit p data = some (q, cs) ↔
      ∃ l out out', (enter p).reads data = some (l, out) ∧ l.close = some (q, out') ∧
        cs = out ++ out' := by
  simp only [emit, Option.bind_eq_bind, Option.bind_eq_some_iff, Option.some.injEq, Prod.mk.injEq,
    Prod.exists]
  constructor
  · rintro ⟨l, out, hReads, _, out', hClose, rfl, rfl⟩
    exact ⟨l, out, out', hReads, hClose, rfl⟩
  · rintro ⟨l, out, out', hReads, hClose, rfl⟩
    exact ⟨l, out, hReads, q, out', hClose, rfl, rfl⟩

/-- A call of `decode` goes through if the parser and the codec's callbacks do. -/
theorem decode_of_emit {c : HttpCodec υ} {piece : ByteString} {p : HttpParser}
    {cs : List Callback} {d : Impl υ} (hc : c.Ready) (hRegular : (enter c.parser).Regular)
    (hEmit : emitPiece c.parser piece = some (p, cs)) (hReplay : c.impl.replay cb cs = .ok d) :
    c.decode cb piece = .ok (c.update p d, true) := by
  unfold emitPiece at hEmit
  by_cases hPiece : piece = []
  · rw [if_pos hPiece] at hEmit
    cases hEmit
    cases hReplay
    rw [hPiece]
    rfl
  · rw [if_neg hPiece] at hEmit
    obtain ⟨l, out, out', hReads, hClose, rfl⟩ := emit_eq_some.mp hEmit
    obtain ⟨n, hn⟩ : ∃ n, piece.length = n + 1 :=
      Nat.exists_eq_add_one.mpr (List.length_pos_of_ne_nil hPiece)
    rw [decode, hn, decodeLoop_succ n c hPiece, execute_loop hc.errno hPiece]
    exact executeLoop_of_reads hc hRegular rfl hn.le hReads hClose hReplay

theorem emit_of_decode (hFatal : cb.Fatal) {c c' : HttpCodec υ} {piece : ByteString}
    (hc : c.Ready) (hRegular : (enter c.parser).Regular)
    (hDecode : c.decode cb piece = .ok (c', true)) :
    ∃ p cs d, emitPiece c.parser piece = some (p, cs) ∧ c.impl.replay cb cs = .ok d ∧
      c' = c.update p d := by
  unfold emitPiece
  by_cases hPiece : piece = []
  · rw [hPiece] at hDecode
    cases hDecode
    exact ⟨c.parser, [], c.impl, by simp [hPiece], rfl, rfl⟩
  · obtain ⟨n, hn⟩ : ∃ n, piece.length = n + 1 :=
      Nat.exists_eq_add_one.mpr (List.length_pos_of_ne_nil hPiece)
    rw [decode, hn, decodeLoop_succ n c hPiece, execute_loop hc.errno hPiece] at hDecode
    obtain ⟨l, p, cs, cs', d, hReads, hClose, hReplay, rfl⟩ :=
      reads_of_executeLoop hFatal hc hRegular List.drop_zero hDecode
    exact ⟨p, cs ++ cs', d, by rw [if_neg hPiece, emit_eq_some.mpr ⟨l, cs, cs', hReads, hClose, rfl⟩],
      hReplay, rfl⟩

theorem emitPiece_regular {p q : HttpParser} {piece : ByteString} {cs : List Callback}
    (hp : (enter p).Regular) (hEmit : emitPiece p piece = some (q, cs)) :
    (enter q).Regular ∧ (p.errno = none → q.errno = none) := by
  unfold emitPiece at hEmit
  split at hEmit
  · cases hEmit
    exact ⟨hp, id⟩
  · obtain ⟨l, out, out', hReads, hClose, -⟩ := emit_eq_some.mp hEmit
    refine ⟨close_regular (reads_regular hp hReads) hClose, fun _ => ?_⟩
    rw [Locals.close_eq] at hClose
    split at hClose
    · cases hClose
    · cases hClose
      rfl

theorem emitAll_cons {p q : HttpParser} {piece : ByteString} {rest : List ByteString}
    {cs : List Callback} :
    emitAll p (piece :: rest) = some (q, cs) ↔
      ∃ r out out', emitPiece p piece = some (r, out) ∧ emitAll r rest = some (q, out') ∧
        cs = out ++ out' := by
  simp only [emitAll, Option.bind_eq_bind, Option.bind_eq_some_iff,
    Option.some.injEq, Prod.mk.injEq, Prod.exists]
  constructor
  · rintro ⟨r, out, hPiece, _, out', hRest, rfl, rfl⟩
    exact ⟨r, out, out', hPiece, hRest, rfl⟩
  · rintro ⟨r, out, out', hPiece, hRest, rfl⟩
    exact ⟨r, out, hPiece, q, out', hRest, rfl, rfl⟩

/-- A stream that is decoded piece by piece without an error. -/
def HttpCodec.accepts (cb : Callbacks υ) (c : HttpCodec υ) (pieces : List ByteString)
    (c' : HttpCodec υ) : Prop :=
  ∃ oks, c.decodeAll cb pieces = .ok (c', oks) ∧ ∀ ok ∈ oks, ok = true

/-- A stream goes through the decoder if and only if its bytes go through the parser
and the callbacks through the codec. -/
theorem accepts_iff (hFatal : cb.Fatal) {c c' : HttpCodec υ} {pieces : List ByteString}
    (hc : c.Ready) (hRegular : (enter c.parser).Regular) :
    c.accepts cb pieces c' ↔
      ∃ p cs d, emitAll c.parser pieces = some (p, cs) ∧ c.impl.replay cb cs = .ok d ∧
        c' = c.update p d := by
  induction pieces generalizing c with
  | nil =>
      constructor
      · rintro ⟨oks, hAll, -⟩
        cases hAll
        exact ⟨c'.parser, [], c'.impl, rfl, rfl, rfl⟩
      · rintro ⟨p, cs, d, hEmit, hReplay, rfl⟩
        cases hEmit
        cases hReplay
        exact ⟨[], rfl, by simp⟩
  | cons piece rest ih =>
      constructor
      · rintro ⟨oks, hAll, hOks⟩
        obtain ⟨⟨t, ok⟩, hPiece, hAll⟩ := bind_eq_ok.mp hAll
        obtain ⟨⟨u, oks⟩, hRest, hAll⟩ := bind_eq_ok.mp hAll
        cases hAll
        obtain rfl := hOks ok (by simp)
        obtain ⟨p, cs, d, hEmit, hReplay, rfl⟩ := emit_of_decode hFatal hc hRegular hPiece
        obtain ⟨hEnter, hErrno⟩ := emitPiece_regular hRegular hEmit
        obtain ⟨q, cs', d', hEmit', hReplay', rfl⟩ :=
          (ih (c := c.update p d) ⟨hErrno hc.errno, hc.contentLen⟩ hEnter).mp
            ⟨oks, hRest, fun ok h => hOks ok (by simp [h])⟩
        exact ⟨q, cs ++ cs', d', emitAll_cons.mpr ⟨p, cs, cs', hEmit, hEmit', rfl⟩,
          Impl.replay_append_eq_ok.mpr ⟨d, hReplay, hReplay'⟩, rfl⟩
      · rintro ⟨q, cs, d', hEmit, hReplay, rfl⟩
        obtain ⟨p, out, out', hPiece, hRest, rfl⟩ := emitAll_cons.mp hEmit
        obtain ⟨d, hFront, hBack⟩ := Impl.replay_append_eq_ok.mp hReplay
        obtain ⟨hEnter, hErrno⟩ := emitPiece_regular hRegular hPiece
        obtain ⟨oks, hAll, hOks⟩ :=
          (ih (c := c.update p d) ⟨hErrno hc.errno, hc.contentLen⟩ hEnter).mpr
            ⟨q, out', d', hRest, hBack, rfl⟩
        refine ⟨true :: oks, ?_, by simpa using hOks⟩
        exact bind_eq_ok.mpr ⟨_, decode_of_emit hc hRegular hPiece hFront,
          bind_eq_ok.mpr ⟨_, hAll, rfl⟩⟩

end Doormat.Http
