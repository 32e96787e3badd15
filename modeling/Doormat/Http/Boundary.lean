import Doormat.Http.Decode

/-! Where one message ends within a buffer, `decode` may as well have been called twice. -/
namespace Doormat.Http

open Bytes Doormat.Parser HttpCodec

variable {υ : Type} {cb : Callbacks υ}

/-! ### Rounds -/

/-- The count of parsed bytes only counts. -/
theorem executeLoop_shift {S : Settings Fault (Impl υ)} (bytes : ByteString) (l : Locals)
    (parsed : Nat) (d : Impl υ) :
    executeLoop S l bytes parsed d =
      (executeLoop S l bytes 0 d).map fun r => (r.1, parsed + r.2.1, r.2.2) := by
  induction bytes generalizing l parsed d with
  | nil =>
      rw [executeLoop, executeLoop]
      rcases (finish l.fields l.loop).run S 0 l.nread l.mark d with f | ⟨flow, e⟩
      · rfl
      · cases flow with
        | next l' => rfl
        | ret p consumed => rfl
  | cons ch rest ih =>
      rw [executeLoop, executeLoop]
      rcases (step l.fields l.loop ch).run S ch l.nread l.mark d with f | ⟨flow, e⟩
      · rfl
      · cases flow with
        | next l' =>
            simp only [bind, Except.bind]
            rw [ih l' (parsed + 1) e, ih l' (0 + 1) e]
            rcases executeLoop S l' rest 0 e with f | r
            · rfl
            · simp only [Except.map, Except.ok.injEq, Prod.mk.injEq, true_and, and_true]
              omega
        | ret p consumed =>
            cases consumed with
            | true => rfl
            | false => rfl

/-- A round without an error makes progress. -/
theorem executeLoop_advances {bytes : ByteString} {l : Locals} {parsed n : Nat} {d d' : Impl υ}
    {p : HttpParser} (hRun : executeLoop (settings cb) l bytes parsed d = .ok (p, n, d'))
    (hp : p.errno = none) : parsed ≤ n ∧ (bytes ≠ [] → parsed < n) := by
  induction bytes generalizing l parsed d with
  | nil =>
      rw [executeLoop] at hRun
      obtain ⟨⟨flow, e⟩, -, hFlow⟩ := bind_eq_ok.mp hRun
      have hParsed : n = parsed := by
        cases flow with
        | next l' =>
            cases hFlow
            rfl
        | ret q consumed =>
            cases hFlow
            rfl
      exact ⟨hParsed.ge, fun hNot => absurd rfl hNot⟩
  | cons ch rest ih =>
      rw [executeLoop] at hRun
      obtain ⟨⟨flow, e⟩, hStep, hFlow⟩ := bind_eq_ok.mp hRun
      have hLess : parsed < n := by
        cases flow with
        | next l' =>
            have hRest := (ih hFlow).1
            omega
        | ret q consumed =>
            have hErrno : q.errno = none := by
              cases hFlow
              exact hp
            obtain ⟨cs, hEmit, -⟩ := emit_of_run hStep (by
              intro q' consumed' hEq
              obtain ⟨rfl, -⟩ := Flow.ret.inj hEq
              exact hErrno)
            obtain ⟨-, rfl⟩ := emit_ret hEmit
            cases hFlow
            exact Nat.lt_succ_self parsed
      exact ⟨hLess.le, fun _ => hLess⟩

/-- Rounds enough are as good as more. -/
theorem decodeLoop_fuel (hFatal : cb.Fatal) {c : HttpCodec υ} (hc : c.Ready) {data : ByteString}
    {fuel : Nat} (hFuel : data.length ≤ fuel) : decodeLoop cb fuel c data = c.decode cb data := by
  induction hLength : data.length using Nat.strong_induction_on generalizing c data fuel with
  | _ length ih =>
      by_cases hData : data = []
      · rw [hData, decodeLoop_nil]
        rfl
      obtain ⟨n, hn⟩ : ∃ n, data.length = n + 1 :=
        Nat.exists_eq_add_one.mpr (List.length_pos_of_ne_nil hData)
      obtain ⟨f, rfl⟩ : ∃ f, fuel = f + 1 := ⟨fuel - 1, by omega⟩
      rw [decode, hn, decodeLoop_succ f c hData, decodeLoop_succ n c hData,
        execute_loop hc.errno hData]
      rcases hRun : executeLoop (settings cb) (enter c.parser) data 0 c.impl with e | ⟨p, parsed, d⟩
      · rfl
      show afterExecute cb f c data (p, parsed, d) = afterExecute cb n c data (p, parsed, d)
      by_cases hp : p.errno = none
      · rw [afterExecute_ok hc _ _ _ hp, afterExecute_ok hc _ _ _ hp]
        have hParsed : 0 < parsed := (executeLoop_advances hRun hp).2 hData
        have hRest : (data.drop parsed).length < length := by
          rw [List.length_drop]
          omega
        have hReady : (c.update p d).Ready := ⟨hp, hc.contentLen⟩
        have hf : (data.drop parsed).length ≤ f := by omega
        have hn' : (data.drop parsed).length ≤ n := by omega
        rw [ih _ hRest hReady hf rfl, ih _ hRest hReady hn' rfl]
      · obtain ⟨err, hErr⟩ := Option.ne_none_iff_exists'.mp hp
        have hUser := hFatal err d.user
        simp [afterExecute, onParserError, update, hErr, hUser]

/-! ### A message that ends within a buffer -/

/-- From within a buffer on, up to the end of a message and past it. -/
theorem executeLoop_boundary (hFatal : cb.Fatal) {front rest data : ByteString} {l : Locals}
    {c : HttpCodec υ} {d d' : Impl υ} {cs : List Callback} {parsed fuel : Nat} (hc : c.Ready)
    (hl : l.Regular) (hData : data.drop parsed = front ++ rest)
    (hFuel : (front ++ rest).length ≤ fuel + 1) (hReads : l.reads front = some (enter fresh, cs))
    (hReplay : d.replay cb cs = .ok d') :
    (executeLoop (settings cb) l (front ++ rest) parsed d >>= afterExecute cb fuel c data) =
      (c.update fresh d').decode cb rest := by
  induction front generalizing l c d cs data parsed fuel with
  | nil =>
      obtain ⟨rfl, rfl⟩ := by simpa [Locals.reads, Transducer.reads] using hReads
      cases hReplay
      have hFresh : (c.update fresh d').Ready := ⟨rfl, hc.contentLen⟩
      rw [List.nil_append] at hData hFuel ⊢
      by_cases hRest : rest = []
      · subst hRest
        have hEnd : executeLoop (settings cb) (enter fresh) [] parsed d' =
            .ok (fresh, parsed, d') := rfl
        rw [hEnd]
        show afterExecute cb fuel c data (fresh, parsed, d') = _
        rw [afterExecute_ok hc _ _ _ rfl, hData, decodeLoop_nil]
        rfl
      obtain ⟨n, hn⟩ : ∃ n, rest.length = n + 1 :=
        Nat.exists_eq_add_one.mpr (List.length_pos_of_ne_nil hRest)
      rw [decode, hn, decodeLoop_succ n _ hRest, execute_loop rfl hRest, executeLoop_shift]
      show _ = executeLoop (settings cb) (enter fresh) rest 0 d' >>= _
      rcases hRun : executeLoop (settings cb) (enter fresh) rest 0 d' with e | ⟨p, m, e⟩
      · rfl
      show afterExecute cb fuel c data (p, parsed + m, e) =
        afterExecute cb n (c.update fresh d') rest (p, m, e)
      by_cases hp : p.errno = none
      · rw [afterExecute_ok hc _ _ _ hp, afterExecute_ok hFresh _ _ _ hp, ← List.drop_drop, hData]
        have hReady : (c.update p e).Ready := ⟨hp, hc.contentLen⟩
        have hAdvanced : 0 < m := (executeLoop_advances hRun hp).2 hRest
        have hLeft : (rest.drop m).length ≤ n := by
          rw [List.length_drop]
          omega
        show decodeLoop cb fuel (c.update p e) (rest.drop m) =
          decodeLoop cb n (c.update p e) (rest.drop m)
        rw [decodeLoop_fuel hFatal hReady hLeft, decodeLoop_fuel hFatal hReady (by omega)]
      · obtain ⟨err, hErr⟩ := Option.ne_none_iff_exists'.mp hp
        have hUser := hFatal err e.user
        simp [afterExecute, onParserError, update, hErr, hUser]
  | cons ch front ih =>
      obtain ⟨lt, out₁, out₂, hRead, hRest, rfl⟩ := Transducer.reads_cons_eq_some.mp hReads
      obtain ⟨flow, hEmit, rfl⟩ := Locals.read_eq_some.mp hRead
      obtain ⟨e, hFront, hBack⟩ := Impl.replay_append_eq_ok.mp hReplay
      have hDrop : data.drop (parsed + 1) = front ++ rest := by
        rw [← List.drop_drop, hData]
        rfl
      rw [List.cons_append] at hFuel ⊢
      rw [executeLoop, run_of_emit hEmit hFront]
      simp only [bind, Except.bind]
      cases flow with
      | next lt =>
          exact ih hc (read_regular hl hRead) hDrop (by simp at hFuel ⊢; omega) hRest hBack
      | ret q consumed =>
          obtain ⟨rfl, rfl⟩ := step_ret hl hEmit
          simp only [if_true]
          rw [afterExecute_ok hc _ _ _ rfl, hDrop]
          by_cases hNil : front ++ rest = []
          · obtain ⟨rfl, rfl⟩ := List.append_eq_nil_iff.mp hNil
            obtain ⟨-, rfl⟩ := by simpa [Locals.reads, Transducer.reads] using hRest
            cases hBack
            exact decodeLoop_nil _ _
          · obtain ⟨fuel, rfl⟩ : ∃ f, fuel = f + 1 := by
              have hPos := List.length_pos_of_ne_nil hNil
              simp only [List.length_cons] at hFuel
              exact ⟨fuel - 1, by omega⟩
            rw [decodeLoop_succ fuel _ hNil, execute_loop rfl hNil]
            exact ih (c := c.update fresh e) ⟨rfl, hc.contentLen⟩ enter_regular_fresh rfl
              (by simpa using hFuel) hRest hBack

/-- A parser in a state without marks is left at the end of a buffer as it was before. -/
theorem locals_of_close_unmarked {l : Locals} {p : HttpParser} {cs : List Callback} (hl : l.Regular)
    (hUnmarked : ∀ cur, p.state.admits cur = true → cur = none) (hClose : l.close = some (p, cs)) :
    l = enter p ∧ cs = [] := by
  rw [Locals.close_eq] at hClose
  split at hClose
  · cases hClose
  obtain ⟨hSettled, rfl⟩ := Prod.mk.inj (Option.some.inj hClose)
  have hState : l.fields.state = p.state := by
    rw [← Locals.settled_state, hSettled]
  have hMark : l.mark = none := by
    have hNone := hUnmarked _ (hState ▸ hl.mark)
    simpa using hNone
  have hStart : startMark p.state = none := hUnmarked _ (admits_startMark p.state)
  have hLoop : l.loop = .outer := by
    have hFits := hl.loop
    have hField : p.state ≠ .headerField := by
      intro hEq
      rw [hEq] at hStart
      cases hStart
    have hValue : p.state ≠ .headerValue := by
      intro hEq
      rw [hEq] at hStart
      cases hStart
    rcases hll : l.loop with _ | _ | _
    · rfl
    · rw [hll] at hFits
      exact absurd (hState ▸ hFits.1) hField
    · rw [hll] at hFits
      exact absurd (hState ▸ hFits.1) hValue
  refine ⟨?_, by rw [hMark]; rfl⟩
  subst hSettled
  obtain ⟨fields, nread, mark, loop⟩ := l
  dsimp only at hMark hLoop
  subst hMark hLoop
  rw [enter, hStart]
  rfl

/-- A parser that is left new at the end of a buffer was new before it. -/
theorem locals_of_close {l : Locals} {cs : List Callback} (hl : l.Regular)
    (hClose : l.close = some (fresh, cs)) : l = enter fresh ∧ cs = [] := by
  apply locals_of_close_unmarked hl _ hClose
  intro cur hAdmits
  exact of_decide_eq_true hAdmits

/-- A buffer in which a message ends is as good as two. -/
theorem decode_append (hFatal : cb.Fatal) {c c' : HttpCodec υ} {front : ByteString}
    (hc : c.Ready) (hRegular : (enter c.parser).Regular)
    (hFront : c.decode cb front = .ok (c', true)) (hEnds : c'.parser = fresh) (rest : ByteString) :
    c.decode cb (front ++ rest) = c'.decode cb rest := by
  by_cases hNil : front = []
  · rw [hNil] at hFront
    cases hFront
    rw [hNil, List.nil_append]
  obtain ⟨n, hn⟩ : ∃ n, (front ++ rest).length = n + 1 :=
    Nat.exists_eq_add_one.mpr (List.length_pos_of_ne_nil (List.append_ne_nil_of_left_ne_nil hNil rest))
  obtain ⟨p, cs, d, hEmit, hReplay, rfl⟩ := emit_of_decode hFatal hc hRegular hFront
  obtain rfl : p = fresh := hEnds
  rw [emitPiece, if_neg hNil] at hEmit
  obtain ⟨l, out, out', hReads, hClose, rfl⟩ := emit_eq_some.mp hEmit
  obtain ⟨rfl, rfl⟩ := locals_of_close (reads_regular hRegular hReads) hClose
  rw [List.append_nil] at hReplay
  rw [decode, hn, decodeLoop_succ n c (List.append_ne_nil_of_left_ne_nil hNil rest),
    execute_loop hc.errno (List.append_ne_nil_of_left_ne_nil hNil rest)]
  exact executeLoop_boundary hFatal hc hRegular List.drop_zero hn.le hReads hReplay

end Doormat.Http
