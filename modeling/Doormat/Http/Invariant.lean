import Doormat.Parser.Logic
import Doormat.Http.Decode

/-! Invariants of a decoder. A run is a sequence of steps, one for each byte that the
parser looks at; what every step preserves holds after every run. -/
namespace Doormat.Http

open Bytes Doormat.Parser HttpCodec

variable {υ α : Type} {cb : Callbacks υ}

/-! ### The steps of a run -/

/-- The steps that `executeLoop` takes: the locals before each byte, and the byte. -/
def executeSteps (S : Settings Fault (Impl υ)) (l : Locals) (bytes : ByteString) (d : Impl υ) :
    List (Locals × UInt8) :=
  match bytes with
  | [] => []
  | ch :: rest =>
      (l, ch) :: match (step l.fields l.loop ch).run S ch l.nread l.mark d with
        | .ok (.next l, d) => executeSteps S l rest d
        | _ => []

namespace HttpCodec

/-- The codec for the next round of the loop of `decode`, unless the last one has ended
it. -/
def nextRound (cb : Callbacks υ) (c : HttpCodec υ) (p : HttpParser) (d : Impl υ) :
    Option (HttpCodec υ) :=
  let (c, err) := onParserError cb (c.update p d)
  if err ≠ none then none
  else some (if c.ignoreContentLen then { c.dropContentLen with ignoreContentLen := false } else c)

/-- The steps that the loop of `decode` takes. -/
def decodeLoopSteps (cb : Callbacks υ) (fuel : Nat) (c : HttpCodec υ) (data : ByteString) :
    List (Locals × UInt8) :=
  if data = [] then []
  else match fuel with
    | 0 => []
    | fuel + 1 =>
        (if c.parser.errno ≠ none then []
          else executeSteps (settings cb) (enter c.parser) data c.impl) ++
        match execute (settings cb) c.parser data c.impl with
        | .error _ => []
        | .ok (parser, parsed, impl) =>
            match c.nextRound cb parser impl with
            | none => []
            | some c => decodeLoopSteps cb fuel c (data.drop parsed)

/-- The steps of a call of `decode`. -/
def decodeSteps (cb : Callbacks υ) (c : HttpCodec υ) (data : ByteString) : List (Locals × UInt8) :=
  decodeLoopSteps cb data.length c data

/-- The steps of successive calls. -/
def decodeAllSteps (cb : Callbacks υ) (c : HttpCodec υ) : List ByteString → List (Locals × UInt8)
  | [] => []
  | piece :: rest =>
      c.decodeSteps cb piece ++ match c.decode cb piece with
        | .error _ => []
        | .ok (c, _) => c.decodeAllSteps cb rest

end HttpCodec

/-- The same steps, with the codec before each. -/
def executeStates (S : Settings Fault (Impl υ)) (l : Locals) (bytes : ByteString) (d : Impl υ) :
    List ((Locals × UInt8) × Impl υ) :=
  match bytes with
  | [] => []
  | ch :: rest =>
      ((l, ch), d) :: match (step l.fields l.loop ch).run S ch l.nread l.mark d with
        | .ok (.next l, d) => executeStates S l rest d
        | _ => []

namespace HttpCodec

def decodeLoopStates (cb : Callbacks υ) (fuel : Nat) (c : HttpCodec υ) (data : ByteString) :
    List ((Locals × UInt8) × Impl υ) :=
  if data = [] then []
  else match fuel with
    | 0 => []
    | fuel + 1 =>
        (if c.parser.errno ≠ none then []
          else executeStates (settings cb) (enter c.parser) data c.impl) ++
        match execute (settings cb) c.parser data c.impl with
        | .error _ => []
        | .ok (parser, parsed, impl) =>
            match c.nextRound cb parser impl with
            | none => []
            | some c => decodeLoopStates cb fuel c (data.drop parsed)

def decodeStates (cb : Callbacks υ) (c : HttpCodec υ) (data : ByteString) :
    List ((Locals × UInt8) × Impl υ) :=
  decodeLoopStates cb data.length c data

def decodeAllStates (cb : Callbacks υ) (c : HttpCodec υ) :
    List ByteString → List ((Locals × UInt8) × Impl υ)
  | [] => []
  | piece :: rest =>
      c.decodeStates cb piece ++ match c.decode cb piece with
        | .error _ => []
        | .ok (c, _) => c.decodeAllStates cb rest

end HttpCodec

theorem executeStates_fst (S : Settings Fault (Impl υ)) (l : Locals) (bytes : ByteString) (d : Impl υ) :
    (executeStates S l bytes d).map Prod.fst = executeSteps S l bytes d := by
  induction bytes generalizing l d with
  | nil => rfl
  | cons ch rest ih =>
      rw [executeStates, executeSteps, List.map_cons]
      congr 1
      split
      · exact ih _ _
      · rfl

theorem decodeLoopStates_fst (fuel : Nat) (c : HttpCodec υ) (data : ByteString) :
    (c.decodeLoopStates cb fuel data).map Prod.fst = c.decodeLoopSteps cb fuel data := by
  induction fuel generalizing c data with
  | zero =>
      unfold decodeLoopStates decodeLoopSteps
      split
      · rfl
      · rfl
  | succ fuel ih =>
      unfold decodeLoopStates decodeLoopSteps
      split
      · rfl
      rw [List.map_append]
      congr 1
      · split
        · rfl
        · exact executeStates_fst _ _ _ _
      split
      · rfl
      split
      · rfl
      · exact ih _ _

theorem decodeAllStates_fst (c : HttpCodec υ) (pieces : List ByteString) :
    (c.decodeAllStates cb pieces).map Prod.fst = c.decodeAllSteps cb pieces := by
  induction pieces generalizing c with
  | nil => rfl
  | cons piece rest ih =>
      rw [decodeAllStates, decodeAllSteps, List.map_append]
      congr 1
      · exact decodeLoopStates_fst _ _ _
      split
      · rfl
      · exact ih _

/-! ### One step -/

/-- The codec beside what a gatherer has gathered from the same callbacks: `R` holds
after each callback that succeeds if what is gathered is good, `Always` even after one
that fails, and only faults in `F` occur. -/
structure Listens (cb : Callbacks υ) (G : Gatherer α) (good : α → Prop)
    (R : α → Impl υ → Prop) (Always : Impl υ → Prop) (F : Fault → Prop) : Prop where
  ok : ∀ {a d c e}, R a d → good (G.next a c) → d.apply cb c = .ok e → R (G.next a c) e
  failed : ∀ {a d c err e}, R a d → good (G.next a c) →
    d.apply cb c = .error (.failed err e) → Always e
  fault : ∀ {a d c f}, R a d → good (G.next a c) → d.apply cb c = .error (.fault f) → F f
  always : ∀ {a d}, R a d → Always d

/-- How a step ends that keeps to `post`. -/
def Lands (G : Gatherer α) (post : Fields → Loop → Option Mark → α → Prop)
    (R : α → Impl υ → Prop) (Always : Impl υ → Prop) (F : Fault → Prop) :
    Except Fault (Flow × Impl υ) → Prop
  | .error f => F f ∨ f = .parserAssertion
  | .ok (.next l, d) => ∃ a, R a d ∧ post l.fields l.loop (l.mark.map Prod.fst) (G.ahead a l.mark)
  | .ok (.ret p _, d) =>
      Always d ∧ (p.errno = none → ∃ a, R a d ∧ post p.toFields .outer none a)

theorem accept_cases (e : Errno) (r : Except Fault (Nat × Impl υ)) :
    (∃ f, r = .error f ∧ accept e r = .error (.fault f)) ∨
      (∃ rc d, rc ≠ 0 ∧ r = .ok (rc, d) ∧ accept e r = .error (.failed e d)) ∨
        ∃ d, r = .ok (0, d) ∧ accept e r = .ok d := by
  rcases r with f | ⟨rc, d⟩
  · exact .inl ⟨f, rfl, rfl⟩
  · by_cases hrc : rc = 0
    · subst hrc
      exact .inr (.inr ⟨d, rfl, rfl⟩)
    · exact .inr (.inl ⟨rc, d, hrc, rfl, by simp [accept, hrc]⟩)

variable {G : Gatherer α} {good : α → Prop} {R : α → Impl υ → Prop} {Always : Impl υ → Prop}
  {F : Fault → Prop}

/-- The rule for a step. -/
theorem run_of_wp (hListens : Listens cb G good R Always F) {prog : Prog} {ch : UInt8}
    {post : Fields → Loop → Option Mark → α → Prop} {n : Nat}
    {marked : Option (Mark × ByteString)} {a : α} {d : Impl υ} (hR : R a d)
    (hWp : prog.wp G good ch post (marked.map Prod.fst) (G.ahead a marked)) :
    Lands G post R Always F (prog.run (settings cb) ch n marked d) := by
  induction prog generalizing n marked a d with
  | next p loop =>
      refine ⟨a, hR, ?_⟩
      rw [G.ahead_concat]
      rcases marked with _ | ⟨m, bytes⟩ <;> exact hWp
  | leave p =>
      refine ⟨hListens.always hR, fun _ => ⟨a, hR, ?_⟩⟩
      obtain rfl : marked = none := by simpa using hWp.1
      exact hWp.2
  | fail p e => exact ⟨hListens.always hR, (fun h => by cases h)⟩
  | abort => exact .inr rfl
  | mark m k ih =>
      apply ih hR
      rcases marked with _ | ⟨set, bytes⟩ <;> exact hWp
  | data p m inclusive advance k ih =>
      rcases marked with _ | ⟨set, bytes⟩
      · exact ih hR (by simpa [Prog.wp] using hWp)
      by_cases hm : set = m
      · subst hm
        simp only [Prog.wp, Option.map_some, if_true] at hWp
        have hNext : (if inclusive = true then G.extend set ch (G.ahead a (some (set, bytes)))
            else G.ahead a (some (set, bytes))) =
              G.next a (.data (set.code p.statusCode) set (if inclusive then bytes ++ [ch] else bytes)) := by
          cases inclusive
          · rfl
          · exact (G.data_concat set bytes ch a).symm
        rw [hNext] at hWp
        simp only [Prog.run, ne_eq, not_true_eq_false, if_false]
        have hApply : accept set.errno ((settings cb).data p.statusCode set
            (if inclusive then bytes ++ [ch] else bytes) d) =
              d.apply cb (.data (set.code p.statusCode) set (if inclusive then bytes ++ [ch] else bytes)) := by
          simp only [Impl.apply, settings_data_code]
        rcases accept_cases set.errno ((settings cb).data p.statusCode set
          (if inclusive then bytes ++ [ch] else bytes) d) with
          ⟨f, hCall, hAccept⟩ | ⟨rc, e, hrc, hCall, hAccept⟩ | ⟨e, hCall, hAccept⟩
        · rw [hCall]
          exact .inl (hListens.fault hR hWp.1 (hApply ▸ hAccept))
        · rw [hCall]
          simp only [bind, Except.bind, if_pos hrc]
          exact ⟨hListens.failed hR hWp.1 (hApply ▸ hAccept), (fun h => by cases h)⟩
        · rw [hCall]
          exact ih (hListens.ok hR hWp.1 (hApply ▸ hAccept)) hWp.2
      · simp only [Prog.wp, Option.map_some, Option.some.injEq, if_neg hm] at hWp
        simp only [Prog.run, ne_eq, hm, not_false_eq_true, if_true]
        exact ih hR hWp
  | count p v k ih =>
      simp only [Prog.run]
      split
      · exact ⟨hListens.always hR, (fun h => by cases h)⟩
      · exact ih hR hWp
  | clearNread k ih => exact ih hR hWp
  | assertNread v k ih =>
      simp only [Prog.run]
      split
      · exact ih hR hWp
      · exact .inr rfl
  | notify p c advance k ih =>
      obtain ⟨hCur, hGood, hk⟩ := hWp
      obtain rfl : marked = none := by simpa using hCur
      simp only [Prog.run]
      rcases accept_cases c.errno ((settings cb).notification p c d) with
        ⟨f, hCall, hAccept⟩ | ⟨rc, e, hrc, hCall, hAccept⟩ | ⟨e, hCall, hAccept⟩
      · rw [hCall]
        exact .inl (hListens.fault (c := .notify p c) hR hGood hAccept)
      · rw [hCall]
        simp only [bind, Except.bind, ne_eq, hrc, not_false_eq_true, if_true]
        exact ⟨hListens.failed (c := .notify p c) hR hGood hAccept, (fun h => by cases h)⟩
      · rw [hCall]
        exact ih (hListens.ok (c := .notify p c) hR hGood hAccept) hk
  | headersComplete p k ih =>
      obtain ⟨hCur, hGood, hk⟩ := hWp
      obtain rfl : marked = none := by simpa using hCur
      simp only [Prog.run]
      rcases accept_cases .cbHeadersComplete ((settings cb).onHeadersComplete p d) with
        ⟨f, hCall, hAccept⟩ | ⟨rc, e, hrc, hCall, hAccept⟩ | ⟨e, hCall, hAccept⟩
      · rw [hCall]
        exact .inl (hListens.fault (c := .headersComplete p) hR hGood hAccept)
      · exact absurd (Impl.onHeadersComplete_code hCall) hrc
      · rw [hCall]
        exact ih 0 (hListens.ok (c := .headersComplete p) hR hGood hAccept) hk
  | messageComplete p k ih =>
      obtain ⟨hCur, hGood, hk⟩ := hWp
      obtain rfl : marked = none := by simpa using hCur
      exact ih fresh.toFields (hListens.ok (c := .messageComplete) hR hGood rfl) hk

/-! ### A whole run -/

/-- The parser when it comes to a new buffer, as the logic sees it. -/
def Enters (G : Gatherer α) (Inv : Fields → Loop → Option Mark → α → Prop) (p : Fields) (a : α) :
    Prop :=
  Inv p .outer (startMark p.state) ((startMark p.state).elim a fun m => G.start m a)

/-- An invariant of the parser together with what is gathered. Every step that meets
`cond` preserves it, so does the end of a buffer, and it holds again after an error. -/
structure Invariant (cb : Callbacks υ) (G : Gatherer α) (good : α → Prop)
    (R : α → Impl υ → Prop) (Always : Impl υ → Prop) (F : Fault → Prop)
    (Inv : Fields → Loop → Option Mark → α → Prop) (cond : Locals → UInt8 → Prop) : Prop where
  listens : Listens cb G good R Always F
  step : ∀ {l : Locals} {ch v}, l.Regular → Inv l.fields l.loop (l.mark.map Prod.fst) v →
    cond l ch → (step l.fields l.loop ch).wp G good ch Inv (l.mark.map Prod.fst) v
  good : ∀ {p loop cur v}, Inv p loop cur v → good v
  cut : ∀ {l : Locals} {v}, l.Regular → Inv l.fields l.loop (l.mark.map Prod.fst) v →
    Enters G Inv (l.loop.settle l.fields) v
  error : ∀ {d} e, Always d →
    ∃ a, R a ({ d.record (.error e) with user := (cb.error e d.user).1 } : Impl υ).reset ∧
      Inv fresh.toFields .outer none a

/-- The same, where the condition also sees what the codec holds. -/
structure CodecInvariant (cb : Callbacks υ) (G : Gatherer α) (good : α → Prop)
    (R : α → Impl υ → Prop) (Always : Impl υ → Prop) (F : Fault → Prop)
    (Inv : Fields → Loop → Option Mark → α → Prop) (cond : Locals → UInt8 → Impl υ → Prop) : Prop where
  listens : Listens cb G good R Always F
  step : ∀ {l : Locals} {ch a d}, l.Regular → R a d →
    Inv l.fields l.loop (l.mark.map Prod.fst) (G.ahead a l.mark) → cond l ch d →
      (step l.fields l.loop ch).wp G good ch Inv (l.mark.map Prod.fst) (G.ahead a l.mark)
  good : ∀ {p loop cur v}, Inv p loop cur v → good v
  cut : ∀ {l : Locals} {v}, l.Regular → Inv l.fields l.loop (l.mark.map Prod.fst) v →
    Enters G Inv (l.loop.settle l.fields) v
  error : ∀ {d} e, Always d →
    ∃ a, R a ({ d.record (.error e) with user := (cb.error e d.user).1 } : Impl υ).reset ∧
      Inv fresh.toFields .outer none a

theorem Invariant.withCodec {Inv : Fields → Loop → Option Mark → α → Prop} {cond : Locals → UInt8 → Prop}
    (h : Invariant cb G good R Always F Inv cond) :
    CodecInvariant cb G good R Always F Inv fun l ch _ => cond l ch where
  listens := h.listens
  step hl _ hInv hCond := h.step hl hInv hCond
  good := h.good
  cut := h.cut
  error := h.error

/-- The codec between two calls of `decode`. -/
structure Conducted (G : Gatherer α) (R : α → Impl υ → Prop)
    (Inv : Fields → Loop → Option Mark → α → Prop) (c : HttpCodec υ) : Prop where
  ready : c.Ready
  regular : (enter c.parser).Regular
  gathered : ∃ a, R a c.impl ∧ Enters G Inv c.parser.toFields a

/-- How a call of `decode` ends that keeps to an invariant. -/
def Keeps (G : Gatherer α) (R : α → Impl υ → Prop) (F : Fault → Prop)
    (Inv : Fields → Loop → Option Mark → α → Prop) {β : Type} :
    Except Fault (HttpCodec υ × β) → Prop
  | .error f => F f ∨ f = .parserAssertion
  | .ok (c, _) => Conducted G R Inv c

variable {Inv : Fields → Loop → Option Mark → α → Prop} {cond : Locals → UInt8 → Impl υ → Prop}

theorem runOut_wp {p : Fields} {ch : UInt8} {post : Fields → Loop → Option Mark → α → Prop}
    {cur : Option Mark} {v : α} (hGood : good v) (hPost : post p .outer none v) :
    (runOut p).wp G good ch post cur v := by
  rcases cur with _ | m
  · simp [runOut, Prog.wp, hPost]
  · cases m <;> simp [runOut, Prog.wp, hGood, hPost]

theorem finish_wp {p : Fields} {loop : Loop} {ch : UInt8}
    {post : Fields → Loop → Option Mark → α → Prop} {cur : Option Mark} {v : α} (hGood : good v)
    (hPost : post (loop.settle p) .outer none v) : (finish p loop).wp G good ch post cur v := by
  cases loop with
  | outer => exact runOut_wp hGood hPost
  | field read => exact runOut_wp hGood hPost
  | value read h skip => exact runOut_wp hGood hPost

/-- An error is reported, and the codec starts over. -/
theorem afterExecute_error (hInv : CodecInvariant cb G good R Always F Inv cond) (hFatal : cb.Fatal)
    {c : HttpCodec υ} (hc : c.Ready) {fuel parsed : Nat} {data : ByteString} {p : HttpParser}
    (hp : p.errno ≠ none) {d : Impl υ} (hAlways : Always d) :
    Keeps G R F Inv (afterExecute cb fuel c data (p, parsed, d)) := by
  obtain ⟨err, hErr⟩ := Option.ne_none_iff_exists'.mp hp
  obtain ⟨a, hR, hFresh⟩ := hInv.error err hAlways
  have hUser := hFatal err d.user
  simp only [afterExecute, onParserError, update, hErr, hUser, if_true, ne_eq, reduceCtorEq,
    not_false_eq_true, Keeps]
  exact ⟨⟨rfl, hc.contentLen⟩, enter_regular_fresh, a, hR, hFresh⟩

theorem nextRound_ok {c : HttpCodec υ} (hc : c.Ready) {p : HttpParser} (hp : p.errno = none)
    (d : Impl υ) : c.nextRound cb p d = some (c.update p d) := by
  simp [nextRound, onParserError, update, hp, hc.contentLen]

theorem decodeLoopStates_succ {c : HttpCodec υ} (hc : c.Ready) (fuel : Nat) {data : ByteString}
    (hData : data ≠ []) :
    decodeLoopStates cb (fuel + 1) c data =
      executeStates (settings cb) (enter c.parser) data c.impl ++
        match executeLoop (settings cb) (enter c.parser) data 0 c.impl with
        | .error _ => []
        | .ok (p, parsed, d) =>
            match c.nextRound cb p d with
            | none => []
            | some c => decodeLoopStates cb fuel c (data.drop parsed) := by
  rw [decodeLoopStates, if_neg hData, if_neg (by simp [hc.errno]), execute_loop hc.errno hData]

/-- The rule for a call of `decode`, from within a buffer on. -/
theorem executeLoop_keeps (hInv : CodecInvariant cb G good R Always F Inv cond) (hFatal : cb.Fatal)
    {bytes : ByteString} {l : Locals} {c : HttpCodec υ} {a : α} {d : Impl υ} {data : ByteString}
    {parsed fuel : Nat} (hc : c.Ready) (hl : l.Regular) (hR : R a d)
    (hAhead : Inv l.fields l.loop (l.mark.map Prod.fst) (G.ahead a l.mark))
    (hData : data.drop parsed = bytes) (hFuel : bytes.length ≤ fuel + 1)
    (hCond : ∀ s ∈ executeStates (settings cb) l bytes d, cond s.1.1 s.1.2 s.2)
    (hRest : ∀ p n d' c', executeLoop (settings cb) l bytes parsed d = .ok (p, n, d') →
      c.nextRound cb p d' = some c' →
        ∀ s ∈ decodeLoopStates cb fuel c' (data.drop n), cond s.1.1 s.1.2 s.2) :
    Keeps G R F Inv
      (executeLoop (settings cb) l bytes parsed d >>= afterExecute cb fuel c data) := by
  induction bytes generalizing l c a d data parsed fuel with
  | nil =>
      have hWp : (finish l.fields l.loop).wp G good 0
          (fun p _ _ v => Enters G Inv p v) (l.mark.map Prod.fst) (G.ahead a l.mark) :=
        finish_wp (hInv.good hAhead) (hInv.cut hl hAhead)
      have hLands := run_of_wp (n := l.nread) hInv.listens hR hWp
      rw [executeLoop]
      rcases hRun : (finish l.fields l.loop).run (settings cb) 0 l.nread l.mark d with
        f | ⟨flow, e⟩
      · rw [hRun] at hLands
        exact hLands
      have hErrno : (∀ p consumed, flow = .ret p consumed → p.errno = none) →
          ∃ q cs, l.close = some (q, cs) ∧ flow = .ret q true := by
        intro hFlow
        obtain ⟨cs, hEmit, -⟩ := emit_of_run hRun hFlow
        obtain ⟨q, consumed, rfl⟩ := finish_ret hEmit
        obtain rfl := (emit_ret hEmit).2
        exact ⟨q, cs, by simp [Locals.close, hEmit], rfl⟩
      cases flow with
      | next l' =>
          obtain ⟨q, -, -, hEq⟩ := hErrno (fun _ _ hEq => by cases hEq)
          cases hEq
      | ret p consumed =>
          rw [hRun] at hLands
          simp only [bind, Except.bind]
          by_cases hp : p.errno = none
          · obtain ⟨a', hR', hEnters⟩ := hLands.2 hp
            obtain ⟨q, cs, hClose, hEq⟩ := hErrno (by
              intro p' consumed' hEq
              obtain ⟨rfl, -⟩ := Flow.ret.inj hEq
              exact hp)
            obtain ⟨rfl, rfl⟩ := Flow.ret.inj hEq
            rw [afterExecute_ok hc _ _ _ hp, hData, decodeLoop_nil]
            exact ⟨⟨hp, hc.contentLen⟩, close_regular hl hClose, a', hR', hEnters⟩
          · exact afterExecute_error hInv hFatal hc hp hLands.1
  | cons ch rest ih =>
      have hDrop : data.drop (parsed + 1) = rest := by
        rw [← List.drop_drop, hData]
        rfl
      have hHead : cond l ch d := hCond ((l, ch), d) (by simp [executeStates])
      have hLands := run_of_wp (n := l.nread) hInv.listens hR (hInv.step hl hR hAhead hHead)
      rw [executeLoop] at hRest ⊢
      rw [executeStates] at hCond
      rcases hRun : (step l.fields l.loop ch).run (settings cb) ch l.nread l.mark d with
        f | ⟨flow, e⟩
      · rw [hRun] at hLands
        exact hLands
      rw [hRun] at hLands hRest hCond
      simp only [bind, Except.bind] at hRest ⊢
      cases flow with
      | next lt =>
          obtain ⟨a', hR', hAhead'⟩ := hLands
          obtain ⟨out, hEmit, -⟩ := emit_of_run hRun (fun _ _ hEq => by cases hEq)
          have hlt : lt.Regular := read_regular hl (Locals.read_eq_some.mpr ⟨_, hEmit, rfl⟩)
          apply ih hc hlt hR' hAhead' hDrop (by simp at hFuel; omega)
          · intro s hs
            exact hCond s (List.mem_cons_of_mem _ hs)
          · exact hRest
      | ret p consumed =>
          by_cases hp : p.errno = none
          · obtain ⟨a', hR', hFresh⟩ := hLands.2 hp
            obtain ⟨out, hEmit, -⟩ := emit_of_run hRun (by
              intro p' consumed' hEq
              obtain ⟨rfl, -⟩ := Flow.ret.inj hEq
              exact hp)
            obtain ⟨rfl, rfl⟩ := step_ret hl hEmit
            simp only [if_true] at hRest ⊢
            have hc' : (c.update fresh e).Ready := ⟨rfl, hc.contentLen⟩
            have hSteps := hRest fresh (parsed + 1) e _ rfl (nextRound_ok hc rfl e)
            rw [afterExecute_ok hc _ _ _ rfl, hDrop]
            rw [hDrop] at hSteps
            by_cases hNil : rest = []
            · rw [hNil, decodeLoop_nil]
              exact ⟨hc', enter_regular_fresh, a', hR', hFresh⟩
            · obtain ⟨fuel, rfl⟩ : ∃ f, fuel = f + 1 := by
                have hPos := List.length_pos_of_ne_nil hNil
                simp only [List.length_cons] at hFuel
                exact ⟨fuel - 1, by omega⟩
              rw [decodeLoopStates_succ hc' fuel hNil] at hSteps
              rw [decodeLoop_succ fuel _ hNil, execute_loop rfl hNil]
              apply ih hc' enter_regular_fresh hR' hFresh rfl (by simpa using hFuel)
              · intro s hs
                exact hSteps s (List.mem_append_left _ hs)
              · intro p n d' c' hLoop hNext s hs
                apply hSteps s (List.mem_append_right _ _)
                simp only [update] at hLoop hNext ⊢
                rw [hLoop]
                simp only
                rw [hNext]
                exact hs
          · exact afterExecute_error hInv hFatal hc hp hLands.1

/-- The rule for a call of `decode`. -/
theorem decode_keeps_of_states (hInv : CodecInvariant cb G good R Always F Inv cond) (hFatal : cb.Fatal)
    {c : HttpCodec υ} (hc : Conducted G R Inv c) {piece : ByteString}
    (hCond : ∀ s ∈ c.decodeStates cb piece, cond s.1.1 s.1.2 s.2) :
    Keeps G R F Inv (c.decode cb piece) := by
  by_cases hPiece : piece = []
  · rw [hPiece]
    exact hc
  obtain ⟨n, hn⟩ : ∃ n, piece.length = n + 1 :=
    Nat.exists_eq_add_one.mpr (List.length_pos_of_ne_nil hPiece)
  obtain ⟨a, hR, hEnters⟩ := hc.gathered
  have hAhead : Inv (enter c.parser).fields (enter c.parser).loop
      ((enter c.parser).mark.map Prod.fst) (G.ahead a (enter c.parser).mark) := by
    simp only [enter, Option.map_map]
    unfold Enters at hEnters
    cases hMark : startMark c.parser.state <;> rw [hMark] at hEnters <;> exact hEnters
  rw [decodeStates, hn, decodeLoopStates_succ hc.ready n hPiece] at hCond
  rw [decode, hn, decodeLoop_succ n c hPiece, execute_loop hc.ready.errno hPiece]
  apply executeLoop_keeps hInv hFatal hc.ready hc.regular hR hAhead List.drop_zero hn.le
  · intro s hs
    exact hCond s (List.mem_append_left _ hs)
  · intro p m d' c' hLoop hNext s hs
    apply hCond s (List.mem_append_right _ _)
    rw [hLoop]
    simp only
    rw [hNext]
    exact hs

/-- The rule for a run: if all its steps meet the condition, it ends in no fault but
those of `F`, and the invariant holds after it. -/
theorem decodeAll_keeps_of_states (hInv : CodecInvariant cb G good R Always F Inv cond) (hFatal : cb.Fatal)
    {c : HttpCodec υ} (hc : Conducted G R Inv c) {pieces : List ByteString}
    (hCond : ∀ s ∈ c.decodeAllStates cb pieces, cond s.1.1 s.1.2 s.2) :
    Keeps G R F Inv (c.decodeAll cb pieces) := by
  induction pieces generalizing c with
  | nil => exact hc
  | cons piece rest ih =>
      rw [decodeAllStates] at hCond
      have hKeeps := decode_keeps_of_states hInv hFatal hc
        (fun s hs => hCond s (List.mem_append_left _ hs))
      rw [decodeAll]
      rcases hDecode : c.decode cb piece with f | ⟨t, ok⟩
      · rw [hDecode] at hKeeps
        exact hKeeps
      rw [hDecode] at hKeeps hCond
      have hRun := ih hKeeps (fun s hs => hCond s (List.mem_append_right _ hs))
      simp only [bind, Except.bind]
      rcases hAll : t.decodeAll cb rest with f | ⟨u, oks⟩
      · rw [hAll] at hRun
        exact hRun
      · rw [hAll] at hRun
        exact hRun

/-! ### Conditions on the parser alone -/

theorem decode_keeps {cond : Locals → UInt8 → Prop} (hInv : Invariant cb G good R Always F Inv cond)
    (hFatal : cb.Fatal) {c : HttpCodec υ} (hc : Conducted G R Inv c) {piece : ByteString}
    (hCond : ∀ s ∈ c.decodeSteps cb piece, cond s.1 s.2) :
    Keeps G R F Inv (c.decode cb piece) := by
  refine decode_keeps_of_states hInv.withCodec hFatal hc fun s hs => hCond s.1 ?_
  rw [decodeSteps, ← decodeLoopStates_fst]
  exact List.mem_map_of_mem hs

theorem decodeAll_keeps {cond : Locals → UInt8 → Prop} (hInv : Invariant cb G good R Always F Inv cond)
    (hFatal : cb.Fatal) {c : HttpCodec υ} (hc : Conducted G R Inv c) {pieces : List ByteString}
    (hCond : ∀ s ∈ c.decodeAllSteps cb pieces, cond s.1 s.2) :
    Keeps G R F Inv (c.decodeAll cb pieces) := by
  refine decodeAll_keeps_of_states hInv.withCodec hFatal hc fun s hs => hCond s.1 ?_
  rw [← decodeAllStates_fst]
  exact List.mem_map_of_mem hs

end Doormat.Http
