import Doormat.Parser.Refusal
import Doormat.Http.Independence

/-! Whether the loop of `decode` ends: a round that stops at an error which the error callback
does not declare fatal is followed by another at the byte where it stopped. -/
namespace Doormat.Http

open Bytes Doormat.Parser HttpCodec

variable {υ : Type} {cb : Callbacks υ}

/-! ### The first byte of a round -/

section FirstByte

variable {d d' : Impl υ} {ch : UInt8} {n : Nat} {marked : Option (Mark × ByteString)}

/-- Of the data callbacks only the one for the target fails. -/
theorem data_code {code rc : Nat} {m : Mark} {bytes : ByteString} (hMark : m ≠ .url)
    (h : (settings cb).data code m bytes d = .ok (rc, d')) : rc = 0 := by
  cases m with
  | url => exact absurd rfl hMark
  | status =>
      obtain ⟨object, -, hObject⟩ := bind_eq_ok.mp h
      cases object with
      | request r => cases hObject
      | response r =>
          cases hObject
          rfl
  | headerField =>
      cases hCompleted : d.headersCompleted with
      | true =>
          simp only [settings, Settings.data, hCompleted, Bool.not_true, Bool.false_eq_true, if_false] at h
          cases h
          rfl
      | false =>
          simp only [settings, Settings.data, hCompleted, Bool.not_false, if_true, Impl.onHeaderField,
            Bool.false_eq_true, if_false] at h
          obtain ⟨e, -, hEnd⟩ := bind_eq_ok.mp h
          cases hEnd
          rfl
  | headerValue =>
      cases hCompleted : d.headersCompleted with
      | true =>
          simp only [settings, Settings.data, hCompleted, Bool.not_true, Bool.false_eq_true, if_false] at h
          cases h
          rfl
      | false =>
          simp only [settings, Settings.data, hCompleted, Bool.not_false, if_true, Impl.onHeaderValue,
            Bool.false_eq_true, if_false] at h
          cases h
          rfl
  | body =>
      have hBody : d.onBody cb bytes = .ok (rc, d') := h
      unfold Impl.onBody at hBody
      split at hBody
      · cases hBody
        rfl
      · cases hBody
        rfl

theorem notification_code {p : Fields} {c : Notification} {rc : Nat}
    (h : (settings cb).notification p c d = .ok (rc, d')) : rc = 0 := by
  cases c with
  | chunkHeader | chunkComplete =>
      cases h
      rfl
  | messageBegin =>
      have hBegin : d.onMessageBegin cb = .ok (rc, d') := h
      unfold Impl.onMessageBegin at hBegin
      dsimp only at hBegin
      split at hBegin
      · split at hBegin
        · cases hBegin
          rfl
        · cases hBegin
      · cases hBegin
        rfl

/-- The callback for a value. -/
theorem data_headerValue (cb : Callbacks υ) (code : Nat) (bytes : ByteString) (d : Impl υ) :
    ∃ e : Impl υ, (settings cb).data code .headerValue bytes d = .ok (0, e) ∧ e.user = d.user := by
  cases hCompleted : d.headersCompleted with
  | false =>
      refine ⟨{ d with gotHeader := true, value := d.value ++ bytes }, ?_, rfl⟩
      simp [settings, Settings.data, Impl.onHeaderValue, hCompleted]
  | true =>
      refine ⟨{ d with gotHeader := true, value := d.value ++ bytes }, ?_, rfl⟩
      simp [settings, Settings.data, Impl.onTrailerValue, hCompleted]

theorem takes_of_after {v : Verdict} (h : v.after = .takes) : v = .takes := by
  cases v with
  | takes => rfl
  | refuses e => cases h
  | unclear => cases h

theorem after_ne_refuses {v : Verdict} {e : Errno} : v.after ≠ .refuses e := by
  cases v <;> nofun

/-- A byte that the verdict takes is counted as parsed, whatever comes of it. -/
theorem run_takes {prog : Prog} {p : HttpParser} {consumed : Bool} (hVerdict : prog.verdict n = .takes)
    (hRun : prog.run (settings cb) ch n marked d = .ok (.ret p consumed, d')) : consumed = true := by
  induction prog generalizing n marked d with
  | next q loop => cases hRun
  | leave q =>
      cases hRun
      rfl
  | fail q e => cases hVerdict
  | abort => cases hRun
  | mark m k ih => exact ih hVerdict hRun
  | data q m inclusive advance k ih =>
      have hNext : k.verdict n = .takes := by
        rw [Prog.verdict] at hVerdict
        split at hVerdict
        · exact hVerdict
        · split at hVerdict
          · cases hVerdict
          · exact takes_of_after hVerdict
      rcases marked with _ | ⟨set, bytes⟩
      · exact ih hNext hRun
      by_cases hm : set = m
      · simp only [Prog.run, hm, ne_eq, not_true_eq_false, if_false] at hRun
        obtain ⟨⟨rc, e⟩, hCall, hRun⟩ := bind_eq_ok.mp hRun
        by_cases hrc : rc = 0
        · simp only [hrc, not_true_eq_false, if_false] at hRun
          exact ih hNext hRun
        · have hUrl : m = .url := by
            by_contra hOther
            exact hrc (data_code hOther hCall)
          simp only [hrc, not_false_eq_true, if_true] at hRun
          cases hRun
          cases consumed with
          | true => rfl
          | false =>
              rw [Prog.verdict, hUrl, if_neg (fun h => by cases h), if_pos ⟨rfl, rfl⟩] at hVerdict
              cases hVerdict
      · simp only [Prog.run, ne_eq, hm, not_false_eq_true, if_true] at hRun
        exact ih hNext hRun
  | count q v k ih =>
      rw [Prog.verdict] at hVerdict
      split at hVerdict
      · cases hVerdict
      case isFalse hWithin =>
        rw [Prog.run, if_neg hWithin] at hRun
        exact ih hVerdict hRun
  | clearNread k ih => exact ih hVerdict hRun
  | assertNread v k ih =>
      rw [Prog.verdict] at hVerdict
      rw [Prog.run] at hRun
      split at hRun
      case isTrue hEq =>
        rw [if_pos hEq] at hVerdict
        exact ih hVerdict hRun
      · cases hRun
  | notify q c advance k ih =>
      obtain ⟨⟨rc, e⟩, hCall, hRun⟩ := bind_eq_ok.mp hRun
      obtain rfl := notification_code hCall
      exact ih (takes_of_after hVerdict) hRun
  | headersComplete q k ih =>
      obtain ⟨⟨rc, e⟩, hCall, hRun⟩ := bind_eq_ok.mp hRun
      obtain rfl := Impl.onHeadersComplete_code hCall
      exact ih 0 (takes_of_after hVerdict) hRun
  | messageComplete q k ih => exact ih _ (takes_of_after hVerdict) hRun

/-- At a byte that the verdict refuses the parser stops, before the owner is called. -/
theorem run_refuses {prog : Prog} {e : Errno} (hVerdict : prog.verdict n = .refuses e) :
    ∃ p m f, prog.run (settings cb) ch n marked d = .ok (.error p m e false, f) ∧ f.user = d.user := by
  induction prog generalizing n marked d with
  | next q loop => cases hVerdict
  | leave q => cases hVerdict
  | abort => cases hVerdict
  | fail q e' =>
      cases hVerdict
      exact ⟨q, n, d, rfl, rfl⟩
  | mark m k ih => exact ih hVerdict
  | data q m inclusive advance k ih =>
      rw [Prog.verdict] at hVerdict
      split at hVerdict
      case isFalse hOther =>
        split at hVerdict
        · cases hVerdict
        · exact absurd hVerdict after_ne_refuses
      case isTrue hValue =>
        subst hValue
        rcases marked with _ | ⟨set, bytes⟩
        · exact ih hVerdict
        by_cases hm : set = .headerValue
        · obtain ⟨f, hCall, hUser⟩ :=
            data_headerValue cb q.statusCode (if inclusive then bytes ++ [ch] else bytes) d
          obtain ⟨p, m, g, hRun, hSame⟩ : ∃ p m g,
              k.run (settings cb) ch n none f = .ok (.error p m e false, g) ∧ g.user = f.user :=
            ih hVerdict
          refine ⟨p, m, g, ?_, hSame.trans hUser⟩
          simp only [Prog.run, hm, ne_eq, not_true_eq_false, if_false, hCall]
          exact hRun
        · simp only [Prog.run, ne_eq, hm, not_false_eq_true, if_true]
          exact ih hVerdict
  | count q v k ih =>
      rw [Prog.verdict] at hVerdict
      rw [Prog.run]
      split at hVerdict
      case isTrue hOver =>
        cases hVerdict
        rw [if_pos hOver]
        exact ⟨q, n + v, d, rfl, rfl⟩
      case isFalse hWithin =>
        rw [if_neg hWithin]
        exact ih hVerdict
  | clearNread k ih => exact ih hVerdict
  | assertNread v k ih =>
      rw [Prog.verdict] at hVerdict
      rw [Prog.run]
      split at hVerdict
      case isTrue hEq =>
        rw [if_pos hEq]
        exact ih hVerdict
      · cases hVerdict
  | notify q c advance k ih => exact absurd hVerdict after_ne_refuses
  | headersComplete q k ih => exact absurd hVerdict after_ne_refuses
  | messageComplete q k ih => exact absurd hVerdict after_ne_refuses

theorem executeLoop_parsed_le {S : Settings Fault (Impl υ)} {bytes : ByteString} {l : Locals}
    {parsed m : Nat} {p : HttpParser} (hRun : executeLoop S l bytes parsed d = .ok (p, m, d')) :
    parsed ≤ m := by
  induction bytes generalizing l parsed d with
  | nil =>
      rw [executeLoop] at hRun
      obtain ⟨⟨flow, e⟩, -, hFlow⟩ := bind_eq_ok.mp hRun
      cases flow with
      | next l' =>
          cases hFlow
          exact le_rfl
      | ret q consumed =>
          cases hFlow
          exact le_rfl
  | cons ch rest ih =>
      rw [executeLoop] at hRun
      obtain ⟨⟨flow, e⟩, -, hFlow⟩ := bind_eq_ok.mp hRun
      cases flow with
      | next l' => exact (Nat.le_succ parsed).trans (ih hFlow)
      | ret q consumed =>
          cases hFlow
          split
          · exact Nat.le_succ parsed
          · exact le_rfl

variable {p q : HttpParser} {rest : ByteString} {m : Nat}

/-- A round whose first byte the parser takes makes progress. -/
theorem execute_taken (hErrno : p.errno = none) (hTaken : refusal p ch = none)
    (hRun : execute (settings cb) p (ch :: rest) d = .ok (q, m, d')) : 0 < m := by
  have hVerdict : (step p.toFields .outer ch).verdict p.nread = .takes := by
    rw [step_verdict, hTaken]
    rfl
  rw [execute_loop hErrno (List.cons_ne_nil _ _), executeLoop] at hRun
  obtain ⟨⟨flow, e⟩, hStep, hFlow⟩ := bind_eq_ok.mp hRun
  cases flow with
  | next l => exact executeLoop_parsed_le hFlow
  | ret r consumed =>
      obtain rfl := run_takes hVerdict hStep
      cases hFlow
      exact Nat.one_pos

/-- A round whose first byte the parser refuses stops there, with the error. -/
theorem execute_refused (hErrno : p.errno = none) {e : Errno} (hRefused : refusal p ch = some e) :
    ∃ q f, execute (settings cb) p (ch :: rest) d = .ok (q, 0, f) ∧ q.errno = some e ∧ f.user = d.user := by
  have hVerdict : (step p.toFields .outer ch).verdict p.nread = .refuses e := by
    rw [step_verdict, hRefused]
    rfl
  obtain ⟨r, n', f, hStep, hUser⟩ : ∃ r n' f, (step p.toFields .outer ch).run (settings cb) ch p.nread
      (enter p).mark d = .ok (.error r n' e false, f) ∧ f.user = d.user := run_refuses hVerdict
  refine ⟨⟨r, n', some e⟩, f, ?_, rfl, hUser⟩
  rw [execute_loop hErrno (List.cons_ne_nil _ _), executeLoop]
  exact bind_eq_ok.mpr ⟨_, hStep, rfl⟩

end FirstByte

/-! ### The faults of a round -/

section Faults

theorem bind_ne_error {ε α β : Type} {x : Except ε α} {f : α → Except ε β} {e : ε} (hx : x ≠ .error e)
    (hf : ∀ a, f a ≠ .error e) : x >>= f ≠ .error e := by
  cases x with
  | error e' => exact fun h => hx (congrArg Except.error (Except.error.inj h))
  | ok a => exact hf a

variable (d : Impl υ)

theorem deref_endless : d.deref ≠ .error .decodeLoop := by
  unfold Impl.deref
  split
  · nofun
  · nofun

theorem processCurrentHeader_endless : d.processCurrentHeader ≠ .error .decodeLoop := by
  unfold Impl.processCurrentHeader
  split
  · nofun
  · apply bind_ne_error (deref_endless d)
    intro m
    dsimp only
    split
    · nofun
    · nofun

theorem storeUrl_endless (r : HttpRequest) (urline : ByteString) (u : HttpParserUrl) :
    Impl.storeUrl r urline u ≠ .error .decodeLoop := by
  have hSubstr : ∀ field, Impl.substr urline field ≠ .error .decodeLoop := by
    intro field
    unfold Impl.substr
    split
    · nofun
    · nofun
  unfold Impl.storeUrl
  iterate 7
    apply bind_ne_error (hSubstr _)
    intro _
  nofun

theorem data_endless (cb : Callbacks υ) (code : Nat) (m : Mark) (bytes : ByteString) :
    (settings cb).data code m bytes d ≠ .error .decodeLoop := by
  cases m with
  | url =>
      show Impl.onUrl bytes d ≠ _
      unfold Impl.onUrl
      dsimp only
      split
      · nofun
      · apply bind_ne_error (deref_endless _)
        intro m
        cases m with
        | response r => nofun
        | request r =>
            dsimp only
            split
            · exact bind_ne_error (storeUrl_endless _ _ _) fun _ => nofun
            · exact bind_ne_error nofun fun _ => nofun
  | status =>
      apply bind_ne_error (deref_endless d)
      intro m
      cases m with
      | request r => nofun
      | response r => nofun
  | headerField =>
      show (if _ then Impl.onHeaderField bytes d else Impl.onTrailerField cb bytes d) ≠ _
      split
      · unfold Impl.onHeaderField
        split
        · nofun
        · exact bind_ne_error (processCurrentHeader_endless d) fun _ => nofun
      · nofun
  | headerValue =>
      obtain ⟨e, hCall, -⟩ := data_headerValue cb code bytes d
      rw [hCall]
      nofun
  | body =>
      show Impl.onBody cb bytes d ≠ _
      unfold Impl.onBody
      split
      · nofun
      · nofun

theorem notification_endless (cb : Callbacks υ) (p : Fields) (c : Notification) :
    (settings cb).notification p c d ≠ .error .decodeLoop := by
  cases c with
  | chunkHeader | chunkComplete => nofun
  | messageBegin =>
      show Impl.onMessageBegin cb d ≠ _
      unfold Impl.onMessageBegin
      dsimp only
      split
      · split
        · nofun
        · nofun
      · nofun

theorem onHeadersComplete_endless (cb : Callbacks υ) (p : Fields) :
    d.onHeadersComplete cb p ≠ .error .decodeLoop := by
  unfold Impl.onHeadersComplete
  split
  · nofun
  · apply bind_ne_error (deref_endless _)
    intro m
    exact bind_ne_error (processCurrentHeader_endless _) fun _ => nofun

theorem run_endless (cb : Callbacks υ) (prog : Prog) (ch : UInt8) (n : Nat)
    (marked : Option (Mark × ByteString)) (d : Impl υ) :
    prog.run (settings cb) ch n marked d ≠ .error .decodeLoop := by
  induction prog generalizing n marked d with
  | next q loop =>
      intro h
      cases h
  | leave q =>
      intro h
      cases h
  | fail q e =>
      intro h
      cases h
  | abort =>
      intro h
      cases h
  | mark m k ih => exact ih n _ d
  | data q m inclusive advance k ih =>
      rcases marked with _ | ⟨set, bytes⟩
      · exact ih n none d
      rw [Prog.run]
      split
      · exact ih n _ d
      · apply bind_ne_error (data_endless d cb _ _ _)
        intro a
        dsimp only
        split
        · intro h
          cases h
        · exact ih n none _
  | count q v k ih =>
      rw [Prog.run]
      split
      · intro h
        cases h
      · exact ih _ marked d
  | clearNread k ih => exact ih 0 marked d
  | assertNread v k ih =>
      rw [Prog.run]
      split
      · exact ih n marked d
      · intro h
        cases h
  | notify q c advance k ih =>
      apply bind_ne_error (notification_endless d cb q c)
      intro a
      dsimp only
      split
      · intro h
        cases h
      · exact ih n marked _
  | headersComplete q k ih =>
      apply bind_ne_error (onHeadersComplete_endless d cb q)
      intro a
      exact ih a.1 n marked a.2
  | messageComplete q k ih => exact ih _ _ _ _

theorem executeLoop_endless (cb : Callbacks υ) (bytes : ByteString) (l : Locals) (parsed : Nat) (d : Impl υ) :
    executeLoop (settings cb) l bytes parsed d ≠ .error .decodeLoop := by
  induction bytes generalizing l parsed d with
  | nil =>
      rw [executeLoop]
      apply bind_ne_error (run_endless cb _ _ _ _ _)
      intro a
      obtain ⟨flow, e⟩ := a
      cases flow with
      | next l' =>
          intro h
          cases h
      | ret q consumed =>
          intro h
          cases h
  | cons ch rest ih =>
      rw [executeLoop]
      apply bind_ne_error (run_endless cb _ _ _ _ _)
      intro a
      obtain ⟨flow, e⟩ := a
      cases flow with
      | next l' => exact ih l' _ e
      | ret q consumed =>
          intro h
          cases h

theorem execute_endless (cb : Callbacks υ) (p : HttpParser) {data : ByteString} (hData : data ≠ []) (d : Impl υ) :
    execute (settings cb) p data d ≠ .error .decodeLoop := by
  rw [execute, if_neg hData]
  split
  · intro h
    cases h
  · exact executeLoop_endless cb data _ 0 d

end Faults

/-! ### The rounds of the loop -/

/-- After a round, where the owner may have called `ingnore_content_len` meanwhile. -/
def HttpCodec.heedRequest (c : HttpCodec υ) (asked : Bool) : HttpCodec υ :=
  if c.ignoreContentLen || asked then { c.dropContentLen with ignoreContentLen := false } else c

/-- One round of the loop of `decode` that another one follows or that was the last: the codec
and the bytes that are left. -/
inductive Round (cb : Callbacks υ) : HttpCodec υ × ByteString → HttpCodec υ × ByteString → Prop
  | intro {c c' : HttpCodec υ} {data : ByteString} {p : HttpParser} {n : Nat} {d : Impl υ}
      (asked : Bool) (hData : data ≠ [])
      (hExecute : execute (settings cb) c.parser data c.impl = .ok (p, n, d))
      (hGoes : onParserError cb { c with parser := p, impl := d } = (c', none)) :
      Round cb (c, data) (c'.heedRequest asked, data.drop n)

/-- So many rounds. -/
inductive Rounds (cb : Callbacks υ) (s : HttpCodec υ × ByteString) : HttpCodec υ × ByteString → Nat → Prop
  | zero : Rounds cb s s 0
  | succ {t u : HttpCodec υ × ByteString} {n : Nat} (prior : Rounds cb s t n) (last : Round cb t u) :
      Rounds cb s u (n + 1)

/-- The loop ends, since each round reads at least one byte or returns. -/
structure LoopEnds (cb : Callbacks υ) (c : HttpCodec υ) (data : ByteString) : Prop where
  progress : ∀ {t u n}, Rounds cb (c, data) t n → Round cb t u → u.2.length < t.2.length
  bounded : ∀ {t n}, Rounds cb (c, data) t n → n ≤ data.length
  returns : c.decode cb data ≠ .error .decodeLoop

/-- A codec that has been decoding, with whatever results. -/
inductive Reached (cb : Callbacks υ) : HttpCodec υ → Prop
  | init (object : Message) (user : υ) : Reached cb (.init object user)
  | decode {c c' : HttpCodec υ} {data : ByteString} {ok : Bool} {fuel : Nat} (h : Reached cb c)
      (hDecode : decodeLoop cb fuel c data = .ok (c', ok)) : Reached cb c'
  | ignoreContentLen {c : HttpCodec υ} (h : Reached cb c) : Reached cb { c with ignoreContentLen := true }

/-- Before every round, the parser takes the next byte or the owner calls the error fatal. -/
def Heeded (cb : Callbacks υ) (c : HttpCodec υ) (data : ByteString) : Prop :=
  ∀ t n, Rounds cb (c, data) t n → ∀ ch ∈ t.2.head?, ∀ e ∈ refusal t.1.parser ch,
    (cb.error e t.1.impl.user).2 = true

section Rounds

variable {c c' : HttpCodec υ} {data : ByteString} {s t u : HttpCodec υ × ByteString} {n : Nat}

theorem onParserError_errno (hGoes : onParserError cb c = (c', none)) : c'.parser.errno = none := by
  unfold onParserError at hGoes
  split at hGoes
  case h_1 hNone =>
    cases hGoes
    exact hNone
  case h_2 err hErr =>
    dsimp only at hGoes
    split at hGoes
    · cases hGoes
    · cases hGoes
      rfl

@[simp] theorem heedRequest_errno (c : HttpCodec υ) (asked : Bool) :
    (c.heedRequest asked).parser.errno = c.parser.errno := by
  unfold HttpCodec.heedRequest HttpCodec.dropContentLen
  split
  · split
    · rfl
    · rfl
  · rfl

theorem Round.errno (h : Round cb s t) : t.1.parser.errno = none := by
  cases h with
  | intro asked hData hExecute hGoes => exact (heedRequest_errno _ asked).trans (onParserError_errno hGoes)

theorem Rounds.errno (h : Rounds cb s t n) (hs : s.1.parser.errno = none) : t.1.parser.errno = none := by
  cases h with
  | zero => exact hs
  | succ prior last => exact last.errno

theorem Rounds.head (hFirst : Round cb s t) (h : Rounds cb t u n) : Rounds cb s u (n + 1) := by
  induction h with
  | zero => exact .succ .zero hFirst
  | succ prior last ih => exact .succ ih last

/-- A round of `decodeLoop` is one of the rounds, unless the process or the loop ends with it. -/
theorem decodeLoop_round (cb : Callbacks υ) (c : HttpCodec υ) (fuel : Nat) (hData : data ≠ []) :
    (∃ t, Round cb (c, data) t ∧ decodeLoop cb (fuel + 1) c data = decodeLoop cb fuel t.1 t.2) ∨
      (∃ f, execute (settings cb) c.parser data c.impl = .error f ∧
        decodeLoop cb (fuel + 1) c data = .error f) ∨
      ∃ c', c'.parser = .init .both ∧ decodeLoop cb (fuel + 1) c data = .ok (c', false) := by
  rw [decodeLoop_succ fuel c hData]
  rcases hExecute : execute (settings cb) c.parser data c.impl with f | ⟨p, m, d⟩
  · exact .inr (.inl ⟨f, rfl, rfl⟩)
  rcases hGoes : onParserError cb { c with parser := p, impl := d } with ⟨c', _ | err⟩
  · refine .inl ⟨(c'.heedRequest false, data.drop m), .intro false hData hExecute hGoes, ?_⟩
    show afterExecute cb fuel c data (p, m, d) = _
    unfold afterExecute HttpCodec.update
    dsimp only
    rw [hGoes]
    simp [HttpCodec.heedRequest]
  · refine .inr (.inr ⟨c', ?_, ?_⟩)
    · unfold onParserError at hGoes
      split at hGoes
      · cases hGoes
      · dsimp only at hGoes
        split at hGoes
        · cases hGoes
          rfl
        · cases hGoes
    · show afterExecute cb fuel c data (p, m, d) = _
      unfold afterExecute HttpCodec.update
      dsimp only
      rw [hGoes]
      simp

theorem decodeLoop_errno {fuel : Nat} {ok : Bool} (hc : c.parser.errno = none)
    (hDecode : decodeLoop cb fuel c data = .ok (c', ok)) : c'.parser.errno = none := by
  induction fuel generalizing c data with
  | zero =>
      rw [decodeLoop] at hDecode
      split at hDecode
      · cases hDecode
        exact hc
      · cases hDecode
  | succ fuel ih =>
      by_cases hData : data = []
      · rw [hData, decodeLoop_nil] at hDecode
        cases hDecode
        exact hc
      rcases decodeLoop_round cb c fuel hData with
        ⟨t, hRound, hRest⟩ | ⟨f, -, hFault⟩ | ⟨c'', hInit, hFails⟩
      · exact ih hRound.errno (hRest.symm.trans hDecode)
      · cases hFault.symm.trans hDecode
      · cases hFails.symm.trans hDecode
        rw [hInit]
        rfl

theorem Reached.errno (h : Reached cb c) : c.parser.errno = none := by
  induction h with
  | init object user => rfl
  | ignoreContentLen h ih => exact ih
  | decode h hDecode ih => exact decodeLoop_errno ih hDecode

theorem onParserError_some {err : Errno} (hErr : c.parser.errno = some err) :
    (onParserError cb c).2 = none ↔ (cb.error err c.impl.user).2 = false := by
  rw [onParserError, hErr]
  dsimp only
  cases hFatal : (cb.error err c.impl.user).2 <;> simp

/-- A round makes progress or ends the loop if and only if the parser takes the next byte, or
the owner calls the error fatal. -/
theorem Round.progress_iff (hs : s.1.parser.errno = none) :
    (∀ t, Round cb s t → t.2.length < s.2.length) ↔
      ∀ ch ∈ s.2.head?, ∀ e ∈ refusal s.1.parser ch, (cb.error e s.1.impl.user).2 = true := by
  obtain ⟨c, data⟩ := s
  constructor
  · intro hProgress ch hch e he
    obtain ⟨rest, rfl⟩ := List.head?_eq_some_iff.mp hch
    obtain ⟨q, f, hExecute, hErr, hUser⟩ : ∃ q f,
        execute (settings cb) c.parser (ch :: rest) c.impl = .ok (q, 0, f) ∧ q.errno = some e ∧
          f.user = c.impl.user := execute_refused hs he
    by_contra hLenient
    have hGoes : (onParserError cb { c with parser := q, impl := f }).2 = none := by
      rw [onParserError_some hErr, hUser]
      exact Bool.eq_false_iff.mpr hLenient
    rcases hBoth : onParserError cb { c with parser := q, impl := f } with ⟨c', err⟩
    rw [hBoth] at hGoes
    obtain rfl : err = none := hGoes
    have hSame := hProgress _ (.intro false (List.cons_ne_nil ch rest) hExecute hBoth)
    exact absurd hSame (lt_irrefl _)
  · intro hHeeded t hRound
    cases hRound with
    | @intro _ c' _ p n d asked hData hExecute hGoes =>
        obtain ⟨ch, rest, rfl⟩ := List.exists_cons_of_ne_nil hData
        cases hRefusal : refusal c.parser ch with
        | none =>
            have hTaken : 0 < n := execute_taken hs hRefusal hExecute
            show ((ch :: rest).drop n).length < (ch :: rest).length
            rw [List.length_drop]
            simp only [List.length_cons]
            omega
        | some e =>
            obtain ⟨q, f, hStops, hErr, hUser⟩ : ∃ q f,
                execute (settings cb) c.parser (ch :: rest) c.impl = .ok (q, 0, f) ∧ q.errno = some e ∧
                  f.user = c.impl.user := execute_refused hs hRefusal
            cases hStops.symm.trans hExecute
            have hFatal := hHeeded ch rfl e hRefusal
            have hLenient := (onParserError_some hErr).mp (by rw [hGoes])
            rw [hUser, hFatal] at hLenient
            cases hLenient

/-- Rounds that each read a byte are no more than the bytes. -/
theorem Rounds.bounded (hProgress : ∀ {t u n}, Rounds cb s t n → Round cb t u → u.2.length < t.2.length)
    (h : Rounds cb s t n) : t.2.length + n ≤ s.2.length := by
  induction h with
  | zero => exact le_rfl
  | succ prior last ih =>
      have hLess := hProgress prior last
      omega

theorem decodeLoop_returns {fuel : Nat}
    (hProgress : ∀ {t u n}, Rounds cb (c, data) t n → Round cb t u → u.2.length < t.2.length)
    (hFuel : data.length ≤ fuel) : decodeLoop cb fuel c data ≠ .error .decodeLoop := by
  induction fuel generalizing c data with
  | zero =>
      have hData : data = [] := List.length_eq_zero_iff.mp (Nat.le_zero.mp hFuel)
      rw [hData, decodeLoop_nil]
      nofun
  | succ fuel ih =>
      by_cases hData : data = []
      · rw [hData, decodeLoop_nil]
        nofun
      rcases decodeLoop_round cb c fuel hData with
        ⟨⟨c', rest⟩, hRound, hRest⟩ | ⟨f, hExecute, hFault⟩ | ⟨c', -, hFails⟩
      · have hLess : rest.length < data.length := hProgress .zero hRound
        rw [hRest]
        apply ih
        · intro t u n hRounds hNext
          exact hProgress (hRounds.head hRound) hNext
        · show rest.length ≤ fuel
          omega
      · have hOther := execute_endless cb c.parser hData c.impl
        rw [hExecute] at hOther
        rw [hFault]
        intro hEq
        cases hEq
        exact hOther rfl
      · rw [hFails]
        nofun

end Rounds

/-- Each round of `decode` reads a byte or returns, and so the loop ends, for a codec in any
state, any bytes and any error callback, if and only if before every round the parser takes the
next byte in its state, or the callback declares the error fatal. -/
theorem decode_ends_iff {c : HttpCodec υ} (h : Reached cb c) (data : ByteString) :
    LoopEnds cb c data ↔ Heeded cb c data := by
  constructor
  · intro hEnds t n hRounds
    exact (Round.progress_iff (hRounds.errno h.errno)).mp fun u hNext => hEnds.progress hRounds hNext
  · intro hHeeded
    have hProgress : ∀ {t u n}, Rounds cb (c, data) t n → Round cb t u → u.2.length < t.2.length := by
      intro t u n hRounds hNext
      exact (Round.progress_iff (hRounds.errno h.errno)).mpr (hHeeded t n hRounds) u hNext
    refine ⟨hProgress, ?_, decodeLoop_returns hProgress le_rfl⟩
    intro t n hRounds
    exact (Nat.le_add_left n _).trans (hRounds.bounded hProgress)

/-! ### A request and a byte that no request begins with -/

/-- Callbacks that call no error fatal. -/
def lenient : Callbacks Unit := { handing with error := fun _ _ => ((), false) }

/-- The codec before its first byte. -/
def newCodec : HttpCodec Unit := .init (.request .fresh) ()

theorem plainRequest_heeded : Heeded lenient newCodec (plainRequest "1.1") := by
  have hRound : ∀ t, Round lenient (newCodec, plainRequest "1.1") t → t.2 = [] := by
    have hAll : (match execute (settings lenient) newCodec.parser (plainRequest "1.1") newCodec.impl with
        | .error _ => false
        | .ok (_, n, _) => decide (n = (plainRequest "1.1").length)) = true := by decide +kernel
    intro t hRound
    cases hRound with
    | intro asked hData hExecute hGoes =>
        rw [hExecute] at hAll
        show (plainRequest "1.1").drop _ = []
        rw [of_decide_eq_true hAll, List.drop_length]
  have hReach : ∀ t n, Rounds lenient (newCodec, plainRequest "1.1") t n →
      t = (newCodec, plainRequest "1.1") ∨ t.2 = [] := by
    intro t n hRounds
    induction hRounds with
    | zero => exact .inl rfl
    | succ prior last ih =>
        cases ih with
        | inl hStart =>
            rw [hStart] at last
            exact .inr (hRound _ last)
        | inr hDone =>
            cases last with
            | intro asked hData => exact absurd hDone hData
  intro t n hRounds ch hch e he
  cases hReach t n hRounds with
  | inl hStart =>
      have hTaken : (plainRequest "1.1").head?.map (refusal newCodec.parser) = some none := by decide +kernel
      rw [hStart] at hch he
      rw [Option.mem_def.mp hch] at hTaken
      cases he.symm.trans (Option.some.inj hTaken)
  | inr hDone =>
      rw [hDone] at hch
      cases hch

theorem decode_ends_iff_example : LoopEnds lenient newCodec (plainRequest "1.1") :=
  (decode_ends_iff (.init _ _) _).mpr plainRequest_heeded

/-- Before a message, the byte zero is refused again and again. -/
theorem execute_zero {p : HttpParser} (hErrno : p.errno = none)
    (hState : p.state = .startReqOrRes ∨ p.state = .startReq) (d : Impl Unit) :
    ∃ q e, execute (settings lenient) p [0] d = .ok (q, 0, d) ∧ q.errno = some e ∧
      (q.state = .startReqOrRes ∨ q.state = .startReq) := by
  have hParsing : p.state.parsingHeader = true := by
    cases hState with
    | inl h => rw [h]; rfl
    | inr h => rw [h]; rfl
  have hFails : ∃ q e, dispatch p.toFields 0 = .fail q e ∧ q.state = .startReq := by
    cases hState with
    | inl h => exact ⟨_, _, by rw [dispatch, h]; rfl, rfl⟩
    | inr h => exact ⟨p.toFields.clearMessage, .invalidMethod, by rw [dispatch, h]; rfl, h⟩
  obtain ⟨q, e, hDispatch, hNext⟩ := hFails
  rw [execute_loop hErrno (List.cons_ne_nil _ _), executeLoop]
  show ∃ q' e', ((step p.toFields .outer 0).run (settings lenient) 0 p.nread (enter p).mark d >>= _) = _ ∧ _
  rw [step, if_pos hParsing, hDispatch, Prog.run]
  by_cases hOver : p.nread + 1 > httpMaxHeaderSize
  · rw [if_pos hOver]
    exact ⟨⟨p.toFields, p.nread + 1, some .headerOverflow⟩, _, rfl, rfl, hState⟩
  · rw [if_neg hOver]
    exact ⟨⟨q, p.nread + 1, some e⟩, e, rfl, rfl, .inr hNext⟩

theorem decodeLoop_zero {c : HttpCodec Unit} (hErrno : c.parser.errno = none)
    (hState : c.parser.state = .startReqOrRes ∨ c.parser.state = .startReq) (hIgnore : c.ignoreContentLen = false)
    (fuel : Nat) : decodeLoop lenient fuel c [0] = .error .decodeLoop := by
  induction fuel generalizing c with
  | zero => rfl
  | succ fuel ih =>
      obtain ⟨q, e, hExecute, hErr, hNext⟩ := execute_zero hErrno hState c.impl
      obtain ⟨fields, nread, errno⟩ := q
      obtain rfl : errno = some e := hErr
      rw [decodeLoop_succ fuel c (List.cons_ne_nil _ _), hExecute]
      show afterExecute lenient fuel c [0] (⟨fields, nread, some e⟩, 0, c.impl) = _
      simp only [afterExecute, HttpCodec.update, onParserError, lenient, hIgnore, List.drop_zero, ne_eq,
        not_true_eq_false, if_false, Bool.false_eq_true]
      exact ih rfl hNext rfl

/-- A byte that no message begins with keeps the loop going for ever. -/
theorem zero_byte_hangs :
    Reached lenient newCodec ∧ ∀ fuel, decodeLoop lenient fuel newCodec [0] = .error .decodeLoop :=
  ⟨.init _ _, decodeLoop_zero rfl (.inl rfl) rfl⟩

end Doormat.Http
