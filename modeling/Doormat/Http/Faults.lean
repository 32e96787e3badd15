import Doormat.Parser.Assertions
import Doormat.Http.Direction

/-! The ways in which decoding can end the process. None of them is an assertion of the parser, an
offset past the end of a target, a header after the headers, or a loop that does not end. -/
namespace Doormat.Http

open Bytes Doormat.Parser HttpCodec

variable {υ : Type} {cb : Callbacks υ}

/-! ### The callbacks of the codec -/

/-- The parser has failed no assertion. -/
def Asserted {β : Type} (r : Except Fault β) : Prop := r ≠ .error .parserAssertion

theorem asserted_ok {β : Type} (b : β) : Asserted (.ok b) := fun h => (by cases h)

theorem asserted_fault {β : Type} {f : Fault} (h : f ≠ .parserAssertion) : Asserted (.error f : Except Fault β) :=
  fun hFault => h (Except.error.inj hFault)

theorem Asserted.bind {β γ : Type} {r : Except Fault β} {k : β → Except Fault γ} (h : Asserted r)
    (hk : ∀ b, Asserted (k b)) : Asserted (r >>= k) := by
  cases r with
  | error f => exact fun hFault => h (congrArg Except.error (Except.error.inj hFault))
  | ok b => exact hk b

namespace Impl

variable {d : Impl υ} {p : Fields} {bytes : ByteString}

theorem deref_asserted (d : Impl υ) : Asserted d.deref := by
  unfold deref
  split
  · exact asserted_ok _
  · exact asserted_fault (by decide)

theorem processCurrentHeader_asserted (d : Impl υ) : Asserted d.processCurrentHeader := by
  unfold processCurrentHeader
  split
  · exact asserted_ok _
  refine (deref_asserted d).bind fun m => ?_
  dsimp only
  split
  · exact asserted_fault (fun h => by cases h)
  · exact asserted_ok _

theorem storeUrl_asserted (r : HttpRequest) (urline : ByteString) (u : HttpParserUrl) :
    Asserted (storeUrl r urline u) := by
  have hPart : ∀ field, Asserted (substr urline field) := by
    intro field
    unfold substr
    split
    · exact asserted_fault (by decide)
    · exact asserted_ok _
  unfold storeUrl
  repeat refine (hPart _).bind fun _ => ?_
  exact asserted_ok _

theorem data_asserted (cb : Callbacks υ) (code : Nat) (m : Mark) (bytes : ByteString) (d : Impl υ) :
    Asserted ((settings cb).data code m bytes d) := by
  cases m with
  | headerField =>
      show Asserted (if !d.headersCompleted then onHeaderField bytes d else onTrailerField cb bytes d)
      split
      · unfold onHeaderField
        split
        · exact asserted_fault (by decide)
        · exact (processCurrentHeader_asserted d).bind fun _ => asserted_ok _
      · exact asserted_ok _
  | headerValue =>
      show Asserted (if !d.headersCompleted then onHeaderValue bytes d else onTrailerValue bytes d)
      split
      · unfold onHeaderValue
        split
        · exact asserted_fault (by decide)
        · exact asserted_ok _
      · exact asserted_ok _
  | url =>
      show Asserted (onUrl bytes d)
      unfold onUrl
      dsimp only
      split
      · exact asserted_ok _
      refine (deref_asserted _).bind fun m => ?_
      cases m with
      | response r => exact asserted_fault (by decide)
      | request r =>
          dsimp only
          split
          · exact (storeUrl_asserted _ _ _).bind fun _ => asserted_ok _
          · exact asserted_ok _
  | status =>
      refine (deref_asserted d).bind fun m => ?_
      cases m with
      | request r => exact asserted_fault (by decide)
      | response r => exact asserted_ok _
  | body =>
      show Asserted (onBody cb bytes d)
      unfold onBody
      split
      · exact asserted_ok _
      · exact asserted_ok _

theorem notification_asserted (cb : Callbacks υ) (p : Fields) (c : Notification) (d : Impl υ) :
    Asserted ((settings cb).notification p c d) := by
  cases c with
  | messageBegin =>
      show Asserted (onMessageBegin cb d)
      unfold onMessageBegin
      dsimp only
      repeat' split
      · exact asserted_ok _
      · exact asserted_fault (by decide)
      · exact asserted_ok _
  | chunkHeader | chunkComplete => exact asserted_ok _

theorem onHeadersComplete_asserted (cb : Callbacks υ) (p : Fields) (d : Impl υ) :
    Asserted (d.onHeadersComplete cb p) := by
  unfold onHeadersComplete
  split
  · exact asserted_fault (by decide)
  refine (deref_asserted _).bind fun m => ?_
  exact (processCurrentHeader_asserted _).bind fun _ => asserted_ok _

end Impl

/-! ### Runs of the parser -/

/-- A safe program fails no assertion. -/
theorem run_asserted {prog : Prog} {post : Fields → Loop → Prop} {ch : UInt8} {n bound : Nat} {cleared : Bool}
    {marked : Option (Mark × ByteString)} {d : Impl υ} (hSafe : prog.Safe post)
    (hSound : prog.Sound bound (marked.map Prod.fst) cleared n) :
    Asserted (prog.run (settings cb) ch n marked d) := by
  induction prog generalizing n cleared marked d with
  | next p loop => exact asserted_ok _
  | leave p => exact asserted_ok _
  | fail p e => exact asserted_ok _
  | abort => exact hSafe.elim
  | mark m k ih =>
      apply ih hSafe
      rcases marked with _ | ⟨set, bytes⟩
      · exact hSound.2
      · obtain rfl : set = m := by simpa using hSound.1
        exact hSound.2
  | data p m inclusive advance k ih =>
      rcases marked with _ | ⟨set, bytes⟩
      · exact ih hSafe (by simpa [Prog.Sound] using hSound)
      by_cases hm : set = m
      · simp only [Prog.run, hm, ne_eq, not_true_eq_false, if_false]
        refine (Impl.data_asserted cb _ _ _ _).bind fun r => ?_
        split
        · exact asserted_ok _
        · exact ih hSafe (by simpa [Prog.Sound, hm] using hSound)
      · simp only [Prog.run, ne_eq, hm, not_false_eq_true, if_true]
        exact ih hSafe (by simpa [Prog.Sound, hm] using hSound)
  | count p v k ih =>
      simp only [Prog.run]
      split
      · exact asserted_ok _
      · exact ih hSafe hSound.2.2
  | clearNread k ih => exact ih hSafe hSound
  | assertNread v k ih =>
      rw [Prog.run, if_pos hSound.1]
      exact ih hSafe hSound.2
  | notify p c advance k ih =>
      refine (Impl.notification_asserted cb p c d).bind fun r => ?_
      dsimp only
      split
      · exact asserted_ok _
      · exact ih hSafe hSound.2
  | headersComplete p k ih =>
      simp only [Prog.run]
      rcases hCall : (settings cb).onHeadersComplete p d with f | ⟨rc, e⟩
      · refine asserted_fault fun hf => ?_
        exact Impl.onHeadersComplete_asserted cb p d (hf ▸ hCall)
      · obtain rfl := Impl.onHeadersComplete_code hCall
        exact ih 0 (hSafe 0) hSound.2
  | messageComplete p k ih => exact ih fresh.toFields hSafe hSound.2

/-- The codec between two calls of `decode`: its parser meets its own assertions. -/
structure Consistent (c : HttpCodec υ) : Prop where
  ready : c.Ready
  regular : (enter c.parser).Regular
  fields : c.parser.toFields.Consistent

/-- A call of `decode` fails no assertion, and the codec is consistent after it. -/
def StaysConsistent {β : Type} : Except Fault (HttpCodec υ × β) → Prop
  | .error f => f ≠ .parserAssertion
  | .ok (c, _) => Consistent c

theorem StaysConsistent.of_asserted {β γ : Type} {r : Except Fault γ} {k : γ → Except Fault (HttpCodec υ × β)}
    (h : Asserted r) (hk : ∀ b, r = .ok b → StaysConsistent (k b)) : StaysConsistent (r >>= k) := by
  cases r with
  | error f => exact fun hf => h (congrArg Except.error hf)
  | ok b => exact hk b rfl

theorem afterExecute_consistent (hFatal : cb.Fatal) {c : HttpCodec υ} (hc : c.Ready) {fuel parsed : Nat}
    {data : ByteString} {p : HttpParser} (hp : p.errno ≠ none) (d : Impl υ) :
    StaysConsistent (afterExecute cb fuel c data (p, parsed, d)) := by
  obtain ⟨err, hErr⟩ := Option.ne_none_iff_exists'.mp hp
  have hUser := hFatal err d.user
  simp only [afterExecute, onParserError, update, hErr, hUser, if_true, ne_eq, reduceCtorEq,
    not_false_eq_true, StaysConsistent]
  exact ⟨⟨rfl, hc.contentLen⟩, enter_regular_fresh, fresh_consistent⟩

/-- From within a buffer on. -/
theorem executeLoop_consistent (hFatal : cb.Fatal) {bytes : ByteString} {l : Locals} {c : HttpCodec υ}
    {d : Impl υ} {data : ByteString} {parsed fuel : Nat} (hc : c.Ready) (hl : l.Regular)
    (hFields : (l.loop.settle l.fields).Consistent) (hData : data.drop parsed = bytes)
    (hFuel : bytes.length ≤ fuel + 1) :
    StaysConsistent (executeLoop (settings cb) l bytes parsed d >>= afterExecute cb fuel c data) := by
  induction bytes generalizing l c d data parsed fuel with
  | nil =>
      have hFinish := finish_safe hFields
      rw [executeLoop, bind_assoc]
      refine .of_asserted (run_asserted hFinish (finish_sound hl)) fun r hRun => ?_
      obtain ⟨flow, e⟩ := r
      cases flow with
      | next l' =>
          obtain ⟨cs, hEmit, -⟩ := emit_of_run hRun (fun _ _ hEq => by cases hEq)
          obtain ⟨q, consumed, hRet⟩ := finish_ret hEmit
          cases hRet
      | ret p consumed =>
          by_cases hp : p.errno = none
          · obtain ⟨cs, hEmit, -⟩ := emit_of_run hRun (by
              intro p' consumed' hEq
              obtain ⟨rfl, -⟩ := Flow.ret.inj hEq
              exact hp)
            have hClose : l.close = some (p, cs) := by simp [Locals.close, hEmit]
            show StaysConsistent (afterExecute cb fuel c data (p, parsed, e))
            rw [afterExecute_ok hc _ _ _ hp, hData, decodeLoop_nil]
            exact ⟨⟨hp, hc.contentLen⟩, close_regular hl hClose, emit_safe hFinish hEmit⟩
          · exact afterExecute_consistent hFatal hc hp e
  | cons ch rest ih =>
      have hDrop : data.drop (parsed + 1) = rest := by
        rw [← List.drop_drop, hData]
        rfl
      have hStep := step_safe hl hFields ch
      rw [executeLoop, bind_assoc]
      refine .of_asserted (run_asserted hStep (step_sound hl ch)) fun r hRun => ?_
      obtain ⟨flow, e⟩ := r
      cases flow with
      | next lt =>
          obtain ⟨cs, hEmit, -⟩ := emit_of_run hRun (fun _ _ hEq => by cases hEq)
          have hlt : lt.Regular := read_regular hl (Locals.read_eq_some.mpr ⟨_, hEmit, rfl⟩)
          exact ih hc hlt (emit_safe hStep hEmit) hDrop (by simp at hFuel; omega)
      | ret p consumed =>
          by_cases hp : p.errno = none
          · obtain ⟨cs, hEmit, -⟩ := emit_of_run hRun (by
              intro p' consumed' hEq
              obtain ⟨rfl, -⟩ := Flow.ret.inj hEq
              exact hp)
            obtain ⟨rfl, rfl⟩ := step_ret hl hEmit
            show StaysConsistent (afterExecute cb fuel c data (fresh, parsed + 1, e))
            rw [afterExecute_ok hc _ _ _ rfl, hDrop]
            have hc' : (c.update fresh e).Ready := ⟨rfl, hc.contentLen⟩
            by_cases hNil : rest = []
            · rw [hNil, decodeLoop_nil]
              exact ⟨hc', enter_regular_fresh, fresh_consistent⟩
            · obtain ⟨fuel, rfl⟩ : ∃ f, fuel = f + 1 := by
                have hPos := List.length_pos_of_ne_nil hNil
                simp only [List.length_cons] at hFuel
                exact ⟨fuel - 1, by omega⟩
              rw [decodeLoop_succ fuel _ hNil, execute_loop rfl hNil]
              exact ih hc' enter_regular_fresh fresh_consistent rfl (by simpa using hFuel)
          · exact afterExecute_consistent hFatal hc hp e

theorem decode_consistent (hFatal : cb.Fatal) {c : HttpCodec υ} (hc : Consistent c) (piece : ByteString) :
    StaysConsistent (c.decode cb piece) := by
  by_cases hPiece : piece = []
  · rw [hPiece]
    exact hc
  obtain ⟨n, hn⟩ : ∃ n, piece.length = n + 1 :=
    Nat.exists_eq_add_one.mpr (List.length_pos_of_ne_nil hPiece)
  rw [decode, hn, decodeLoop_succ n c hPiece, execute_loop hc.ready.errno hPiece]
  exact executeLoop_consistent hFatal hc.ready hc.regular hc.fields List.drop_zero hn.le

theorem decodeAll_consistent (hFatal : cb.Fatal) {c : HttpCodec υ} (hc : Consistent c) (pieces : List ByteString) :
    StaysConsistent (c.decodeAll cb pieces) := by
  induction pieces generalizing c with
  | nil => exact hc
  | cons piece rest ih =>
      have hDecode := decode_consistent hFatal hc piece
      rw [decodeAll]
      rcases hRun : c.decode cb piece with f | ⟨t, ok⟩
      · rw [hRun] at hDecode
        exact hDecode
      rw [hRun] at hDecode
      have hAll := ih hDecode
      simp only [bind, Except.bind]
      rcases hRest : t.decodeAll cb rest with f | ⟨u, oks⟩
      · rw [hRest] at hAll
        exact hAll
      · rw [hRest] at hAll
        exact hAll

/-! ### The faults that are left -/

/-- A fault that the peer or the owner of the codec brings about: the object is not there, it is
of the other kind, the major version is not 1, or a content length cannot be converted. -/
def Fault.Provoked : Fault → Prop
  | .noData | .notResponse | .notRequest | .httpMajor | .contentLength _ => True
  | .parserAssertion | .headersCompleted | .outOfRange | .decodeLoop => False

theorem provoked_of_explains {isRequest : Bool} {a : Assembly} {f : Fault} (h : Explains cb isRequest a f) :
    f.Provoked := by
  cases f with
  | parserAssertion | headersCompleted | outOfRange | decodeLoop => exact h
  | noData | notResponse | notRequest | httpMajor | contentLength => trivial

theorem provoked_invariant (cb : Callbacks υ) :
    Invariant cb assembler (fun v => v.misplaced = false) Tracks (fun _ => True) Fault.Provoked
      (fun p _ _ v => Placed p v) (fun _ _ => True) where
  listens :=
    { ok := by
        intro a d c e hTracks _ hApply
        have hEnds : Impl.Ends cb a d c (d.apply cb c) := Impl.apply_ends hTracks c
        rw [hApply] at hEnds
        exact Impl.Accepts.tracks hTracks hEnds
      failed := fun _ _ _ => trivial
      fault := by
        intro a d c f hTracks hGood hApply
        have hEnds : Impl.Ends cb a d c (d.apply cb c) := Impl.apply_ends hTracks c
        rw [hApply] at hEnds
        exact provoked_of_explains (hEnds.resolve_left (by rw [hGood]; exact Bool.false_ne_true))
      always := fun _ => trivial }
  step hl h _ := step_placing hl h
  good h := h.unmisplaced
  cut _ h := placed_cut h
  error _ _ := ⟨{}, Impl.reset_tracks [] false, placed_fresh []⟩

/-- Whatever comes in, in whatever pieces, no assertion of the parser fails, no part of a target
lies outside it, no header comes after the headers, and the loop of `decode` ends. -/
theorem decodeAll_provoked (hFatal : cb.Fatal) (object : Message) (user : υ) (pieces : List ByteString)
    (f : Fault) (hFault : (HttpCodec.init object user).decodeAll cb pieces = .error f) : f.Provoked := by
  have hConsistent := decodeAll_consistent hFatal (c := HttpCodec.init object user)
    ⟨⟨rfl, rfl⟩, enter_regular_fresh, fresh_consistent⟩ pieces
  have hStart : Conducted assembler Tracks (fun p _ _ v => Placed p v) (HttpCodec.init object user) :=
    ⟨⟨rfl, rfl⟩, enter_regular_fresh, {}, Impl.reset_tracks (d := Impl.init object user) [] false, placed_fresh []⟩
  have hRun : Keeps assembler Tracks Fault.Provoked (fun p _ _ v => Placed p v)
      ((HttpCodec.init object user).decodeAll cb pieces) := decodeAll_keeps (provoked_invariant cb) hFatal hStart (fun _ _ => trivial)
  rw [hFault] at hRun hConsistent
  exact hRun.resolve_right hConsistent

/-- The second request has a content length that is no number. -/
theorem decodeAll_provoked_length :
    (HttpCodec.init (.request .fresh) ()).decodeAll handing
        [ofString "GET / HTTP/1.1\r\n\r\nGET /b HTTP/1.1\r\nconte", ofString "nt-length:\r\n\r\n"] =
      .error (.contentLength .invalidArgument) ∧ (Fault.contentLength .invalidArgument).Provoked := by
  have hFatal : handing.Fatal := fun _ _ => rfl
  have hFault : (HttpCodec.init (.request .fresh) ()).decodeAll handing
      [ofString "GET / HTTP/1.1\r\n\r\nGET /b HTTP/1.1\r\nconte", ofString "nt-length:\r\n\r\n"] =
        .error (.contentLength .invalidArgument) := eq_of_faultOf (by decide +kernel)
  exact ⟨hFault, decodeAll_provoked hFatal _ _ _ _ hFault⟩

end Doormat.Http
