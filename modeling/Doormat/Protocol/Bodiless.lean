import Doormat.Http.Framing
import Doormat.Protocol.Connection

/-! Responses without a body. The decoder of a client is not told which request a response
answers, so that only the header fields can keep a body away. -/
namespace Doormat.Protocol

open Bytes Doormat.Http Doormat.Parser

/-- The event announces a final response. A client takes a response with status 100 for an
interim one. -/
def announcesFinal : Event → Bool
  | .headersDone p _ => p.statusCode ≠ 100
  | _ => false

/-- The response with the fields `p`, announced after `before`, has no body: it answers a
`HEAD` request or has status 204 or 304. `methods` are those of the requests, in order. -/
def Bodiless (methods : List HttpMethod) (before : List Event) (p : Fields) : Prop :=
  methods[before.countP announcesFinal]? = some .HEAD ∨ p.statusCode = 204 ∨ p.statusCode = 304

namespace Connection

variable {app : Application} {fuel garbage : Nat} {role : Role} {c d : Connection}

/-- The decoder of the connection keeps the pace. -/
abbrev KeepsPace (c : Connection) : Prop := Conducted pacer InPace Settled c.codec

theorem KeepsPace.start (role : Role) (garbage : Nat) : KeepsPace (start role garbage) where
  ready := ⟨rfl, rfl⟩
  regular := enter_regular_fresh
  gathered := by
    refine ⟨.between, ⟨⟨{}, Impl.reset_tracks (d := Impl.init _ _) [] false⟩, .inr ?_⟩, ?_⟩
    · exact ⟨List.isChain_nil, fun _ _ hEv => absurd hEv (by simp [Connection.start, HttpCodec.init, Impl.init]),
        nofun, nofun⟩
    · exact .inr ⟨rfl, rfl, rfl, rfl⟩

theorem KeepsPace.mapHandler (hc : KeepsPace c) (f : Except Fault Http1 → Except Fault Http1) :
    KeepsPace (c.mapHandler f) where
  ready := ⟨hc.ready.errno, hc.ready.contentLen⟩
  regular := hc.regular
  gathered := by
    obtain ⟨a, ⟨⟨v, hTracks⟩, hPace⟩, hEnters⟩ := hc.gathered
    refine ⟨a, ⟨⟨v, { hTracks with }⟩, ?_⟩, hEnters⟩
    exact hPace.imp id fun h => { h with }

theorem KeepsPace.read (hc : KeepsPace c) {piece : ByteString}
    (hRun : c.read app fuel garbage piece = .ok d) : KeepsPace d := by
  unfold Connection.read at hRun
  split at hRun
  · cases hRun
    exact hc
  obtain ⟨⟨codec, ok⟩, hDecode, hRest⟩ := Http.bind_eq_ok.mp hRun
  have hKeeps : Keeps pacer InPace (fun _ => True) Settled
      (c.codec.decode (handlerCallbacks app fuel garbage) piece) :=
    decode_keeps (pace_invariant _) (fun _ _ => rfl) hc fun _ _ => trivial
  rw [hDecode] at hKeeps
  have hCodec : KeepsPace { codec } := hKeeps
  cases ok with
  | true =>
      cases hRest
      exact hCodec
  | false =>
      cases hRest
      exact hCodec.mapHandler _

theorem KeepsPace.run {ins : List Input} (hc : KeepsPace c) (hRun : c.run app fuel garbage ins = .ok d) :
    KeepsPace d := by
  induction ins generalizing c with
  | nil =>
      cases hRun
      exact hc
  | cons inp ins ih =>
      obtain ⟨e, hStep, hRest⟩ := Http.bind_eq_ok.mp hRun
      apply ih _ hRest
      cases inp with
      | read piece => exact hc.read hStep
      | op op =>
          cases hStep
          split
          · exact hc
          · exact hc.mapHandler _

/-- A run without errors, at the end of the bytes read. -/
theorem KeepsPace.settled (hc : KeepsPace c) (hFlawless : ∀ ev ∈ c.codec.impl.trace, ¬ ev.IsError) :
    c.codec.impl.trace.IsChain Prompt ∧ (∀ ev ∈ c.codec.impl.trace.getLast?, ¬ ev.Awaits) ∧
      ((∃ ev ∈ c.codec.impl.trace.getLast?, ev = .completion) →
        c.codec.parser.toFields = fresh.toFields) := by
  obtain ⟨a, ⟨-, hPace⟩, hEnters⟩ := hc.gathered
  have hPace : Paces a c.codec.impl :=
    hPace.resolve_left fun ⟨ev, hEv, hError⟩ => hFlawless ev hEv hError
  have hIdle : a = .within ∨ a = .between ∧ c.codec.parser.toFields = fresh.toFields := by
    unfold Enters at hEnters
    cases hMark : startMark c.codec.parser.state with
    | none =>
        rw [hMark] at hEnters
        exact hEnters.imp id fun h => ⟨h.1, h.2.1⟩
    | some m =>
        rw [hMark] at hEnters
        have hGo : a.go ≠ .astray := by
          intro hAstray
          rcases hEnters with hEq | ⟨hEq, -⟩
          · cases hAstray.symm.trans hEq
          · cases hAstray.symm.trans hEq
        exact .inl (Pace.go_cases hGo)
  refine ⟨hPace.prompt, ?_, ?_⟩
  · apply hPace.steady
    rintro rfl
    rcases hIdle with hEq | ⟨hEq, -⟩
    · cases hEq
    · cases hEq
  · rintro ⟨ev, hEv, hCompletion⟩
    rcases hIdle with hWithin | ⟨-, hFresh⟩
    · exact absurd hCompletion (hPace.within hWithin ev hEv)
    · exact hFresh

/-- As long as the header fields of the responses without a body say that there is none,
each ends with its headers, and the next byte begins the next response. -/
theorem bodiless_responses_end (app : Application) (fuel garbage : Nat) (methods : List HttpMethod)
    (ins : List Input) (c : Connection) (hRun : (start .client garbage).run app fuel garbage ins = .ok c)
    (hReading : c.reading = true)
    (hFields : ∀ before p m after, c.codec.impl.trace = before ++ .headersDone p m :: after →
      Bodiless methods before p → p.endsWithHeaders = true) :
    (∀ before p m after, c.codec.impl.trace = before ++ .headersDone p m :: after →
      Bodiless methods before p → ∃ rest, after = .completion :: rest) ∧
      ∀ before, c.codec.impl.trace = before ++ [.completion] →
        c.codec.parser.toFields = fresh.toFields := by
  have hFlawless := ((Sane.start .client garbage).run hRun).flawless hReading
  obtain ⟨hPrompt, hSteady, hFresh⟩ := ((KeepsPace.start .client garbage).run hRun).settled hFlawless
  constructor
  · intro before p m after hTrace hBodiless
    have hEnds := hFields before p m after hTrace hBodiless
    rw [hTrace] at hPrompt hSteady
    cases after with
    | nil =>
        rw [List.getLast?_concat] at hSteady
        exact absurd hEnds (hSteady _ rfl)
    | cons ev rest =>
        have hNext : Prompt (.headersDone p m) ev :=
          (List.isChain_append_cons_cons.mp hPrompt).2.1
        exact ⟨rest, by rw [hNext hEnds]⟩
  · intro before hTrace
    apply hFresh
    rw [hTrace, List.getLast?_concat]
    exact ⟨_, rfl, rfl⟩

/-- A request is created, sent and ended. -/
def requests (id : Nat) (method : HttpMethod) : List Input :=
  let r : HttpRequest := { HttpRequest.fresh with
    toStructuredData := HttpRequest.fresh.toStructuredData.setProtocol .HTTP11, method }
  [.op (.user .create), .op (.user (.headers id (.request r))), .op (.user (.finish id))]

/-- Every message that the trace announces ends with its headers. -/
def allEnd (trace : List Event) : Bool :=
  trace.all fun
    | .headersDone p _ => p.endsWithHeaders
    | _ => true

theorem endsWithHeaders_of_allEnd {trace before after : List Event} {p : Fields} {m : Message}
    (h : allEnd trace = true) (hTrace : trace = before ++ .headersDone p m :: after) :
    p.endsWithHeaders = true := by
  subst hTrace
  exact List.all_eq_true.mp h _ (List.mem_append_right _ List.mem_cons_self)

/-- Two responses without a body: one to a `HEAD`, and one with status 304. -/
theorem bodiless_responses_end_pair :
    ∃ c : Connection,
      (start .client 0).run {} 9 0 (requests 0 .HEAD ++ requests 1 .GET ++
        [.read (response "x" ++ ofString "HTTP/1.1 304 Not Modified\r\n\r\n")]) = .ok c ∧
      c.codec.impl.trace.count .completion = 2 ∧
      (∀ before p m after, c.codec.impl.trace = before ++ .headersDone p m :: after →
        Bodiless [.HEAD, .GET] before p → ∃ rest, after = .completion :: rest) ∧
        ∀ before, c.codec.impl.trace = before ++ [.completion] →
          c.codec.parser.toFields = fresh.toFields := by
  have hEnds : ends (fun c _ => c.reading && decide (c.codec.impl.trace.count .completion = 2) &&
      allEnd c.codec.impl.trace) (requests 0 .HEAD ++ requests 1 .GET ++
        [.read (response "x" ++ ofString "HTTP/1.1 304 Not Modified\r\n\r\n")]) = true := by
    decide +kernel
  obtain ⟨c, h, hRun, -, hBoth⟩ := ends_elim hEnds
  obtain ⟨hFront, hAll⟩ := Bool.and_eq_true_iff.mp hBoth
  obtain ⟨hReading, hTwo⟩ := Bool.and_eq_true_iff.mp hFront
  refine ⟨c, hRun, of_decide_eq_true hTwo, ?_⟩
  exact bodiless_responses_end {} 9 0 [.HEAD, .GET] _ c hRun hReading fun _ _ _ _ hTrace _ =>
    endsWithHeaders_of_allEnd hAll hTrace

/-- The trace is that of one response whose body is `bytes`. -/
def carries (bytes : ByteString) : List Event → Bool
  | [.begin, .header _ _, .headersDone _ _, .body body, .completion] => body = bytes
  | _ => false

theorem carries_elim {bytes : ByteString} {trace : List Event} (h : carries bytes trace = true) :
    ∃ key value p m, trace = [.begin, .header key value] ++
      .headersDone p m :: [.body bytes, .completion] := by
  unfold carries at h
  split at h
  · obtain rfl := of_decide_eq_true h
    exact ⟨_, _, _, _, rfl⟩
  · cases h

/-- The response to a `HEAD` states the length that a `GET` would have got: the response to
the next request becomes its body. -/
theorem head_response_takes_next :
    ∃ (c : Connection) (h : Http1) (before after : List Event) (p : Fields) (m : Message),
      (start .client 0).run {} 9 0 (requests 0 .HEAD ++ requests 1 .GET ++
        [.read (ofString "HTTP/1.1 200 OK\r\ncontent-length: 44\r\n\r\n" ++ response "x")]) = .ok c ∧
      c.handler = .ok h ∧ c.reading = true ∧ ofString "HEAD / HTTP/1.1" <+: h.serialised ∧
      c.codec.impl.trace = before ++ .headersDone p m :: after ∧ Bodiless [.HEAD, .GET] before p ∧
      after = [.body (response "x"), .completion] ∧ (h.remotes 1).received = [] := by
  have hEnds : ends (fun c h => c.reading && (ofString "HEAD / HTTP/1.1").isPrefixOf h.serialised &&
      carries (response "x") c.codec.impl.trace && (h.remotes 1).received.isEmpty)
      (requests 0 .HEAD ++ requests 1 .GET ++
        [.read (ofString "HTTP/1.1 200 OK\r\ncontent-length: 44\r\n\r\n" ++ response "x")]) = true := by
    decide +kernel
  obtain ⟨c, h, hRun, hHandler, hAll⟩ := ends_elim hEnds
  obtain ⟨hAll, hNone⟩ := Bool.and_eq_true_iff.mp hAll
  obtain ⟨hAll, hCarries⟩ := Bool.and_eq_true_iff.mp hAll
  obtain ⟨hReading, hHead⟩ := Bool.and_eq_true_iff.mp hAll
  obtain ⟨key, value, p, m, hTrace⟩ := carries_elim hCarries
  exact ⟨c, h, [.begin, .header key value], _, p, m, hRun, hHandler, hReading,
    List.isPrefixOf_iff_prefix.mp hHead, hTrace, .inl rfl, rfl, List.isEmpty_iff.mp hNone⟩

end Connection

end Doormat.Protocol
