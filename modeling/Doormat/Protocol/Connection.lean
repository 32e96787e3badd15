import Doormat.Http.Independence
import Doormat.Protocol.Queues

/-! `handler_http1` with its decoder, from the bytes that are read to the events of the
remote objects: nothing of one message is visible in a later one. -/
namespace Doormat.Protocol

open Bytes Doormat.Http

/-! ### The decoder of a handler -/

/-- What the application does in its callbacks: in `on_request_sent`, and in the ones that
are called within a read, `user_feedback` and `on_error`. -/
structure Application where
  sent : Http1 → List UserOp := fun _ => []
  reacts : Http1 → List UserOp := fun _ => []

/-- The application is called back within a read. -/
def Http1.react (app : Application) (fuel : Nat) (c : Http1) : Except Fault Http1 :=
  (app.reacts c).foldlM (userOp (notifyLocalContent app.sent fuel)) c

/-- The callbacks that `start` registers with the decoder. All messages are decoded into
`current_decoded_object`. -/
def handlerCallbacks (app : Application) (fuel garbage : Nat) : Callbacks (Except Fault Http1) where
  begin m user := (some m, user >>= fun c => c.decodingStart.react app fuel)
  header m user :=
    match user with
    | .error f => (m, .error f)
    | .ok c =>
        let (m, c) := c.decodedHeaders garbage m
        (m, c.react app fuel)
  body bytes user := user >>= fun c => (c.decodedBody bytes).react app fuel
  trailer key value user := user >>= fun c => (c.decodedTrailer key value).react app fuel
  completion user := user >>= fun c => c.decodingEnd.react app fuel
  error _ user := (user >>= fun c => c.decodingFailure >>= Http1.react app fuel, true)

/-- A step of the handler that the decoder calls. -/
def Op.decoded : Op → Bool
  | .decodingStart | .decodedHeaders _ | .decodedBody _ | .decodedTrailer _ _ | .decodingEnd
  | .decodingFailure => true
  | _ => false

/-- What happens to a connection: bytes are read, or anything else. -/
inductive Input
  | read (piece : ByteString)
  | op (op : Op)

/-- The bytes that are read, piece by piece. -/
def pieces : List Input → List ByteString
  | [] => []
  | .read piece :: ins => piece :: pieces ins
  | .op _ :: ins => pieces ins

/-- A handler with its decoder. The handler is what the decoder's callbacks work on. After a
read that fails the connector reads no more. -/
structure Connection where
  codec : HttpCodec (Except Fault Http1)
  reading : Bool := true

namespace Connection

def handler (c : Connection) : Except Fault Http1 := c.codec.impl.user

def mapHandler (f : Except Fault Http1 → Except Fault Http1) (c : Connection) : Connection :=
  { c with codec := { c.codec with impl := { c.codec.impl with user := f c.codec.impl.user } } }

/-- A new connection. -/
def start (role : Role) (garbage : Nat) : Connection where
  codec := .init (Http1.freshObject garbage role) (.ok { role := role })

/-- `on_read`, and what the connector does with its result. -/
def read (app : Application) (fuel garbage : Nat) (c : Connection) (piece : ByteString) :
    Except Http.Fault Connection :=
  if !c.reading then .ok c
  else do
    let (codec, ok) ← c.codec.decode (handlerCallbacks app fuel garbage) piece
    .ok (if ok then { codec } else { codec, reading := false : Connection }.mapHandler (·.map Http1.stop))

def step (app : Application) (fuel garbage : Nat) (c : Connection) :
    Input → Except Http.Fault Connection
  | .read piece => c.read app fuel garbage piece
  | .op op => .ok (if op.decoded then c else c.mapHandler (· >>= fun h => h.step app.sent fuel op))

/-- A run. -/
def run (app : Application) (fuel garbage : Nat) (c : Connection) (ins : List Input) :
    Except Http.Fault Connection := ins.foldlM (step app fuel garbage) c

end Connection

/-! ### What the handler keeps within a read -/

/-- The handler meets `P`, unless it has faulted. -/
def Holding (P : Http1 → Prop) (user : Except Fault Http1) : Prop := ∀ c, user = .ok c → P c

variable {P Q : Http1 → Prop} {W : Http1 → WriteResult → Prop}

theorem Holding.bind {user : Except Fault Http1} {f : Http1 → Except Fault Http1}
    (h : Holding P user) (hf : ∀ {c c'}, P c → f c = .ok c' → Q c') : Holding Q (user >>= f) := by
  intro c' hRun
  obtain ⟨c, hUser, hRun⟩ := bind_eq_ok.mp hRun
  exact hf (h c hUser) hRun

section Reads

variable (h : Steady P W) (app : Application) (fuel garbage : Nat) {user : Except Fault Http1}
include h

theorem Holding.begin (m : Message) (hUser : Holding P user) :
    Holding P ((handlerCallbacks app fuel garbage).begin m user).2 :=
  hUser.bind fun hc hRun => h.calls _ _ _ (h.decodingStart hc) hRun

theorem Holding.body (bytes : ByteString) (hUser : Holding P user) :
    Holding P ((handlerCallbacks app fuel garbage).body bytes user) :=
  hUser.bind fun hc hRun => h.calls _ _ _ (h.remote.decodedBody bytes hc) hRun

theorem Holding.trailer (key value : ByteString) (hUser : Holding P user) :
    Holding P ((handlerCallbacks app fuel garbage).trailer key value user) :=
  hUser.bind fun hc hRun => h.calls _ _ _ (h.remote.decodedTrailer key value hc) hRun

theorem Holding.completion (hUser : Holding P user) :
    Holding P ((handlerCallbacks app fuel garbage).completion user) :=
  hUser.bind fun hc hRun => h.calls _ _ _ (h.remote.decodingEnd hc) hRun

theorem Holding.error (e : Parser.Errno) (hUser : Holding P user) :
    Holding P ((handlerCallbacks app fuel garbage).error e user).1 := by
  refine Holding.bind hUser ?_
  intro c c' hc hRun
  obtain ⟨d, hFailure, hRun⟩ := bind_eq_ok.mp hRun
  exact h.calls _ _ _ (h.decodingFailure hc hFailure) hRun

end Reads

/-- Whatever the decoder's callbacks keep beside, the headers are the business of `hHeaders`. -/
theorem Holding.header (h : Steady Q W) (app : Application) (fuel garbage : Nat) (m : Message)
    {user : Except Fault Http1} (hUser : Holding P user)
    (hHeaders : ∀ c, P c → Q (c.decodedHeaders garbage m).2) :
    Holding Q ((handlerCallbacks app fuel garbage).header m user).2 := by
  rcases user with f | c
  · intro c' hRun
    cases hRun
  · intro c' hRun
    exact h.calls _ _ _ (hHeaders c (hUser c rfl)) hRun

/-- A step that the decoder does not call. -/
theorem Holding.op (h : Steady P fun _ _ => True) (sent : Http1 → List UserOp) (fuel : Nat) {op : Op}
    (hOp : op.decoded = false) {user : Except Fault Http1} (hUser : Holding P user) :
    Holding P (user >>= fun c => c.step sent fuel op) := by
  have hKept := h.locallyKept fun _ _ => True
  refine Holding.bind hUser ?_
  intro c c' hc hRun
  cases op with
  | user op => exact hKept.userOp (hKept.notifyLocalContent (h.callbackKeeps sent)) trivial hc hRun
  | posted => exact hKept.runPosted (hKept.notifyLocalContent (h.callbackKeeps sent)) hc hRun
  | decodingStart => cases hOp
  | decodedHeaders m => cases hOp
  | decodedBody bytes => cases hOp
  | decodedTrailer key value => cases hOp
  | decodingEnd => cases hOp
  | decodingFailure => cases hOp
  | written r =>
      cases hRun
      exact h.written r trivial hc
  | readFailed =>
      cases hRun
      exact h.stop hc
  | connectorLost =>
      cases hRun
      split
      case isTrue hNone => exact h.loseConnector (Option.isNone_iff_eq_none.mp hNone) hc
      case isFalse => exact hc

theorem Holding.stop (h : Steady P W) {user : Except Fault Http1} (hUser : Holding P user) :
    Holding P (user.map Http1.stop) := by
  rcases user with f | c
  · intro c' hRun
    cases hRun
  · intro c' hRun
    cases hRun
    exact h.stop (hUser c rfl)

/-! ### Discarded messages -/

namespace Http1

/-- A message has found no remote object waiting. -/
def Discards (role : Role) (c : Http1) : Prop := c.role ≠ role ∨ ∃ m, .received m false ∈ c.log

theorem Discards.record {role : Role} {c : Http1} (h : c.Discards role) (e : Happening) :
    (c.record e).Discards role :=
  h.imp_right fun ⟨m, hm⟩ => ⟨m, List.mem_append_left _ hm⟩

theorem Discards.stable (role : Role) : Stable (Discards role) fun _ _ => True where
  persistentSet b h := h.record (.persistentSet b)
  serialise id bytes h := h.record (.serialised id bytes)
  sent _ m h := h.record (.sent m.data)
  feedback id h := h.record (.ended id)
  removed id h := h.record (.removed id)
  doWrite h := by
    unfold Discards at h ⊢
    rwa [doWrite_role, doWrite_log]
  written r _ h := by
    unfold Discards at h ⊢
    rwa [written_role, written_log]
  shows _ m _ h := h.record (.received m true)
  received m taken h := h.record (.received m taken)

theorem getCurrent_role (c : Http1) : c.getCurrent.2.role = c.role := by
  unfold getCurrent
  split
  · rfl
  split
  · rfl
  split
  · rfl
  · rfl

/-- A message that is not discarded leaves a new object. -/
theorem decodedHeaders_clears (role : Role) (garbage : Nat) (m : Message) (c : Http1) :
    (c.decodedHeaders garbage m).2.Discards role ∨
      (c.decodedHeaders garbage m).1 = freshObject garbage role := by
  by_cases hRole : c.role = role
  case neg =>
    have hOther : c.Discards role := .inl hRole
    exact .inl ((Discards.stable role).decodedHeaders garbage m hOther)
  have hSame := c.getCurrent_role
  unfold decodedHeaders
  rcases hCase : c.getCurrent with ⟨current, d⟩
  rw [hCase] at hSame
  cases current with
  | none => exact .inl (.inr ⟨m.data, List.mem_append_right _ (List.mem_singleton.mpr rfl)⟩)
  | some id =>
      right
      have hRole' : d.role = role := hSame.trans hRole
      dsimp only
      rw [← hRole']
      split
      · rfl
      · rfl

end Http1

theorem handler_reuses (app : Application) (fuel garbage : Nat) (role : Role) :
    Reuses (handlerCallbacks app fuel garbage) (Http1.freshObject garbage role)
      (Holding (Http1.Discards role)) where
  object _ _ := rfl
  clears m user := by
    rcases user with f | c
    · left
      intro c hRun
      cases hRun
    · refine (Http1.decodedHeaders_clears role garbage m c).imp_left ?_
      intro hDiscards c' hRun
      exact (Http1.Discards.stable role).calls _ _ _ hDiscards hRun
  begin m _ h := h.begin (Http1.Discards.stable role).toSteady app fuel garbage m
  header m _ h := h.header (Http1.Discards.stable role).toSteady app fuel garbage m fun _ hc =>
    (Http1.Discards.stable role).decodedHeaders garbage m hc
  body bytes _ h := h.body (Http1.Discards.stable role).toSteady app fuel garbage bytes
  trailer key value _ h := h.trailer (Http1.Discards.stable role).toSteady app fuel garbage key value
  completion h := h.completion (Http1.Discards.stable role).toSteady app fuel garbage
  error e _ h := h.error (Http1.Discards.stable role).toSteady app fuel garbage e

/-- So it furnishes every message with a new object. -/
theorem handler_furnishes (app : Application) (fuel garbage : Nat) (role : Role) :
    Furnishes (handlerCallbacks app fuel garbage) (Http1.freshObject garbage role)
      (fun m => m = Http1.freshObject garbage role) (Holding (Http1.Discards role)) Event.IsError :=
  (handler_reuses app fuel garbage role).furnishes

/-! ### Delivered preambles -/

namespace Http1

/-- Every preamble that a remote object has been given is one of `S`. -/
def Shown (S : Nat → Message → Prop) (c : Http1) : Prop :=
  ∀ id m, .headers m ∈ (c.remotes id).received → S id m

theorem Shown.steady (S : Nat → Message → Prop) : Steady (Shown S) fun _ _ => True where
  setRemote {c} id r hShows h := by
    intro j m hm
    by_cases hj : j = id
    · subst hj
      apply h j m (hShows m _)
      simpa [setRemote] using hm
    · apply h j m
      simpa [setRemote, Function.update_of_ne hj] using hm
  doWrite h := by
    unfold Shown at h ⊢
    rwa [doWrite_remotes]
  written r _ h := by
    unfold Shown at h ⊢
    rwa [written_remotes]

theorem Shown.mono {S T : Nat → Message → Prop} {c : Http1} (h : c.Shown S)
    (hST : ∀ id m, S id m → T id m) : c.Shown T := fun id m hm => hST id m (h id m hm)

/-- The message with the keepalive setting of the connection. -/
def Persisting (m₀ m : Message) : Prop := ∃ b, m = m₀.setData (m₀.data.setKeepalive b)

/-- One more preamble is given. -/
theorem Shown.give {S : Nat → Message → Prop} {c : Http1} (h : c.Shown S) (id : Nat) {m : Message}
    (hm : S id m) : (c.remoteEvent id (.headers m)).Shown S := by
  intro j m' hMem
  by_cases hj : j = id
  · subst hj
    have hReceived : .headers m' ∈ (c.remotes j).received ++ [.headers m] := by
      simpa [remoteEvent, setRemote] using hMem
    rcases List.mem_append.mp hReceived with hOld | hNew
    · exact h j m' hOld
    · cases List.mem_singleton.mp hNew
      exact hm
  · apply h j m'
    simpa [remoteEvent, setRemote, Function.update_of_ne hj] using hMem

/-- The headers event of a message is the message but for the keepalive setting. -/
theorem Shown.decodedHeaders {S : Nat → Message → Prop} {c : Http1} (h : c.Shown S) (garbage : Nat)
    (m : Message) :
    (c.decodedHeaders garbage m).2.Shown fun id m' => S id m' ∨ Persisting m m' := by
  have hCurrent := (Shown.steady S).remote.getCurrent h
  rw [decodedHeaders_eq]
  rcases hCase : c.getCurrent with ⟨current, d⟩
  rw [hCase] at hCurrent
  have hOld : d.Shown fun id m' => S id m' ∨ Persisting m m' := hCurrent.mono fun _ _ hS => .inl hS
  cases current with
  | none => exact hOld
  | some id =>
      dsimp only
      split
      · exact Shown.give (c := d.takeDecoded m.data true) hOld id (.inr ⟨_, rfl⟩)
      split
      · exact hOld
      · exact Shown.give (c := { d.takeDecoded m.data true with managingContinue := isContinue m }) hOld
          id (.inr ⟨_, rfl⟩)

end Http1

/-- A preamble of `trace`, but for the keepalive setting. -/
def Announced (trace : List Event) (m : Message) : Prop :=
  ∃ p m₀, .headersDone p m₀ ∈ trace ∧ Http1.Persisting m₀ m

/-- Every preamble that a remote object has been given is an `old` one or one of `trace`. -/
def Given (old : Nat → Message → Prop) (user : Except Fault Http1) (trace : List Event) : Prop :=
  Holding (Http1.Shown fun id m => old id m ∨ Announced trace m) user

theorem Announced.more {trace : List Event} {m : Message} (ev : Event) (h : Announced trace m) :
    Announced (trace ++ [ev]) m := by
  obtain ⟨p, m₀, hMem, hPersisting⟩ := h
  exact ⟨p, m₀, List.mem_append_left _ hMem, hPersisting⟩

theorem handler_gives (app : Application) (fuel garbage : Nat) (old : Nat → Message → Prop) :
    Gives (handlerCallbacks app fuel garbage) (Given old) where
  more ev h c hc := (h c hc).mono fun _ _ hm => hm.imp_right (Announced.more ev)
  begin m _ _ h := Holding.begin (Http1.Shown.steady _) app fuel garbage m h
  header p m _ _ h := by
    refine Holding.header (Http1.Shown.steady _) app fuel garbage m h ?_
    intro c hc
    refine (hc.decodedHeaders garbage m).mono ?_
    rintro id m' ((hOld | hAnnounced) | hPersisting)
    · exact .inl hOld
    · exact .inr (hAnnounced.more _)
    · exact .inr ⟨p, m, List.mem_append_right _ (List.mem_singleton.mpr rfl), hPersisting⟩
  body bytes _ _ h := Holding.body (Http1.Shown.steady _) app fuel garbage bytes h
  trailer key value _ _ h := Holding.trailer (Http1.Shown.steady _) app fuel garbage key value h
  completion h := Holding.completion (Http1.Shown.steady _) app fuel garbage h
  error e _ _ h := Holding.error (Http1.Shown.steady _) app fuel garbage e h

/-! ### The connection between two messages -/

namespace Connection

variable {app : Application} {fuel garbage : Nat} {role : Role} {c d : Connection}

/-- Where the callbacks of a message come, what is known of the codec. -/
abbrev Conducts (R : Assembly → Impl (Except Fault Http1) → Prop) (c : Connection) : Prop :=
  Conducted assembler R (fun p _ _ v => Placed p v) c.codec

theorem Conducts.start {R : Assembly → Impl (Except Fault Http1) → Prop}
    (h : R {} (Impl.init (Http1.freshObject garbage role) (.ok { role := role }))) :
    Conducts R (start role garbage) where
  ready := ⟨rfl, rfl⟩
  regular := enter_regular_fresh
  gathered := ⟨{}, h, placed_fresh []⟩

theorem Conducts.mapHandler {R : Assembly → Impl (Except Fault Http1) → Prop} (hc : Conducts R c)
    {f : Except Fault Http1 → Except Fault Http1}
    (hR : ∀ a, R a c.codec.impl → R a { c.codec.impl with user := f c.codec.impl.user }) :
    Conducts R (c.mapHandler f) where
  ready := ⟨hc.ready.errno, hc.ready.contentLen⟩
  regular := hc.regular
  gathered := hc.gathered.imp fun a h => ⟨hR a h.1, h.2⟩

/-- What is known of a connection. -/
structure Sane (role : Role) (garbage : Nat) (c : Connection) : Prop where
  reused : Conducts (Holds (Http1.freshObject garbage role) (Holding (Http1.Discards role))) c
  versioned : Conducts (fun a d => Tracks a d ∧ Versioned d) c
  owned : Conducts (fun a d => Tracks a d ∧ Holding (fun h => h.role = role) d.user) c
  flawless : c.reading = true → ∀ ev ∈ c.codec.impl.trace, ¬ ev.IsError

theorem handler_persists (app : Application) (fuel garbage : Nat) {P : Http1 → Prop}
    (h : Stable P fun _ _ => True) : Persists (handlerCallbacks app fuel garbage) (Holding P) where
  begin m _ hUser := hUser.begin h.toSteady app fuel garbage m
  header m _ hUser := hUser.header h.toSteady app fuel garbage m fun _ hc =>
    h.decodedHeaders garbage m hc
  body bytes _ hUser := hUser.body h.toSteady app fuel garbage bytes
  trailer key value _ hUser := hUser.trailer h.toSteady app fuel garbage key value
  completion hUser := hUser.completion h.toSteady app fuel garbage
  error e _ hUser := hUser.error h.toSteady app fuel garbage e

theorem Sane.start (role : Role) (garbage : Nat) : Sane role garbage (start role garbage) := by
  have hTracks : Tracks {} (Impl.init (Http1.freshObject garbage role) (.ok { role := role } : Except Fault Http1)) :=
    Impl.reset_tracks (d := Impl.init _ _) [] false
  constructor
  · apply Conducts.start
    refine ⟨hTracks, .inr ⟨fun _ => rfl, fun _ => ⟨rfl, rfl⟩⟩⟩
  · apply Conducts.start
    refine ⟨hTracks, ?_, ?_, ?_⟩
    · exact fun _ _ hMem => absurd hMem List.not_mem_nil
    · exact fun hSet => absurd rfl hSet
    · exact fun _ _ _ hMem => absurd hMem List.not_mem_nil
  · apply Conducts.start
    refine ⟨hTracks, ?_⟩
    intro c hc
    cases hc
    rfl
  · exact fun _ _ hMem => absurd hMem List.not_mem_nil

theorem Sane.mapHandler (h : Sane role garbage c) {f : Except Fault Http1 → Except Fault Http1}
    (hKeeps : ∀ {P : Http1 → Prop}, (Steady P fun _ _ => True) → ∀ {user}, Holding P user → Holding P (f user)) :
    Sane role garbage (c.mapHandler f) where
  reused := by
    apply h.reused.mapHandler
    intro a hHolds
    refine ⟨{ hHolds.tracks with }, ?_⟩
    rcases hHolds.blank with hSpoilt | hBlank
    · exact .inl (hSpoilt.mono (hKeeps (Http1.Discards.stable role).toSteady) fun _ => id)
    · exact .inr ⟨hBlank.object, hBlank.target⟩
  versioned := by
    apply h.versioned.mapHandler
    intro a hBoth
    exact ⟨{ hBoth.1 with }, hBoth.2.announced, hBoth.2.chosen, hBoth.2.unset⟩
  owned := by
    apply h.owned.mapHandler
    intro a hBoth
    exact ⟨{ hBoth.1 with }, hKeeps (Http1.role_stable role).toSteady hBoth.2⟩
  flawless := h.flawless

theorem Conducts.decode {R : Assembly → Impl (Except Fault Http1) → Prop}
    {good : Assembly → Prop} {Always : Impl (Except Fault Http1) → Prop} {F : Http.Fault → Prop}
    (hInv : Invariant (handlerCallbacks app fuel garbage) assembler good R Always F
      (fun p _ _ v => Placed p v) fun _ _ => True)
    (hc : Conducts R c) {piece : ByteString} {codec : HttpCodec (Except Fault Http1)} {ok : Bool}
    (hRun : c.codec.decode (handlerCallbacks app fuel garbage) piece = .ok (codec, ok))
    (reading : Bool) : Conducts R { codec, reading } := by
  have hKeeps : Keeps assembler R F (fun p _ _ v => Placed p v)
      (c.codec.decode (handlerCallbacks app fuel garbage) piece) :=
    decode_keeps hInv (fun _ _ => rfl) hc fun _ _ => trivial
  rw [hRun] at hKeeps
  exact hKeeps

theorem Sane.read (h : Sane role garbage c) {piece : ByteString}
    (hRun : c.read app fuel garbage piece = .ok d) : Sane role garbage d := by
  unfold Connection.read at hRun
  split at hRun
  · cases hRun
    exact h
  case isFalse hReading =>
    have hReading : c.reading = true := by simpa using hReading
    obtain ⟨⟨codec, ok⟩, hDecode, hRest⟩ := Http.bind_eq_ok.mp hRun
    have hReused := fun reading =>
      h.reused.decode (reuse_invariant (handler_reuses app fuel garbage role)) hDecode reading
    have hVersioned := fun reading => h.versioned.decode (version_invariant _) hDecode reading
    have hOwned := fun reading => h.owned.decode
      (persists_invariant (handler_persists app fuel garbage (Http1.role_stable role))) hDecode reading
    cases ok with
    | true =>
        cases hRest
        refine ⟨hReused _, hVersioned _, hOwned _, ?_⟩
        rintro - ev hEv ⟨err, rfl⟩
        obtain ⟨a, hHolds, -⟩ := h.reused.gathered
        obtain ⟨p, cs, d, -, hReplay, rfl⟩ :=
          emit_of_decode (fun _ _ => rfl) h.reused.ready h.reused.regular hDecode
        exact h.flawless hReading _ (replay_error_mem hHolds.tracks hReplay hEv) ⟨err, rfl⟩
    | false =>
        cases hRest
        have hSane : Sane role garbage { codec, reading := false } :=
          ⟨hReused _, hVersioned _, hOwned _, fun hReading => absurd hReading Bool.false_ne_true⟩
        exact hSane.mapHandler fun hSteady _ hUser => hUser.stop hSteady

theorem Sane.step (h : Sane role garbage c) {inp : Input} (hRun : c.step app fuel garbage inp = .ok d) :
    Sane role garbage d := by
  cases inp with
  | read piece => exact h.read hRun
  | op op =>
      cases hRun
      split
      case isTrue => exact h
      case isFalse hOp =>
        apply h.mapHandler
        intro P hSteady user hUser
        exact hUser.op hSteady app.sent fuel (by simpa using hOp)

theorem Sane.run {ins : List Input} (h : Sane role garbage c)
    (hRun : c.run app fuel garbage ins = .ok d) : Sane role garbage d := by
  induction ins generalizing c with
  | nil =>
      cases hRun
      exact h
  | cons inp ins ih =>
      obtain ⟨e, hStep, hRest⟩ := Http.bind_eq_ok.mp hRun
      exact ih (h.step hStep) hRest

/-! ### The connection beside a codec on its own -/

/-- What a codec on its own makes of the rest of a run, next to the one of the connection. -/
def ahead (blank : Message) (ins : List Input) (c : Connection) (e : Impl Unit) :
    Except Http.Fault (HttpCodec Unit) :=
  if c.reading then (c.codec.beside e).decodeWhile (.alone blank) (pieces ins)
  else .ok (c.codec.beside e)

variable {version : ProtoVersion} {past : List Event} {old : Nat → Message → Prop}
  {r : Except Http.Fault (HttpCodec Unit)}

/-- What happens outside of reads does not matter. -/
theorem abreast_mapHandler {f : Impl Unit → Except Http.Fault (HttpCodec Unit)}
    {g : Except Fault Http1 → Except Fault Http1}
    (hKeeps : ∀ {P : Http1 → Prop}, (Steady P fun _ _ => True) → ∀ {user}, Holding P user → Holding P (g user))
    (h : Abreast (Holding (Http1.Discards role)) version past (Given old) f c.codec.impl r) :
    Abreast (Holding (Http1.Discards role)) version past (Given old) f (c.mapHandler g).codec.impl r := by
  rcases h with hSpoilt | ⟨e, rfl, hBeside⟩
  · exact .inl (hSpoilt.mono (hKeeps (Http1.Discards.stable role).toSteady) fun _ => id)
  · exact .inr ⟨e, rfl, hBeside.setUser (hKeeps (Http1.Shown.steady _) hBeside.given_user)⟩

theorem abreast_run {ins : List Input} (hc : c.codec.Ready) (hSound : Sound c.codec.impl)
    (h : Abreast (Holding (Http1.Discards role)) version past (Given old)
      (c.ahead (Http1.freshObject garbage role) ins) c.codec.impl r)
    (hRun : c.run app fuel garbage ins = .ok d) :
    Abreast (Holding (Http1.Discards role)) version past (Given old)
      (fun e => .ok (d.codec.beside e)) d.codec.impl r := by
  induction ins generalizing c with
  | nil =>
      cases hRun
      have hAhead : d.ahead (Http1.freshObject garbage role) [] = fun e => .ok (d.codec.beside e) := by
        funext e
        unfold ahead
        split
        · rfl
        · rfl
      rwa [hAhead] at h
  | cons inp ins ih =>
      obtain ⟨c', hStep, hRest⟩ := Http.bind_eq_ok.mp hRun
      cases inp with
      | op op =>
          cases hStep
          split at hRest
          case isTrue => exact ih hc hSound h hRest
          case isFalse hOp =>
            apply ih (c := c.mapHandler _) ⟨hc.errno, hc.contentLen⟩ _ _ hRest
            · obtain ⟨a, hTracks⟩ := hSound
              exact ⟨a, { hTracks with }⟩
            · apply abreast_mapHandler _ h
              intro P hSteady user hUser
              exact hUser.op hSteady app.sent fuel (by simpa using hOp)
      | read piece =>
          have hRead : c.read app fuel garbage piece = .ok c' := hStep
          unfold Connection.read at hRead
          split at hRead
          case isTrue hStopped =>
            cases hRead
            have hStopped : c.reading = false := by simpa using hStopped
            apply ih hc hSound _ hRest
            have hAhead : c.ahead (Http1.freshObject garbage role) (.read piece :: ins) =
                c.ahead (Http1.freshObject garbage role) ins := by
              funext e
              simp [ahead, hStopped]
            rwa [hAhead] at h
          case isFalse hReading =>
            have hReading : c.reading = true := by simpa using hReading
            obtain ⟨⟨codec, ok⟩, hDecode, hAfter⟩ := Http.bind_eq_ok.mp hRead
            have hAhead : c.ahead (Http1.freshObject garbage role) (.read piece :: ins) = fun e =>
                (c.codec.beside e).decodeLoop (.alone (Http1.freshObject garbage role)) piece.length piece >>= fun x =>
                  if x.2 then x.1.decodeWhile (.alone (Http1.freshObject garbage role)) (pieces ins)
                  else .ok x.1 := by
              funext e
              simp only [ahead, hReading, if_true]
              rfl
            rw [hAhead] at h
            obtain ⟨⟨hReady, hSound'⟩, hNext⟩ := h.bind fun q hq =>
              decodeLoop_abreast (handler_reuses app fuel garbage role)
                (Callbacks.alone_reuses _) (handler_gives app fuel garbage old) (fun _ _ => rfl)
                (fun _ _ => rfl) hc hSound hq hDecode
            cases ok with
            | true =>
                cases hAfter
                exact ih (c := { codec }) hReady hSound' hNext hRest
            | false =>
                cases hAfter
                apply ih _ _ _ hRest
                · exact ⟨hReady.errno, hReady.contentLen⟩
                · obtain ⟨a, hTracks⟩ := hSound'
                  exact ⟨a, { hTracks with }⟩
                · apply abreast_mapHandler _ hNext
                  intro P hSteady user hUser
                  exact hUser.stop hSteady

/-- Where a message ends within a read, the rest of it may as well be read apart. -/
theorem run_append {before after : List Input} {front back : ByteString} (hSane : Sane role garbage c)
    (hBefore : c.run app fuel garbage (before ++ [.read front]) = .ok d) (hReading : d.reading = true)
    (hEnds : d.codec.parser = Parser.fresh) :
    c.run app fuel garbage (before ++ .read (front ++ back) :: after) =
      d.run app fuel garbage (.read back :: after) := by
  unfold run at hBefore ⊢
  rw [List.foldlM_append] at hBefore ⊢
  obtain ⟨c', hPast, hLast⟩ := Http.bind_eq_ok.mp hBefore
  rw [hPast]
  have hSane' : Sane role garbage c' := hSane.run hPast
  obtain ⟨d', hRead, hEq⟩ := Http.bind_eq_ok.mp hLast
  cases hEq
  show c'.run app fuel garbage (.read (front ++ back) :: after) = _
  unfold run
  rw [List.foldlM_cons, List.foldlM_cons]
  suffices hSame : c'.read app fuel garbage (front ++ back) = d.read app fuel garbage back by
    exact congrArg (· >>= _) hSame
  have hRead : c'.read app fuel garbage front = .ok d := hRead
  unfold Connection.read at hRead ⊢
  by_cases hStopped : c'.reading = true
  case neg =>
    rw [if_pos (by simpa using hStopped)] at hRead
    cases hRead
    exact absurd hReading hStopped
  rw [if_neg (by simp [hStopped])] at hRead
  rw [if_neg (by simp [hStopped]), if_neg (by simp [hReading])]
  obtain ⟨⟨codec, ok⟩, hDecode, hAfter⟩ := Http.bind_eq_ok.mp hRead
  cases ok with
  | false =>
      cases hAfter
      cases hReading
  | true =>
      cases hAfter
      rw [decode_append (fun _ _ => rfl) hSane'.reused.ready hSane'.reused.regular hDecode hEnds back]
      rfl

/-- A new codec is beside the one of the connection, unless a message has been discarded. -/
theorem Sane.abreast (h : Sane role garbage c) (hReading : c.reading = true)
    (hEnds : c.codec.parser = Parser.fresh) (ins : List Input)
    (hVersion : c.codec.impl.version = .UNSET ∨ c.codec.impl.version = version)
    (hGiven : Given old c.handler []) :
    Abreast (Holding (Http1.Discards role)) version c.codec.impl.trace (Given old)
      (c.ahead (Http1.freshObject garbage role) ins) c.codec.impl
      ((HttpCodec.init (Http1.freshObject garbage role) ()).decodeWhile
        (.alone (Http1.freshObject garbage role)) (pieces ins)) := by
  by_cases hLost : Holding (Http1.Discards role) c.handler
  · exact .inl (.inl hLost)
  have hKept : ¬ Spoilt (Holding (Http1.Discards role)) Event.IsError c.codec.impl := by
    rintro (hSpoilt | ⟨ev, hEv, hError⟩)
    · exact hLost hSpoilt
    · exact h.flawless hReading ev hEv hError
  have hRenewed := renew_eq h.reused hEnds hKept
  refine .inr ⟨Impl.init (Http1.freshObject garbage role) (), ?_, ?_⟩
  · rw [ahead, if_pos hReading, hRenewed]
    rfl
  · refine Beside.of_same ?_ hVersion (.inl rfl) hGiven
    conv_lhs => rw [hRenewed]
    simp [HttpCodec.renew, Impl.under, Impl.init]

/-- All the messages have been taken by a remote object. -/
def AllTaken (h : Http1) : Prop := ∀ m, .received m false ∉ h.log

/-- All the messages state the same version, as far as the codec tells versions apart. -/
def OneVersion (trace : List Event) : Prop :=
  ∀ p m q n, .headersDone p m ∈ trace → .headersDone q n ∈ trace → ownVersion p = ownVersion q

/-- The headers of a message have found no remote object waiting. -/
def discards : Happening → Bool
  | .received _ false => true
  | _ => false

instance (h : Http1) : Decidable (AllTaken h) :=
  decidable_of_iff (∀ ev ∈ h.log, discards ev = false) <| by
    constructor
    · intro hAll m hm
      cases hAll _ hm
    · intro hTaken ev hEv
      cases hCase : discards ev with
      | false => rfl
      | true =>
          unfold discards at hCase
          split at hCase
          · exact absurd hEv (hTaken _)
          · cases hCase

/-- The version that an announced message states. -/
def stated : Event → Option ProtoVersion
  | .headersDone p _ => some (ownVersion p)
  | _ => none

instance (trace : List Event) : Decidable (OneVersion trace) :=
  decidable_of_iff (∀ v ∈ trace.filterMap stated, ∀ w ∈ trace.filterMap stated, v = w) <| by
    have hStated : ∀ v, v ∈ trace.filterMap stated ↔ ∃ p m, .headersDone p m ∈ trace ∧ ownVersion p = v := by
      intro v
      rw [List.mem_filterMap]
      constructor
      · rintro ⟨ev, hEv, hStates⟩
        cases ev with
        | headersDone p m => exact ⟨p, m, hEv, Option.some.inj hStates⟩
        | _ => cases hStates
      · rintro ⟨p, m, hMem, hOwn⟩
        exact ⟨_, hMem, congrArg some hOwn⟩
    constructor
    · intro hAll p m q n hp hq
      exact hAll _ ((hStated _).mpr ⟨p, m, hp, rfl⟩) _ ((hStated _).mpr ⟨q, n, hq, rfl⟩)
    · intro hOne v hv w hw
      obtain ⟨p, m, hp, rfl⟩ := (hStated v).mp hv
      obtain ⟨q, n, hq, rfl⟩ := (hStated w).mp hw
      exact hOne p m q n hp hq

/-- A connection that has taken all its messages, of one version, is not spoilt. -/
theorem Sane.unspoilt {h : Http1} (hSane : Sane role garbage d) (hHandler : d.handler = .ok h)
    (hTaken : AllTaken h)
    (hVersion : ∀ p m, .headersDone p m ∈ d.codec.impl.trace → ownVersion p = version) :
    ¬ Spoilt (Holding (Http1.Discards role)) (Event.StatesOther version) d.codec.impl := by
  rintro (hLost | ⟨ev, hEv, p, m, rfl, hOther⟩)
  · rcases hLost h hHandler with hRole | ⟨m, hm⟩
    · obtain ⟨a, ⟨-, hOwned⟩, -⟩ := hSane.owned.gathered
      exact hRole (hOwned h hHandler)
    · exact hTaken m hm
  · exact hOther (hVersion p m hEv)

/-- The version that the messages of a connection state. -/
theorem Sane.oneVersion (hSane : Sane role garbage c) {trace : List Event} (hVersion : OneVersion trace) :
    ∃ version, (∀ p m, .headersDone p m ∈ trace → ownVersion p = version) ∧
      ((c.codec.impl.version = .UNSET ∨ c.codec.impl.version = version) ∨
        Spoilt (Holding (Http1.Discards role)) (Event.StatesOther version) c.codec.impl) := by
  obtain ⟨a, ⟨-, hVersioned⟩, -⟩ := hSane.versioned.gathered
  by_cases hAny : ∃ p m, .headersDone p m ∈ trace
  case neg =>
    refine ⟨c.codec.impl.version, ?_, .inl (.inr rfl)⟩
    intro p m hMem
    exact absurd ⟨p, m, hMem⟩ hAny
  obtain ⟨p, m, hMem⟩ := hAny
  refine ⟨ownVersion p, fun q n hMem' => hVersion q n p m hMem' hMem, ?_⟩
  by_cases hUnset : c.codec.impl.version = .UNSET
  · exact .inl (.inl hUnset)
  obtain ⟨q, n, hFirst, hOwn⟩ := hVersioned.chosen hUnset
  by_cases hSame : ownVersion q = ownVersion p
  · exact .inl (.inr (hOwn.trans hSame))
  · exact .inr (.inr ⟨_, hFirst, q, n, rfl, hSame⟩)

/-- From the end of a message on, the connection announces what a new codec announces that
sees nothing of what has been read before, and gives the remote objects no preambles but
these, as long as every message is taken and all state one version. -/
theorem messages_isolated (app : Application) (fuel garbage : Nat) (role : Role)
    (before after : List Input) (front back : ByteString) (c d : Connection) (h h' : Http1)
    (hBefore : (start role garbage).run app fuel garbage (before ++ [.read front]) = .ok c)
    (hReading : c.reading = true) (hEnds : c.codec.parser = Parser.fresh) (hHandler : c.handler = .ok h)
    (hRun : (start role garbage).run app fuel garbage (before ++ .read (front ++ back) :: after) = .ok d)
    (hHandler' : d.handler = .ok h') (hTaken : AllTaken h') (hVersion : OneVersion d.codec.impl.trace) :
    ∃ alone : HttpCodec Unit,
      (HttpCodec.init (Http1.freshObject garbage role) ()).decodeWhile
        (.alone (Http1.freshObject garbage role)) (back :: pieces after) = .ok alone ∧
      d.codec.impl.trace = c.codec.impl.trace ++ alone.impl.trace ∧
      ∀ id m, .headers m ∈ (h'.remotes id).received →
        .headers m ∈ (h.remotes id).received ∨ Announced alone.impl.trace m := by
  have hSane : Sane role garbage c := (Sane.start role garbage).run hBefore
  rw [run_append (Sane.start role garbage) hBefore hReading hEnds] at hRun
  obtain ⟨version, hAll, hStart⟩ := hSane.oneVersion hVersion
  have hClean := (hSane.run hRun).unspoilt hHandler' hTaken hAll
  have hGiven : Given (fun id m => .headers m ∈ (h.remotes id).received) c.handler [] := by
    intro c' hc' id m hMem
    rw [hHandler] at hc'
    cases hc'
    exact .inl hMem
  have hAbreast := hStart.elim
    (fun hOwn => hSane.abreast hReading hEnds (.read back :: after) hOwn hGiven) Or.inl
  rcases abreast_run hSane.reused.ready (hSane.reused.gathered.imp fun _ hHolds => hHolds.1.tracks)
    hAbreast hRun with hSpoilt | ⟨e, hAlone, hBeside⟩
  · exact absurd hSpoilt hClean
  · exact ⟨_, hAlone, hBeside.trace, hBeside.given_user h' hHandler'⟩

/-! ### Runs -/

/-- A response with one header of its own. -/
def response (name : String) : ByteString :=
  ofString ("HTTP/1.1 200 OK\r\n" ++ name ++ ": 1\r\ncontent-length: 0\r\n\r\n")

/-- The first remote object has been given a header of that name. -/
def showsFirst (name : String) (c : Connection) : Bool :=
  match c.handler with
  | .error _ => false
  | .ok h => (h.remotes 0).received.any fun
      | RemoteEvent.headers m => m.data.has (ofString name)
      | _ => false

/-- The run ends, and `p` is true of the connection and its handler afterwards. -/
def ends (p : Connection → Http1 → Bool) (ins : List Input) : Bool :=
  match (start .client 0).run {} 9 0 ins with
  | .error _ => false
  | .ok c =>
      match c.handler with
      | .error _ => false
      | .ok h => p c h

theorem ends_elim {p : Connection → Http1 → Bool} {ins : List Input} (hEnds : ends p ins = true) :
    ∃ c h, (start .client 0).run {} 9 0 ins = .ok c ∧ c.handler = .ok h ∧ p c h = true := by
  unfold ends at hEnds
  split at hEnds
  · cases hEnds
  case h_2 c hRun =>
    split at hEnds
    · cases hEnds
    case h_2 h hHandler => exact ⟨c, h, hRun, hHandler, hEnds⟩

/-- Two responses that are read at once. -/
theorem messages_isolated_pair :
    ∃ (c d : Connection) (h h' : Http1) (alone : HttpCodec Unit),
      (start .client 0).run {} 9 0
        ([.op (.user .create), .op (.user .create)] ++ [.read (response "x")]) = .ok c ∧
      (start .client 0).run {} 9 0
        ([.op (.user .create), .op (.user .create)] ++ .read (response "x" ++ response "y") :: []) = .ok d ∧
      c.handler = .ok h ∧ d.handler = .ok h' ∧
      (HttpCodec.init (Http1.freshObject 0 .client) ()).decodeWhile
        (.alone (Http1.freshObject 0 .client)) (response "y" :: pieces []) = .ok alone ∧
      d.codec.impl.trace = c.codec.impl.trace ++ alone.impl.trace ∧
      ∀ id m, .headers m ∈ (h'.remotes id).received →
        .headers m ∈ (h.remotes id).received ∨ Announced alone.impl.trace m := by
  have hBefore : ends (fun c _ => c.reading && decide (c.codec.parser = Parser.fresh))
      ([.op (.user .create), .op (.user .create)] ++ [.read (response "x")]) = true := by
    decide +kernel
  have hAfter : ends (fun d h' => decide (AllTaken h') && decide (OneVersion d.codec.impl.trace))
      ([.op (.user .create), .op (.user .create)] ++ .read (response "x" ++ response "y") :: []) = true := by
    decide +kernel
  obtain ⟨c, h, hRun, hHandler, hBoundary⟩ := ends_elim hBefore
  obtain ⟨d, h', hRun', hHandler', hCondition⟩ := ends_elim hAfter
  obtain ⟨hReading, hParser⟩ := Bool.and_eq_true_iff.mp hBoundary
  obtain ⟨hTaken, hVersion⟩ := Bool.and_eq_true_iff.mp hCondition
  obtain ⟨alone, hAlone, hTrace, hGiven⟩ :=
    messages_isolated {} 9 0 .client [.op (.user .create), .op (.user .create)] [] (response "x")
      (response "y") c d h h' hRun hReading (of_decide_eq_true hParser) hHandler hRun' hHandler'
      (of_decide_eq_true hTaken) (of_decide_eq_true hVersion)
  exact ⟨c, d, h, h', alone, hRun, hRun', hHandler, hHandler', hAlone, hTrace, hGiven⟩

/-- A response that nobody has asked for is discarded, but its header is in the next one. -/
theorem discarded_message_shown :
    ((start .client 0).run {} 9 0
      [.read (response "x"), .op (.user .create), .read (response "y")]).map (showsFirst "x") = .ok true ∧
    ((start .client 0).run {} 9 0
      [.op (.user .create), .read (response "y")]).map (showsFirst "x") = .ok false := by
  decide +kernel

end Connection

end Doormat.Protocol
