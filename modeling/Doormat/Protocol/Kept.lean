import Doormat.Protocol.Frame

/-! Invariants of a connection, at the granularity of the source's functions: what the
functions keep, a run keeps. Between the end of a request and its removal the application
may act in `on_request_sent`; a second predicate tells what holds there. -/
namespace Doormat.Protocol

open Bytes Doormat.Http

/-- An edit of a local object that tells it nothing, neither ends it nor takes its headers
away, requires no continue, and gives the application no hold of it. -/
structure Edited (l l' : Local) : Prop where
  received : l'.received = l.received
  held : l'.held = true → l.held = true
  ended : l'.ended = l.ended
  headers : l.headers.isSome → l'.headers.isSome
  continueRequired : l'.continueRequired = l.continueRequired

/-- `P` is kept by what the application does, in steps that meet the guard `G`, and by the
closures that are posted. `M id` holds from the serialised end of the object `id` to its
removal. -/
structure LocallyKept (P : Http1 → Prop) (M : Nat → Http1 → Prop) (G : Http1 → Op → Prop) :
    Prop where
  edit : ∀ {c id l}, Edited (c.locals id) l → P c → P (c.setLocal id l)
  create : ∀ {c}, G c (.user .create) → c.role = .client → P c → P c.getUserHandlers
  ends : ∀ {c id}, G c (.user (.finish id)) → c.usable id = true → c.role = .client → P c →
    P (c.setLocal id { c.locals id with ended := true })
  continues : ∀ {c id}, c.role = .server → P c →
    P (c.setLocal id { c.locals id with continueRequired := true })
  postEnd : ∀ {c id}, c.usable id = true → c.role = .server → P c → P (c.post [.endResponse id])
  runEnd : ∀ {c id rest}, c.posted = .endResponse id :: rest → P c →
    P ({ c with posted := rest, running := some id }.setLocal id { c.locals id with ended := true })
  ran : ∀ {c}, P c → P { c with running := none }
  close : ∀ {c}, G c (.user .close) → P c → P c.close
  persistentSet : ∀ {c} b, P c → P { c.record (.persistentSet b) with persistent := b }
  headers : ∀ {c c' id rest m}, c.localObjects = id :: rest → (c.locals id).headers = some m →
    P c → c.notifyLocalHeaders id m = .ok c' → P c'
  body : ∀ {c c' id rest}, c.localObjects = id :: rest → P c → c.notifyLocalBody id = .ok c' → P c'
  trailer : ∀ {c c' id rest key value}, c.localObjects = id :: rest → P c →
    c.notifyLocalTrailer id key value = .ok c' → P c'
  finish : ∀ {c c' id rest}, c.localObjects = id :: rest → LocalState.Of (c.locals id) .ended →
    P c → c.notifyLocalEnd id = .ok c' → M id c'
  interim : ∀ {c c' id rest}, c.localObjects = id :: rest →
    (c.locals id).continueRequired = true → P c →
    (c.setLocal id { c.locals id with continueRequired := false }).notifyContinue id = .ok c' → P c'
  removed : ∀ {c c' id}, M id c → c.popFront = .ok c' → P c'
  expired : ∀ {c id rest}, c.localObjects = id :: rest → c.alive id = false → P c →
    P ((c.error .missingStreamElement).notifyAll .missingStreamElement)
  cleared : ∀ {c f rest}, c.posted = .feedback f true :: rest → P c →
    P ({ c with posted := rest }.localCleared f.id)
  failed : ∀ {c f rest}, c.posted = .feedback f false :: rest → P c →
    P ({ c with posted := rest }.localError .missingStreamElement f.id)
  remoteEnded : ∀ {c id rest}, c.posted = .remoteEnded id :: rest → P c →
    P ({ c with posted := rest }.setRemote id { c.remotes id with terminated := true })
  called : ∀ {c id rest}, c.posted = .callback id :: rest → P c → P { c with posted := rest }

/-- `P` is kept by the functions of a connection whose steps meet the guard `G`. -/
structure Kept (P : Http1 → Prop) (M : Nat → Http1 → Prop) (G : Http1 → Op → Prop) : Prop
    extends LocallyKept P M G where
  decodingStart : ∀ {c}, G c .decodingStart → P c → P c.decodingStart
  decodedHeaders : ∀ {c} garbage m, P c → P (c.decodedHeaders garbage m).2
  decodedBody : ∀ {c} bytes, P c → P (c.decodedBody bytes)
  decodedTrailer : ∀ {c} key value, P c → P (c.decodedTrailer key value)
  decodingEnd : ∀ {c}, P c → P c.decodingEnd
  decodingFailure : ∀ {c c'}, G c .decodingFailure → P c → c.decodingFailure = .ok c' → P c'
  written : ∀ {c} r, G c (.written r) → P c → P (c.written r)
  stop : ∀ {c}, P c → P c.stop
  lost : ∀ {c}, c.writing = none → P c → P c.loseConnector

namespace LocallyKept

variable {P : Http1 → Prop} {M : Nat → Http1 → Prop} {G : Http1 → Op → Prop} {c c' : Http1}
  {id : Nat}

/-- The loop of `poll_local` on the first object of the queue. -/
theorem pollLoop (h : LocallyKept P M G) {fuel : Nat} {rest : List Nat} {b : Bool}
    (hFront : c.localObjects = id :: rest) (hc : P c)
    (hRun : Http1.pollLoop id fuel c = .ok (c', b)) :
    c'.localObjects = id :: rest ∧ (b = false → P c') ∧ (b = true → M id c') := by
  induction fuel generalizing c with
  | zero => cases hRun
  | succ fuel ih =>
      rw [Http1.pollLoop] at hRun
      by_cases hContinue : (c.locals id).continueRequired = true
      · rw [Local.getState_of_continue hContinue] at hRun
        obtain ⟨d, hStep, hRest⟩ := bind_eq_ok.mp hRun
        cases hRest
        refine ⟨?_, fun _ => h.interim hFront hContinue hc hStep, nofun⟩
        obtain ⟨_, _, _, _, -, -, rfl⟩ := Http1.notifyContinue_ok.mp hStep
        rw [Http1.doWrite_localObjects]
        exact hFront
      · have hContinue : (c.locals id).continueRequired = false := by simpa using hContinue
        obtain ⟨hSame, hState⟩ := Local.getState_of_not_continue hContinue
        rcases hGet : (c.locals id).getState with ⟨state, l⟩
        rw [hGet] at hRun hSame hState
        dsimp only at hSame
        rw [hSame] at hRun
        dsimp only at hRun
        rw [Http1.setLocal_self] at hRun
        cases state with
        | sendContinue => exact hState.elim
        | pending =>
            cases hRun
            exact ⟨hFront, fun _ => hc, nofun⟩
        | headersReceived =>
            cases hHeaders : (c.locals id).headers with
            | none =>
                rw [LocalState.Of, hHeaders] at hState
                cases hState
            | some m =>
                simp only [hHeaders] at hRun
                obtain ⟨d, hStep, hRest⟩ := bind_eq_ok.mp hRun
                have hd := h.headers hFront hHeaders hc hStep
                obtain ⟨_, _, -, rfl⟩ := Http1.notifyLocalHeaders_ok.mp hStep
                apply ih _ hd hRest
                rw [Http1.doWrite_localObjects]
                exact hFront
        | bodyReceived =>
            obtain ⟨d, hStep, hRest⟩ := bind_eq_ok.mp hRun
            have hd := h.body hFront hc hStep
            obtain ⟨_, _, -, rfl⟩ := Http1.notifyLocalBody_ok.mp hStep
            apply ih _ hd hRest
            rw [Http1.doWrite_localObjects]
            exact hFront
        | trailerReceived =>
            cases hTrailers : (c.locals id).trailers with
            | nil => exact absurd hTrailers hState.2.2
            | cons trailer trailers =>
                simp only [hTrailers] at hRun
                obtain ⟨d, hStep, hRest⟩ := bind_eq_ok.mp hRun
                have hd := h.trailer hFront hc hStep
                obtain ⟨_, _, -, rfl⟩ := Http1.notifyLocalTrailer_ok.mp hStep
                apply ih _ hd hRest
                rw [Http1.doWrite_localObjects]
                exact hFront
        | ended =>
            obtain ⟨d, hStep, hRest⟩ := bind_eq_ok.mp hRun
            cases hRest
            refine ⟨?_, nofun, fun _ => h.finish hFront hState hc hStep⟩
            obtain ⟨_, _, -, rfl⟩ := Http1.notifyLocalEnd_ok.mp hStep
            rw [Http1.doWrite_localObjects]
            exact hFront

theorem userOp (h : LocallyKept P M G) {notify : Http1 → Except Fault Http1}
    (hNotify : ∀ {c c'}, P c → notify c = .ok c' → P c') {op : UserOp} (hGuard : G c (.user op))
    (hc : P c) (hRun : Http1.userOp notify c op = .ok c') : P c' := by
  have hContent : ∀ id l, (if c.usable id then notify (c.setLocal id l) else .ok c) = .ok c' →
      Edited (c.locals id) l → P c' := by
    intro id l hRun hEdit
    split at hRun
    · exact hNotify (h.edit hEdit hc) hRun
    · cases hRun
      exact hc
  have hMark : ∀ id l,
      Except.ok (ε := Fault) (if c.usable id then c.setLocal id l else c) = .ok c' →
      Edited (c.locals id) l → P c' := by
    intro id l hRun hEdit
    cases hRun
    split
    · exact h.edit hEdit hc
    · exact hc
  cases op with
  | create =>
      cases hRun
      split
      case isTrue hRole => exact h.create hGuard hRole hc
      case isFalse => exact hc
  | headers id m => exact hContent id _ hRun ⟨rfl, fun held => held, rfl, fun _ => rfl, rfl⟩
  | body id bytes => exact hContent id _ hRun ⟨rfl, fun held => held, rfl, fun some => some, rfl⟩
  | trailer id key value =>
      exact hContent id _ hRun ⟨rfl, fun held => held, rfl, fun some => some, rfl⟩
  | finish id =>
      simp only [Http1.userOp] at hRun
      split at hRun
      · cases hRun
        exact hc
      case isFalse hUsable =>
        have hUsable : c.usable id = true := by simpa using hUsable
        split at hRun
        case isTrue hRole =>
          cases hRun
          exact h.postEnd hUsable hRole hc
        case isFalse hRole =>
          have hRole : c.role = .client := by
            cases hCase : c.role with
            | server => exact absurd hCase hRole
            | client => rfl
          obtain ⟨d, hStep, hRest⟩ := bind_eq_ok.mp hRun
          cases hRest
          refine h.edit ?_ (hNotify (h.ends hGuard hUsable hRole hc) hStep)
          exact ⟨rfl, fun held => held, rfl, fun some => some, rfl⟩
  | sendContinue id =>
      simp only [Http1.userOp] at hRun
      split at hRun
      case isTrue hServer =>
        have hServer : c.usable id = true ∧ c.role = .server := by simpa using hServer
        exact hNotify (h.continues hServer.2 hc) hRun
      case isFalse =>
        cases hRun
        exact hc
  | onError id => exact hMark id _ hRun ⟨rfl, fun held => held, rfl, fun some => some, rfl⟩
  | onWrite id => exact hMark id _ hRun ⟨rfl, fun held => held, rfl, fun some => some, rfl⟩
  | drop id => exact hMark id _ hRun ⟨rfl, nofun, rfl, fun some => some, rfl⟩
  | close =>
      cases hRun
      exact h.close hGuard hc
  | setPersistent b =>
      cases hRun
      exact h.persistentSet b hc

/-- Calls of the application one after the other. -/
theorem userOps {P : Http1 → Prop} {M : Nat → Http1 → Prop} {notify : Http1 → Except Fault Http1}
    {c c' : Http1} (h : LocallyKept P M fun _ _ => True)
    (hNotify : ∀ {c c'}, P c → notify c = .ok c' → P c') {ops : List UserOp} (hc : P c)
    (hRun : ops.foldlM (Http1.userOp notify) c = .ok c') : P c' := by
  induction ops generalizing c with
  | nil =>
      cases hRun
      exact hc
  | cons op ops ih =>
      rw [List.foldlM_cons] at hRun
      obtain ⟨d, hStep, hRest⟩ := bind_eq_ok.mp hRun
      exact ih (h.userOp hNotify trivial hc hStep) hRest

end LocallyKept

/-- What a client's application does in `on_request_sent` keeps `M`, as long as a call of
`notify_local_content` keeps `P`. -/
def CallbackKeeps (P : Http1 → Prop) (M : Nat → Http1 → Prop) (sent : Http1 → List UserOp) : Prop :=
  ∀ (inner : Http1 → List UserOp) (fuel : Nat) (id : Nat) (c c' : Http1), c.role = .client →
    (∀ {c c'}, P c → Http1.notifyLocalContent inner fuel c = .ok c' → P c') → M id c →
      (sent c).foldlM (Http1.userOp (Http1.notifyLocalContent inner fuel)) c = .ok c' → M id c'

namespace LocallyKept

variable {P : Http1 → Prop} {M : Nat → Http1 → Prop} {G : Http1 → Op → Prop} {c c' : Http1}
  {sent : Http1 → List UserOp}

/-- The loop of `notify_local_content`, with all that the application does within it. -/
theorem notifyLocalContent (h : LocallyKept P M G) (hSent : CallbackKeeps P M sent) {fuel : Nat} (hc : P c)
    (hRun : Http1.notifyLocalContent sent fuel c = .ok c') : P c' := by
  induction fuel generalizing c c' with
  | zero => cases hRun
  | succ fuel ih =>
      rw [Http1.notifyLocalContent] at hRun
      split at hRun
      · cases hRun
        exact hc
      case h_2 id rest hFront =>
        split at hRun
        case isTrue =>
          obtain ⟨⟨d, finished⟩, hPoll, hRun⟩ := bind_eq_ok.mp hRun
          obtain ⟨-, hOngoing, hDone⟩ := h.pollLoop hFront hc hPoll
          dsimp only at hRun
          have hPop : ∀ {e}, M id e →
              (e.popFront >>= Http1.notifyLocalContent sent fuel) = .ok c' → P c' := by
            intro e he hRun
            obtain ⟨f, hPop, hRest⟩ := bind_eq_ok.mp hRun
            exact ih (h.removed he hPop) hRest
          cases finished with
          | false =>
              cases hRun
              exact hOngoing rfl
          | true =>
              have hd : M id d := hDone rfl
              rw [if_pos rfl] at hRun
              split at hRun
              case isTrue hRole =>
                obtain ⟨e, hCallback, hRun⟩ := bind_eq_ok.mp hRun
                exact hPop (hSent sent fuel id d e hRole ih hd hCallback) hRun
              case isFalse => exact hPop hd hRun
        case isFalse hDead => exact ih (h.expired hFront (by simpa using hDead) hc) hRun

theorem runPosted (h : LocallyKept P M G) {notify : Http1 → Except Fault Http1}
    (hNotify : ∀ {c c'}, P c → notify c = .ok c' → P c') (hc : P c)
    (hRun : Http1.runPosted notify c = .ok c') : P c' := by
  unfold Http1.runPosted at hRun
  split at hRun
  case h_1 =>
    cases hRun
    exact hc
  case h_2 hPosted =>
    obtain ⟨d, hStep, hRun⟩ := bind_eq_ok.mp hRun
    cases hRun
    refine h.ran (h.edit ?_ (hNotify (h.runEnd hPosted hc) hStep))
    exact ⟨rfl, fun held => held, rfl, fun some => some, rfl⟩
  case h_3 success rest hPosted =>
    cases hRun
    cases success with
    | true => exact h.cleared hPosted hc
    | false => exact h.failed hPosted hc
  case h_4 hPosted =>
    cases hRun
    exact h.remoteEnded hPosted hc
  case h_5 hPosted =>
    cases hRun
    exact h.called hPosted hc

end LocallyKept

section Calls

variable {P : Http1 → Prop} {c c' : Http1}

/-- What all calls of the application keep, it keeps in its callbacks. -/
theorem LocallyKept.callbackKeeps (h : LocallyKept P (fun _ => P) fun _ _ => True)
    (sent : Http1 → List UserOp) : CallbackKeeps P (fun _ => P) sent := by
  intro inner fuel id c c' _ hNotify hc hRun
  exact h.userOps hNotify hc hRun

/-- What the application does in a callback. -/
theorem LocallyKept.calls (h : LocallyKept P (fun _ => P) fun _ _ => True)
    (sent sent' : Http1 → List UserOp) (fuel : Nat) (hc : P c)
    (hRun : (sent' c).foldlM (Http1.userOp (Http1.notifyLocalContent sent fuel)) c = .ok c') : P c' :=
  h.userOps (h.notifyLocalContent (h.callbackKeeps sent)) hc hRun

end Calls

/-- The rule for a step. -/
theorem Kept.step {P : Http1 → Prop} {M : Nat → Http1 → Prop} {G : Http1 → Op → Prop} {c c' : Http1}
    {sent : Http1 → List UserOp} (h : Kept P M G) (hSent : CallbackKeeps P M sent) {fuel : Nat} {op : Op}
    (hGuard : G c op) (hc : P c) (hRun : c.step sent fuel op = .ok c') : P c' := by
  cases op with
  | user op => exact h.userOp (h.notifyLocalContent hSent) hGuard hc hRun
  | posted => exact h.runPosted (h.notifyLocalContent hSent) hc hRun
  | decodingStart =>
      cases hRun
      exact h.decodingStart hGuard hc
  | decodedHeaders m =>
      cases hRun
      exact h.decodedHeaders _ _ hc
  | decodedBody bytes =>
      cases hRun
      exact h.decodedBody _ hc
  | decodedTrailer key value =>
      cases hRun
      exact h.decodedTrailer _ _ hc
  | decodingEnd =>
      cases hRun
      exact h.decodingEnd hc
  | decodingFailure => exact h.decodingFailure hGuard hc hRun
  | written r =>
      cases hRun
      exact h.written r hGuard hc
  | readFailed =>
      cases hRun
      exact h.stop hc
  | connectorLost =>
      cases hRun
      split
      case isTrue hNone => exact h.lost (Option.isNone_iff_eq_none.mp hNone) hc
      case isFalse => exact hc

/-- Where the invariants `P` and `M` hold, the functions of a connection have no faults but
those of `F`. -/
structure Blamed (P : Http1 → Prop) (M : Nat → Http1 → Prop) (G : Http1 → Op → Prop)
    (F : Fault → Prop) : Prop where
  exhausted : F .exhausted
  headers : ∀ {c id rest m e}, c.localObjects = id :: rest → P c →
    c.notifyLocalHeaders id m = .error e → F e
  body : ∀ {c id rest e}, c.localObjects = id :: rest → P c → c.notifyLocalBody id = .error e → F e
  trailer : ∀ {c id rest key value e}, c.localObjects = id :: rest → P c →
    c.notifyLocalTrailer id key value = .error e → F e
  finish : ∀ {c id rest e}, c.localObjects = id :: rest → LocalState.Of (c.locals id) .ended →
    P c → c.notifyLocalEnd id = .error e → F e
  interim : ∀ {c id rest e}, c.localObjects = id :: rest →
    (c.locals id).continueRequired = true → P c →
    (c.setLocal id { c.locals id with continueRequired := false }).notifyContinue id = .error e →
    F e
  removed : ∀ {c id e}, M id c → c.popFront = .error e → F e
  decodingFailure : ∀ {c e}, G c .decodingFailure → P c → c.decodingFailure = .error e → F e

/-- What the application does in `on_request_sent` has no faults but those of `F`, as long
as a call of `notify_local_content` has none and keeps `P`. -/
def CallbackBlamed (P : Http1 → Prop) (M : Nat → Http1 → Prop) (F : Fault → Prop)
    (sent : Http1 → List UserOp) : Prop :=
  ∀ (notify : Http1 → Except Fault Http1) (id : Nat) (c : Http1) (e : Fault),
    (∀ {c c'}, P c → notify c = .ok c' → P c') → (∀ {c e}, P c → notify c = .error e → F e) →
      M id c → (sent c).foldlM (Http1.userOp notify) c = .error e → F e

/-- The calls that leave the contents of the transactions and the connection alone. -/
def UserOp.tame : UserOp → Bool
  | .create | .onError _ | .onWrite _ | .drop _ | .setPersistent _ => true
  | _ => false

/-- The callback makes such calls only. -/
def Tamed (sent : Http1 → List UserOp) : Prop := ∀ c, ∀ op ∈ sent c, op.tame = true

/-- A tame call cannot fail, and does one of four things. -/
theorem userOp_tame (notify : Http1 → Except Fault Http1) {op : UserOp} (h : op.tame = true)
    (c : Http1) : ∃ d, Http1.userOp notify c op = .ok d ∧
      (d = c ∨ (c.role = .client ∧ d = c.getUserHandlers) ∨
        (∃ id l, Edited (c.locals id) l ∧ d = c.setLocal id l) ∨
        ∃ b, d = { c.record (.persistentSet b) with persistent := b }) := by
  have hMark : ∀ id l, Edited (c.locals id) l → ∃ d,
      Except.ok (ε := Fault) (if c.usable id then c.setLocal id l else c) = .ok d ∧
      (d = c ∨ (c.role = .client ∧ d = c.getUserHandlers) ∨
        (∃ id l, Edited (c.locals id) l ∧ d = c.setLocal id l) ∨
        ∃ b, d = { c.record (.persistentSet b) with persistent := b }) := by
    intro id l hEdit
    refine ⟨_, rfl, ?_⟩
    split
    · exact .inr (.inr (.inl ⟨id, l, hEdit, rfl⟩))
    · exact .inl rfl
  cases op with
  | create =>
      refine ⟨_, rfl, ?_⟩
      split
      case isTrue hRole => exact .inr (.inl ⟨hRole, rfl⟩)
      case isFalse => exact .inl rfl
  | onError id => exact hMark id _ ⟨rfl, fun held => held, rfl, fun some => some, rfl⟩
  | onWrite id => exact hMark id _ ⟨rfl, fun held => held, rfl, fun some => some, rfl⟩
  | drop id => exact hMark id _ ⟨rfl, nofun, rfl, fun some => some, rfl⟩
  | setPersistent b => exact ⟨_, rfl, .inr (.inr (.inr ⟨b, rfl⟩))⟩
  | headers id m => cases h
  | body id bytes => cases h
  | trailer id key value => cases h
  | finish id => cases h
  | sendContinue id => cases h
  | close => cases h

/-- A tame callback keeps what new transactions, edits and the persistency keep. -/
theorem Tamed.keeps {P : Http1 → Prop} {M : Nat → Http1 → Prop} {sent : Http1 → List UserOp}
    (h : Tamed sent)
    (hCreate : ∀ {id c}, c.role = .client → M id c → M id c.getUserHandlers)
    (hEdit : ∀ {id c j l}, Edited (c.locals j) l → M id c → M id (c.setLocal j l))
    (hPersistent : ∀ {id c} b, M id c → M id { c.record (.persistentSet b) with persistent := b }) :
    CallbackKeeps P M sent := by
  intro inner fuel id c c' _ _ hc hRun
  have hOps : ∀ {ops : List UserOp} {c}, (∀ op ∈ ops, op.tame = true) → M id c →
      ops.foldlM (Http1.userOp (Http1.notifyLocalContent inner fuel)) c = .ok c' → M id c' := by
    intro ops
    induction ops with
    | nil =>
        intro c _ hc hRun
        cases hRun
        exact hc
    | cons op ops ih =>
        intro c hTame hc hRun
        rw [List.foldlM_cons] at hRun
        obtain ⟨d, hStep, hRest⟩ := bind_eq_ok.mp hRun
        obtain ⟨d', hEq, hCases⟩ :=
          userOp_tame (Http1.notifyLocalContent inner fuel) (hTame op List.mem_cons_self) c
        rw [hEq] at hStep
        cases hStep
        apply ih (fun op hOp => hTame op (List.mem_cons_of_mem _ hOp)) _ hRest
        rcases hCases with rfl | ⟨hRole, rfl⟩ | ⟨j, l, hEdited, rfl⟩ | ⟨b, rfl⟩
        · exact hc
        · exact hCreate hRole hc
        · exact hEdit hEdited hc
        · exact hPersistent b hc
  exact hOps (h c) hc hRun

/-- A tame callback has no faults. -/
theorem Tamed.blamed {P : Http1 → Prop} {M : Nat → Http1 → Prop} {F : Fault → Prop}
    {sent : Http1 → List UserOp} (h : Tamed sent) : CallbackBlamed P M F sent := by
  intro notify id c e _ _ _ hRun
  have hOps : ∀ {ops : List UserOp} {c}, (∀ op ∈ ops, op.tame = true) →
      ops.foldlM (Http1.userOp notify) c ≠ .error e := by
    intro ops
    induction ops with
    | nil => nofun
    | cons op ops ih =>
        intro c hTame hRun
        rw [List.foldlM_cons] at hRun
        obtain ⟨d, hEq, -⟩ := userOp_tame notify (hTame op List.mem_cons_self) c
        rcases bind_eq_error.mp hRun with hStep | ⟨d', -, hRest⟩
        · rw [hEq] at hStep
          cases hStep
        · exact ih (fun op hOp => hTame op (List.mem_cons_of_mem _ hOp)) hRest
  exact absurd hRun (hOps (h c))

namespace Blamed

variable {P : Http1 → Prop} {M : Nat → Http1 → Prop} {G : Http1 → Op → Prop} {F : Fault → Prop}
  {c : Http1} {id : Nat} {e : Fault} {sent : Http1 → List UserOp}

theorem pollLoop (h : Blamed P M G F) (hKept : Kept P M G) {fuel : Nat} {rest : List Nat}
    (hFront : c.localObjects = id :: rest) (hc : P c)
    (hRun : Http1.pollLoop id fuel c = .error e) : F e := by
  induction fuel generalizing c with
  | zero =>
      cases hRun
      exact h.exhausted
  | succ fuel ih =>
      rw [Http1.pollLoop] at hRun
      by_cases hContinue : (c.locals id).continueRequired = true
      · rw [Local.getState_of_continue hContinue] at hRun
        rcases bind_eq_error.mp hRun with hStep | ⟨d, -, hRest⟩
        · exact h.interim hFront hContinue hc hStep
        · cases hRest
      · have hContinue : (c.locals id).continueRequired = false := by simpa using hContinue
        obtain ⟨hSame, hState⟩ := Local.getState_of_not_continue hContinue
        rcases hGet : (c.locals id).getState with ⟨state, l⟩
        rw [hGet] at hRun hSame hState
        dsimp only at hSame
        rw [hSame] at hRun
        dsimp only at hRun
        rw [Http1.setLocal_self] at hRun
        cases state with
        | sendContinue => exact hState.elim
        | pending => cases hRun
        | headersReceived =>
            cases hHeaders : (c.locals id).headers with
            | none =>
                rw [LocalState.Of, hHeaders] at hState
                cases hState
            | some m =>
                simp only [hHeaders] at hRun
                rcases bind_eq_error.mp hRun with hStep | ⟨d, hStep, hRest⟩
                · exact h.headers hFront hc hStep
                have hd := hKept.headers hFront hHeaders hc hStep
                obtain ⟨_, _, -, rfl⟩ := Http1.notifyLocalHeaders_ok.mp hStep
                apply ih _ hd hRest
                rw [Http1.doWrite_localObjects]
                exact hFront
        | bodyReceived =>
            rcases bind_eq_error.mp hRun with hStep | ⟨d, hStep, hRest⟩
            · exact h.body hFront hc hStep
            have hd := hKept.body hFront hc hStep
            obtain ⟨_, _, -, rfl⟩ := Http1.notifyLocalBody_ok.mp hStep
            apply ih _ hd hRest
            rw [Http1.doWrite_localObjects]
            exact hFront
        | trailerReceived =>
            cases hTrailers : (c.locals id).trailers with
            | nil => exact absurd hTrailers hState.2.2
            | cons trailer trailers =>
                simp only [hTrailers] at hRun
                rcases bind_eq_error.mp hRun with hStep | ⟨d, hStep, hRest⟩
                · exact h.trailer hFront hc hStep
                have hd := hKept.trailer hFront hc hStep
                obtain ⟨_, _, -, rfl⟩ := Http1.notifyLocalTrailer_ok.mp hStep
                apply ih _ hd hRest
                rw [Http1.doWrite_localObjects]
                exact hFront
        | ended =>
            rcases bind_eq_error.mp hRun with hStep | ⟨d, -, hRest⟩
            · exact h.finish hFront hState hc hStep
            · cases hRest

theorem userOp (h : Kept P M G) {notify : Http1 → Except Fault Http1}
    (hNotify : ∀ {c e}, P c → notify c = .error e → F e) {op : UserOp} (hGuard : G c (.user op))
    (hc : P c) (hRun : Http1.userOp notify c op = .error e) : F e := by
  have hContent : ∀ id l, (if c.usable id then notify (c.setLocal id l) else .ok c) = .error e →
      Edited (c.locals id) l → F e := by
    intro id l hRun hEdit
    split at hRun
    · exact hNotify (h.edit hEdit hc) hRun
    · cases hRun
  cases op with
  | create => cases hRun
  | headers id m => exact hContent id _ hRun ⟨rfl, fun held => held, rfl, fun _ => rfl, rfl⟩
  | body id bytes => exact hContent id _ hRun ⟨rfl, fun held => held, rfl, fun some => some, rfl⟩
  | trailer id key value =>
      exact hContent id _ hRun ⟨rfl, fun held => held, rfl, fun some => some, rfl⟩
  | finish id =>
      simp only [Http1.userOp] at hRun
      split at hRun
      · cases hRun
      case isFalse hUsable =>
        split at hRun
        · cases hRun
        case isFalse hRole =>
          have hRole : c.role = .client := by
            cases hCase : c.role with
            | server => exact absurd hCase hRole
            | client => rfl
          rcases bind_eq_error.mp hRun with hStep | ⟨d, -, hRest⟩
          · exact hNotify (h.ends hGuard (by simpa using hUsable) hRole hc) hStep
          · cases hRest
  | sendContinue id =>
      simp only [Http1.userOp] at hRun
      split at hRun
      case isTrue hServer =>
        have hServer : c.usable id = true ∧ c.role = .server := by simpa using hServer
        exact hNotify (h.continues hServer.2 hc) hRun
      case isFalse => cases hRun
  | onError id => cases hRun
  | onWrite id => cases hRun
  | drop id => cases hRun
  | close => cases hRun
  | setPersistent b => cases hRun

theorem notifyLocalContent (h : Blamed P M G F) (hKept : Kept P M G) (hSent : CallbackKeeps P M sent)
    (hBlamed : CallbackBlamed P M F sent) {fuel : Nat} (hc : P c)
    (hRun : Http1.notifyLocalContent sent fuel c = .error e) : F e := by
  induction fuel generalizing c e with
  | zero =>
      cases hRun
      exact h.exhausted
  | succ fuel ih =>
      rw [Http1.notifyLocalContent] at hRun
      split at hRun
      · cases hRun
      case h_2 id rest hFront =>
        split at hRun
        case isTrue =>
          rcases bind_eq_error.mp hRun with hPoll | ⟨⟨d, finished⟩, hPoll, hRun⟩
          · exact h.pollLoop hKept hFront hc hPoll
          obtain ⟨-, -, hDone⟩ := hKept.pollLoop hFront hc hPoll
          dsimp only at hRun
          have hPop : ∀ {f}, M id f →
              (f.popFront >>= Http1.notifyLocalContent sent fuel) = .error e → F e := by
            intro f hf hRun
            rcases bind_eq_error.mp hRun with hPop | ⟨g, hPop, hRest⟩
            · exact h.removed hf hPop
            · exact ih (hKept.removed hf hPop) hRest
          cases finished with
          | false => cases hRun
          | true =>
              have hd : M id d := hDone rfl
              rw [if_pos rfl] at hRun
              split at hRun
              case isTrue hRole =>
                have hNotify : ∀ {c c'}, P c →
                    Http1.notifyLocalContent sent fuel c = .ok c' → P c' :=
                  fun hc hRun => hKept.notifyLocalContent hSent hc hRun
                rcases bind_eq_error.mp hRun with hCallback | ⟨f, hCallback, hRun⟩
                · exact hBlamed _ id d e hNotify ih hd hCallback
                · exact hPop (hSent sent fuel id d f hRole hNotify hd hCallback) hRun
              case isFalse => exact hPop hd hRun
        case isFalse hDead => exact ih (hKept.expired hFront (by simpa using hDead) hc) hRun

/-- The rule for a step. -/
theorem step (h : Blamed P M G F) (hKept : Kept P M G) (hSent : CallbackKeeps P M sent)
    (hBlamed : CallbackBlamed P M F sent) {fuel : Nat} {op : Op} (hGuard : G c op) (hc : P c)
    (hRun : c.step sent fuel op = .error e) : F e := by
  have hNotify : ∀ {c e}, P c → Http1.notifyLocalContent sent fuel c = .error e → F e :=
    fun hc hRun => h.notifyLocalContent hKept hSent hBlamed hc hRun
  cases op with
  | user op => exact userOp hKept hNotify hGuard hc hRun
  | posted =>
      rw [Http1.step, Http1.runPosted] at hRun
      split at hRun
      case h_2 hPosted =>
        rcases bind_eq_error.mp hRun with hStep | ⟨d, -, hRest⟩
        · exact hNotify (hKept.runEnd hPosted hc) hStep
        · cases hRest
      all_goals cases hRun
  | decodingFailure => exact h.decodingFailure hGuard hc hRun
  | decodingStart => cases hRun
  | decodedHeaders m => cases hRun
  | decodedBody bytes => cases hRun
  | decodedTrailer key value => cases hRun
  | decodingEnd => cases hRun
  | written r => cases hRun
  | readFailed => cases hRun
  | connectorLost => cases hRun

end Blamed

namespace Http1

/-- Every step of a run meets the guard. -/
def Guarded (G : Http1 → Op → Prop) (sent : Http1 → List UserOp) (fuel : Nat) :
    Http1 → List Op → Prop
  | _, [] => True
  | c, op :: ops => G c op ∧ ∀ d, c.step sent fuel op = .ok d → Guarded G sent fuel d ops

instance Guarded.decidable {G : Http1 → Op → Prop} [hDecidable : ∀ c op, Decidable (G c op)]
    (sent : Http1 → List UserOp) (fuel : Nat) : (c : Http1) → (ops : List Op) →
    Decidable (c.Guarded G sent fuel ops)
  | _, [] => isTrue trivial
  | c, op :: ops =>
      match hStep : c.step sent fuel op with
      | .error _ => decidable_of_iff (G c op) (by simp [Guarded, hStep])
      | .ok d =>
          have := @Guarded.decidable G hDecidable sent fuel d ops
          decidable_of_iff (G c op ∧ d.Guarded G sent fuel ops) (by simp [Guarded, hStep])

theorem run_cons {sent : Http1 → List UserOp} {fuel : Nat} {c c' : Http1} {op : Op} {ops : List Op} :
    c.run sent fuel (op :: ops) = .ok c' ↔
      ∃ d, c.step sent fuel op = .ok d ∧ d.run sent fuel ops = .ok c' := by
  rw [run, List.foldlM_cons]
  exact bind_eq_ok

theorem Guarded.cons {G : Http1 → Op → Prop} {sent : Http1 → List UserOp} {fuel : Nat} {c d : Http1}
    {op : Op} {ops : List Op} (hStep : c.step sent fuel op = .ok d) (hGuard : G c op)
    (h : d.Guarded G sent fuel ops) : c.Guarded G sent fuel (op :: ops) := by
  refine ⟨hGuard, ?_⟩
  intro d' hStep'
  rw [hStep] at hStep'
  cases hStep'
  exact h

theorem guarded_of_forall {G : Http1 → Op → Prop} (sent : Http1 → List UserOp) (fuel : Nat)
    (c : Http1) (ops : List Op) (h : ∀ op ∈ ops, ∀ c, G c op) : c.Guarded G sent fuel ops := by
  induction ops generalizing c with
  | nil => trivial
  | cons op ops ih =>
      constructor
      · exact h op List.mem_cons_self c
      · intro d _
        exact ih d fun op hOp => h op (List.mem_cons_of_mem _ hOp)

end Http1

/-- The rule for a run. -/
theorem Kept.run {P : Http1 → Prop} {M : Nat → Http1 → Prop} {G : Http1 → Op → Prop}
    (h : Kept P M G) {sent : Http1 → List UserOp} (hSent : CallbackKeeps P M sent) {fuel : Nat}
    {c c' : Http1} {ops : List Op} (hc : P c) (hGuarded : c.Guarded G sent fuel ops)
    (hRun : c.run sent fuel ops = .ok c') : P c' := by
  induction ops generalizing c with
  | nil =>
      cases hRun
      exact hc
  | cons op ops ih =>
      obtain ⟨d, hStep, hRest⟩ := Http1.run_cons.mp hRun
      exact ih (h.step hSent hGuarded.1 hc hStep) (hGuarded.2 d hStep) hRest

/-- The rule for a run that ends in a fault. -/
theorem Blamed.run {P : Http1 → Prop} {M : Nat → Http1 → Prop} {G : Http1 → Op → Prop}
    {F : Fault → Prop} (h : Blamed P M G F) (hKept : Kept P M G) {sent : Http1 → List UserOp}
    (hSent : CallbackKeeps P M sent) (hBlamed : CallbackBlamed P M F sent) {fuel : Nat} {c : Http1}
    {e : Fault} {ops : List Op} (hc : P c) (hGuarded : c.Guarded G sent fuel ops)
    (hRun : c.run sent fuel ops = .error e) : F e := by
  induction ops generalizing c with
  | nil => cases hRun
  | cons op ops ih =>
      rw [Http1.run, List.foldlM_cons] at hRun
      rcases bind_eq_error.mp hRun with hStep | ⟨d, hStep, hRest⟩
      · exact h.step hKept hSent hBlamed hGuarded.1 hc hStep
      · exact ih (hKept.step hSent hGuarded.1 hc hStep) (hGuarded.2 d hStep) hRest

end Doormat.Protocol
