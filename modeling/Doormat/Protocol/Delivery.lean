import Doormat.Http.Messages
import Doormat.Protocol.Connection

/-! What the requests of a server connection are told. The requests are the messages that
have begun, in their order, and each is told what the decoder tells of its own message, to
its end or until an error of the connection cuts it short. -/
namespace Doormat.Protocol

open Bytes Doormat.Http

/-! ### What a request is told of its message -/

/-- What the handler makes of an event of the decoder. The headers come with the keepalive
setting of the connection. -/
inductive Conveys : Event → RemoteEvent → Prop
  | headers {p : Parser.Fields} {m : Message} (keepalive : Bool) :
      Conveys (.headersDone p m) (.headers (m.setData (m.data.setKeepalive keepalive)))
  | body {bytes : ByteString} : Conveys (.body bytes) (.body bytes)
  | trailer {key value : ByteString} : Conveys (.trailer key value) (.trailer key value)
  | completion : Conveys .completion .finished
  | error {e : Parser.Errno} : Conveys (.error e) (.error .decoding)

/-- The errors that all the objects of a connection are told. -/
def ErrorCode.cuts : ErrorCode → Bool
  | .closedByClient | .connectionClosed | .missingStreamElement => true
  | _ => false

/-- A request has been told all of a message that is over, or an error behind a part of it that does
not end it. -/
inductive Settled (es : List Event) (rs : List RemoteEvent) : Prop
  | whole (hOver : isOver es = true) (hTold : List.Forall₂ Conveys (toldOf es) rs)
  | cut {told : List Event} {front : List RemoteEvent} {e : ErrorCode} (hPart : told <+: toldOf es)
      (hOpen : isOver told = false) (hTold : List.Forall₂ Conveys told front) (hCuts : e.cuts = true)
      (hLast : rs = front ++ [.error e])

/-- A request has been told all of a message that is not over. -/
structure Underway (es : List Event) (r : Remote) : Prop where
  open_ : isOver es = false
  terminated : r.terminated = false
  told : List.Forall₂ Conveys (toldOf es) r.received

theorem toldOf_le (es : List Event) (ev : Event) : toldOf es <+: toldOf (es ++ [ev]) := by
  rw [toldOf_append]
  exact List.prefix_append _ _

/-- Nothing is told of a message that is settled. -/
theorem Settled.grow {es : List Event} {rs : List RemoteEvent} (h : Settled es rs) (ev : Event) :
    Settled (es ++ [ev]) rs := by
  cases h with
  | whole hOver hTold =>
      refine .whole (by rw [isOver_append, hOver, Bool.true_or]) ?_
      rwa [toldOf_isOver hOver]
  | cut hPart hOpen hTold hCuts hLast => exact .cut (hPart.trans (toldOf_le es ev)) hOpen hTold hCuts hLast

namespace Underway

variable {es : List Event} {r : Remote} {ev : Event} {re : RemoteEvent}

/-- One more event is told. -/
theorem told_append (h : Underway es r) (hTold : toldOf [ev] = [ev]) (hConveys : Conveys ev re) :
    List.Forall₂ Conveys (toldOf (es ++ [ev])) (r.received ++ [re]) := by
  rw [toldOf_open h.open_, hTold]
  exact List.rel_append h.told (.cons hConveys .nil)

theorem next (h : Underway es r) (hTold : toldOf [ev] = [ev]) (hEnds : ev.ends = false) (hConveys : Conveys ev re) :
    Underway (es ++ [ev]) { r with received := r.received ++ [re] } where
  open_ := by rw [isOver_append, h.open_, hEnds, Bool.false_or]
  terminated := h.terminated
  told := h.told_append hTold hConveys

theorem last (h : Underway es r) (hTold : toldOf [ev] = [ev]) (hEnds : ev.ends = true) (hConveys : Conveys ev re) :
    Settled (es ++ [ev]) (r.received ++ [re]) :=
  .whole (by rw [isOver_append, hEnds, Bool.or_true]) (h.told_append hTold hConveys)

/-- A single header line is not told. -/
theorem line (h : Underway es r) (key value : ByteString) : Underway (es ++ [.header key value]) r where
  open_ := by rw [isOver_append, h.open_, Bool.false_or]; rfl
  terminated := h.terminated
  told := by
    rw [toldOf_open h.open_, toldOf, toldOf, List.append_nil]
    exact h.told

theorem cut (h : Underway es r) {e : ErrorCode} (hCuts : e.cuts = true) :
    Settled es (r.received ++ [.error e]) :=
  .cut (List.prefix_refl _) ((isOver_toldOf es).trans h.open_) h.told hCuts rfl

end Underway

theorem underway_nil : Underway [] {} := ⟨rfl, rfl, .nil⟩

/-! ### The remote side of a connection -/

/-- The closure ends a remote object. -/
def Posted.endsRemote : Posted → Bool
  | .remoteEnded _ => true
  | _ => false

/-- What concerns the remote objects of a connection. -/
structure RemoteSide where
  role : Role
  connected : Bool
  opened : Nat
  remoteObjects : List Nat
  remotes : Nat → Remote
  decodingError : Bool
  managingContinue : Bool
  ending : List Posted

def Http1.remoteSide (c : Http1) : RemoteSide where
  role := c.role
  connected := c.connected
  opened := c.opened
  remoteObjects := c.remoteObjects
  remotes := c.remotes
  decodingError := c.decodingError
  managingContinue := c.managingContinue
  ending := c.posted.filter Posted.endsRemote

/-- The requests that have been opened have been told their messages. -/
def AllSettled (ms : List (List Event)) (s : RemoteSide) : Prop :=
  ∀ id es, ms[id]? = some es → id < s.opened → Settled es (s.remotes id).received

/-- The requests are the first messages, and all of them as long as there is a connector. -/
structure Books (ms : List (List Event)) (s : RemoteSide) : Prop where
  role : s.role = .server
  opened_le : s.opened ≤ ms.length
  opened_eq : s.connected = true → s.opened = ms.length
  unopened : ∀ id, s.opened ≤ id → s.remotes id = {}
  managingContinue : s.managingContinue = false
  ending : s.ending = []

/-- The request at hand and its message, `now`. -/
structure Hand (past : List (List Event)) (now : List Event) (s : RemoteSide) : Prop where
  remoteObjects : s.remoteObjects = [past.length]
  opened : s.opened = past.length + 1
  decodingError : s.decodingError = false
  underway : Underway now (s.remotes past.length)

/-- Every request has been told its message, but for one at most, which is being told. `b` tells
whether a message is under way. -/
inductive Delivering (b : Bool) (ms : List (List Event)) (s : RemoteSide) : Prop
  | idle (hBooks : Books ms s) (hIdle : s.remoteObjects = []) (hSettled : AllSettled ms s)
  | busy {past : List (List Event)} {now : List Event} (hBooks : Books ms s) (hBegun : b = true)
      (hMessages : ms = past ++ [now]) (hHand : Hand past now s) (hSettled : AllSettled past s)

theorem Delivering.books {b : Bool} {ms : List (List Event)} {s : RemoteSide} (h : Delivering b ms s) :
    Books ms s := by
  cases h with
  | idle hBooks => exact hBooks
  | busy hBooks => exact hBooks

/-! #### Events of the decoder -/

theorem Books.more {ms : List (List Event)} {s : RemoteSide} (h : Books ms s) {ev : Event} (hEv : ev.begins = false) :
    Books (addEvent ms ev) s := by
  have hLength := length_addEvent hEv ms
  exact { h with
    opened_le := hLength ▸ h.opened_le
    opened_eq := fun hConnected => (h.opened_eq hConnected).trans hLength.symm }

theorem allSettled_concat {past : List (List Event)} {now : List Event} {s : RemoteSide} :
    AllSettled (past ++ [now]) s ↔
      AllSettled past s ∧ (past.length < s.opened → Settled now (s.remotes past.length).received) := by
  constructor
  · intro h
    refine ⟨?_, fun hId => h past.length now List.getElem?_concat_length hId⟩
    intro id es hEs hId
    have hBelow : id < past.length := (List.getElem?_eq_some_iff.mp hEs).1
    apply h id es _ hId
    rwa [List.getElem?_append_left hBelow]
  · rintro ⟨hPast, hNow⟩
    intro id es hEs hId
    have hBound : id < (past ++ [now]).length := (List.getElem?_eq_some_iff.mp hEs).1
    rw [List.length_append, List.length_singleton] at hBound
    by_cases hBelow : id < past.length
    · rw [List.getElem?_append_left hBelow] at hEs
      exact hPast id es hEs hId
    · have hSame : id = past.length := by omega
      subst hSame
      rw [List.getElem?_concat_length] at hEs
      cases hEs
      exact hNow hId

theorem AllSettled.more {ms : List (List Event)} {s : RemoteSide} (h : AllSettled ms s) {ev : Event} (hEv : ev.begins = false) :
    AllSettled (addEvent ms ev) s := by
  rcases List.eq_nil_or_concat' ms with rfl | ⟨past, now, rfl⟩
  · rw [addEvent_nil hEv]
    exact h
  · rw [addEvent_concat hEv]
    rw [allSettled_concat] at h ⊢
    exact ⟨h.1, fun hId => (h.2 hId).grow ev⟩

/-- The requests before the one at hand do not change. -/
theorem AllSettled.of_below {past : List (List Event)} {s s' : RemoteSide} (h : AllSettled past s)
    (hRemotes : ∀ id < past.length, s'.remotes id = s.remotes id)
    (hOpened : ∀ id < past.length, id < s'.opened → id < s.opened) : AllSettled past s' := by
  intro id es hEs hId
  have hBelow : id < past.length := (List.getElem?_eq_some_iff.mp hEs).1
  rw [hRemotes id hBelow]
  exact h id es hEs (hOpened id hBelow hId)

variable {b : Bool} {ms past : List (List Event)} {now : List Event} {ev : Event} {re : RemoteEvent} {s : RemoteSide}

/-- An event that no request is there for. -/
theorem Delivering.deaf (h : Delivering b ms s) (hIdle : s.remoteObjects = []) (hEv : ev.begins = false)
    (b' decodingError : Bool) : Delivering b' (addEvent ms ev) { s with decodingError := decodingError } := by
  have hBooks := h.books.more hEv
  refine .idle { hBooks with } hIdle ?_
  cases h with
  | idle _ _ hSettled => exact hSettled.more hEv
  | busy _ _ _ hHand =>
      rw [hHand.remoteObjects] at hIdle
      cases hIdle

/-- A single header line is not told. -/
theorem Delivering.line (h : Delivering b ms s) (key value : ByteString) :
    Delivering b (addEvent ms (.header key value)) s := by
  cases h with
  | idle hBooks hIdle hSettled =>
      exact Delivering.deaf (.idle hBooks hIdle hSettled : Delivering b ms s) hIdle rfl b s.decodingError
  | busy hBooks hBegun hMessages hHand hSettled =>
      subst hMessages
      rw [addEvent_concat rfl]
      refine .busy ?_ hBegun rfl { hHand with underway := hHand.underway.line key value } hSettled
      rw [← addEvent_concat rfl]
      exact hBooks.more rfl

/-- The request at hand after an event. -/
def RemoteSide.tell (s : RemoteSide) (id : Nat) (re : RemoteEvent) : RemoteSide :=
  { s with
    remotes := Function.update s.remotes id
      { s.remotes id with received := (s.remotes id).received ++ [re] } }

/-- The request at hand after its last event. -/
def RemoteSide.finish (s : RemoteSide) (id : Nat) (re : RemoteEvent) : RemoteSide :=
  { s with
    remoteObjects := []
    remotes := Function.update s.remotes id
      { terminated := true, received := (s.remotes id).received ++ [re] } }

/-- A request that has been opened changes. -/
theorem Books.update (h : Books (past ++ [now]) s) (hHand : Hand past now s) (now' : List Event)
    (queue : List Nat) (r : Remote) : Books (past ++ [now']) { s with
      remoteObjects := queue
      remotes := Function.update s.remotes past.length r } where
  role := h.role
  opened_le := by simpa using h.opened_le
  opened_eq := by simpa using h.opened_eq
  unopened := by
    intro id hId
    have hNe : id ≠ past.length := by
      have hOpened := hHand.opened
      dsimp only at hId
      omega
    dsimp only at hId ⊢
    rw [Function.update_of_ne hNe]
    exact h.unopened id hId
  managingContinue := h.managingContinue
  ending := h.ending

theorem AllSettled.update (h : AllSettled past s) (queue : List Nat) (r : Remote) :
    AllSettled past { s with
      remoteObjects := queue
      remotes := Function.update s.remotes past.length r } := by
  refine h.of_below ?_ fun _ _ hId => hId
  intro id hId
  exact Function.update_of_ne (by omega) _ _

/-- The request at hand is told one more event. -/
theorem Delivering.tell (hBooks : Books (past ++ [now]) s) (hHand : Hand past now s) (hSettled : AllSettled past s)
    (hTold : toldOf [ev] = [ev]) (hEnds : ev.ends = false) (hConveys : Conveys ev re) :
    Delivering true (addEvent (past ++ [now]) ev) (s.tell past.length re) := by
  rw [addEvent_concat (begins_of_told hTold)]
  refine .busy (hBooks.update hHand _ _ _) rfl rfl ?_ (hSettled.update _ _)
  refine ⟨hHand.remoteObjects, hHand.opened, hHand.decodingError, ?_⟩
  rw [RemoteSide.tell]
  dsimp only
  rw [Function.update_self]
  exact hHand.underway.next hTold hEnds hConveys

/-- The request at hand has nothing more to be told. -/
theorem Delivering.finish (hBooks : Books (past ++ [now]) s) (hHand : Hand past now s) (hSettled : AllSettled past s)
    {now' : List Event} (hNow : Settled now' ((s.remotes past.length).received ++ [re])) :
    Delivering b (past ++ [now']) (s.finish past.length re) := by
  refine .idle (hBooks.update hHand _ _ _) rfl ?_
  refine allSettled_concat.mpr ⟨hSettled.update _ _, fun _ => ?_⟩
  rw [RemoteSide.finish]
  dsimp only
  rw [Function.update_self]
  exact hNow

/-- The request at hand is told the last event of its message. -/
theorem Delivering.last (hBooks : Books (past ++ [now]) s) (hHand : Hand past now s) (hSettled : AllSettled past s)
    (hTold : toldOf [ev] = [ev]) (hEnds : ev.ends = true) (hConveys : Conveys ev re) :
    Delivering b (addEvent (past ++ [now]) ev) (s.finish past.length re) := by
  rw [addEvent_concat (begins_of_told hTold)]
  exact Delivering.finish hBooks hHand hSettled (hHand.underway.last hTold hEnds hConveys)

/-- A message begins. The connection opens a request for it if there is a connector. -/
theorem Delivering.opens (h : Delivering false ms s) (hConnected : s.connected = true) :
    Delivering true (ms ++ [[]]) { s with
      opened := s.opened + 1
      remoteObjects := s.remoteObjects ++ [s.opened]
      decodingError := false
      managingContinue := false } := by
  cases h with
  | busy _ hBegun => cases hBegun
  | idle hBooks hIdle hSettled =>
      have hOpened := hBooks.opened_eq hConnected
      refine .busy ?_ rfl rfl ?_ ?_
      · constructor
        · exact hBooks.role
        · simpa using hBooks.opened_le
        · simpa using hBooks.opened_eq
        · exact fun id hId => hBooks.unopened id (by dsimp only at hId; omega)
        · rfl
        · exact hBooks.ending
      · refine ⟨?_, by rw [hOpened], rfl, ?_⟩
        · rw [hIdle, hOpened]
          rfl
        · dsimp only
          rw [hBooks.unopened ms.length (by omega)]
          exact underway_nil
      · refine hSettled.of_below (fun _ _ => rfl) ?_
        intro id hId _
        omega

theorem Delivering.misses (h : Delivering false ms s) (hConnected : s.connected = false) :
    Delivering true (ms ++ [[]]) { s with decodingError := false, managingContinue := false } := by
  cases h with
  | busy _ hBegun => cases hBegun
  | idle hBooks hIdle hSettled =>
      refine .idle ?_ hIdle ?_
      · constructor
        · exact hBooks.role
        · have hOpened := hBooks.opened_le
          dsimp only
          rw [List.length_append]
          omega
        · intro hConnected'
          rw [hConnected] at hConnected'
          cases hConnected'
        · exact hBooks.unopened
        · rfl
        · exact hBooks.ending
      · refine allSettled_concat.mpr ⟨hSettled, fun hId => ?_⟩
        exact absurd hId (Nat.not_lt.mpr hBooks.opened_le)

/-! #### The handler beside its remote side -/

namespace Http1

variable {c d : Http1}

theorem remoteSide_setLocal (c : Http1) (id : Nat) (l : Local) : (c.setLocal id l).remoteSide = c.remoteSide := rfl

/-- A closure that ends no remote object is posted. -/
theorem remoteSide_post (c : Http1) {ps : List Posted} (h : ∀ p ∈ ps, p.endsRemote = false) :
    (c.post ps).remoteSide = c.remoteSide := by
  have hNone : ps.filter Posted.endsRemote = [] := by
    rw [List.filter_eq_nil_iff]
    intro p hp
    rw [h p hp]
    exact Bool.false_ne_true
  rw [remoteSide, post]
  dsimp only
  rw [List.filter_append, hNone, List.append_nil]
  rfl

theorem remoteSide_postFeedbacks (c : Http1) : c.postFeedbacks.remoteSide = c.remoteSide := by
  apply remoteSide_post c
  intro p hp
  obtain ⟨f, -, rfl⟩ := List.mem_map.mp hp
  rfl

theorem remoteSide_connectorDoWrite (c : Http1) : c.connectorDoWrite.remoteSide = c.remoteSide :=
  connectorDoWrite_keeps Http1.remoteSide (fun _ _ _ => rfl) (fun _ _ => rfl) remoteSide_postFeedbacks (fun _ => rfl) c

theorem remoteSide_doWrite (c : Http1) : c.doWrite.remoteSide = c.remoteSide :=
  doWrite_keeps Http1.remoteSide (fun _ _ _ => rfl) (fun _ _ => rfl) remoteSide_postFeedbacks (fun _ => rfl) c

theorem remoteSide_written (c : Http1) (r : WriteResult) : (c.written r).remoteSide = c.remoteSide := by
  have hFeedbacks : ∀ (fs : List Feedback) (success : Bool),
      ∀ p ∈ fs.map fun f => Posted.feedback f success, p.endsRemote = false := by
    intro fs success p hp
    obtain ⟨f, -, rfl⟩ := List.mem_map.mp hp
    rfl
  rw [written]
  split
  · rfl
  · cases r with
    | ok =>
        dsimp only
        rw [remoteSide_connectorDoWrite, remoteSide_post _ (hFeedbacks _ _)]
        rfl
    | failed =>
        dsimp only
        rw [remoteSide_post _ (hFeedbacks _ _)]
        rfl
    | cancelled =>
        dsimp only
        rw [remoteSide_post _ (hFeedbacks _ _)]
        rfl

theorem remoteSide_callback (c : Http1) (id : Nat) : (c.post [.callback id]).remoteSide = c.remoteSide := by
  apply remoteSide_post
  intro p hp
  cases List.mem_singleton.mp hp
  rfl

theorem remoteSide_localError (c : Http1) (e : ErrorCode) (id : Nat) :
    (c.localError e id).remoteSide = c.remoteSide :=
  localError_keeps Http1.remoteSide remoteSide_setLocal remoteSide_callback c e id

theorem remoteSide_localCleared (c : Http1) (id : Nat) : (c.localCleared id).remoteSide = c.remoteSide := by
  rw [localCleared]
  split
  · exact remoteSide_callback _ id
  · rfl

/-! What is serialised does not concern the remote side. -/

theorem remoteSide_notifyLocalHeaders {id : Nat} {m : Message} (hRun : c.notifyLocalHeaders id m = .ok d) :
    d.remoteSide = c.remoteSide := by
  obtain ⟨_, _, -, rfl⟩ := notifyLocalHeaders_ok.mp hRun
  exact remoteSide_doWrite _

theorem remoteSide_notifyLocalBody {id : Nat} (hRun : c.notifyLocalBody id = .ok d) : d.remoteSide = c.remoteSide := by
  obtain ⟨_, _, -, rfl⟩ := notifyLocalBody_ok.mp hRun
  exact remoteSide_doWrite _

theorem remoteSide_notifyLocalTrailer {id : Nat} {key value : ByteString}
    (hRun : c.notifyLocalTrailer id key value = .ok d) : d.remoteSide = c.remoteSide := by
  obtain ⟨_, _, -, rfl⟩ := notifyLocalTrailer_ok.mp hRun
  exact remoteSide_doWrite _

theorem remoteSide_notifyLocalEnd {id : Nat} (hRun : c.notifyLocalEnd id = .ok d) : d.remoteSide = c.remoteSide := by
  obtain ⟨_, _, -, rfl⟩ := notifyLocalEnd_ok.mp hRun
  exact remoteSide_doWrite _

theorem remoteSide_notifyContinue {id : Nat} (hRun : c.notifyContinue id = .ok d) : d.remoteSide = c.remoteSide := by
  obtain ⟨_, _, _, _, -, -, rfl⟩ := notifyContinue_ok.mp hRun
  exact remoteSide_doWrite _

theorem remoteSide_popFront (hRun : c.popFront = .ok d) : d.remoteSide = c.remoteSide := by
  obtain ⟨_, _, -, rfl⟩ := popFront_ok.mp hRun
  rfl

/-- The next closure is taken, and ends no remote object. -/
theorem remoteSide_taken {p : Posted} {rest : List Posted} (hPosted : c.posted = p :: rest)
    (hp : p.endsRemote = false) : ({ c with posted := rest } : Http1).remoteSide = c.remoteSide := by
  rw [remoteSide, remoteSide, hPosted, List.filter_cons_of_neg (by simp [hp])]

theorem getCurrent_idle (h : c.remoteObjects = []) :
    ∃ d b, c.getCurrent = (none, d) ∧ d.remoteSide = { c.remoteSide with decodingError := b } := by
  rw [getCurrent]
  split
  · exact ⟨c, c.decodingError, rfl, rfl⟩
  · rw [h]
    exact ⟨_, true, rfl, by rw [← h]; rfl⟩

theorem getCurrent_hand (h : Hand past now c.remoteSide) : c.getCurrent = (some past.length, c) := by
  have hError : c.decodingError = false := h.decodingError
  have hRemotes : c.remoteObjects = [past.length] := h.remoteObjects
  have hOpen : (c.remotes past.length).terminated = false := h.underway.terminated
  rw [getCurrent, hError, hRemotes]
  simp [hOpen]

/-- A request is terminated at once. -/
theorem remoteEnd_server (hRole : c.role = .server) {id : Nat} (hOpen : (c.remotes id).terminated = false)
    (re : RemoteEvent) : c.remoteEnd id re =
      c.setRemote id { terminated := true, received := (c.remotes id).received ++ [re] } := by
  have hServer : ∀ r, (c.setRemote id r).role = .server := fun _ => hRole
  rw [remoteEnd, hOpen, if_neg Bool.false_ne_true]
  dsimp only
  rw [if_pos (hServer _), hRole]
  rfl

/-- All requests are told an error, and all transactions are gone. -/
theorem remoteSide_notifyAll (c : Http1) (e : ErrorCode) :
    (c.notifyAll e).remoteSide =
      { (c.remoteObjects.foldl (fun c id => c.remoteEnd id (.error e)) c).remoteSide with remoteObjects := [] } := by
  have hLocals : ∀ d : Http1, (d.localObjects.foldl (fun c id => if c.alive id then c.localError e id else c)
      d).remoteSide = d.remoteSide := by
    intro d
    apply foldl_keeps Http1.remoteSide
    intro d id
    split
    · exact remoteSide_localError d e id
    · rfl
  exact congrArg (fun s : RemoteSide => { s with remoteObjects := [] }) (hLocals _)

end Http1

section Steps

variable {c d : Http1}

/-- All requests are told an error. -/
theorem Delivering.notifyAll (h : Delivering b ms c.remoteSide) {e : ErrorCode} (hCuts : e.cuts = true) :
    Delivering b ms (c.notifyAll e).remoteSide ∧ (c.notifyAll e).remoteObjects = [] := by
  refine ⟨?_, rfl⟩
  rw [Http1.remoteSide_notifyAll]
  cases h with
  | idle hBooks hIdle hSettled =>
      have hIdle' : c.remoteObjects = [] := hIdle
      rw [hIdle', List.foldl_nil]
      exact .idle { hBooks with } rfl hSettled
  | busy hBooks hBegun hMessages hHand hSettled =>
      subst hMessages
      have hRemotes : c.remoteObjects = [_] := hHand.remoteObjects
      rw [hRemotes, List.foldl_cons, List.foldl_nil, Http1.remoteEnd_server hBooks.role hHand.underway.terminated]
      exact Delivering.finish hBooks hHand hSettled (hHand.underway.cut hCuts)

/-- The connector goes. -/
theorem Delivering.disconnect (h : Delivering b ms s) : Delivering b ms { s with connected := false } := by
  have hBooks : Books ms { s with connected := false } :=
    { h.books with opened_eq := fun hConnected => absurd hConnected Bool.false_ne_true }
  cases h with
  | idle _ hIdle hSettled => exact .idle hBooks hIdle hSettled
  | busy _ hBegun hMessages hHand hSettled => exact .busy hBooks hBegun hMessages { hHand with } hSettled

theorem Delivering.loseConnector (h : Delivering b ms c.remoteSide) : Delivering b ms c.loseConnector.remoteSide := by
  have hLost : Delivering b ms ({ c with connected := false } : Http1).remoteSide := h.disconnect
  rw [Http1.loseConnector, Http1.onConnectorNulled]
  split
  · exact hLost
  · have hFeedbacks : ∀ d : Http1, (d.pendingClearCallbacks.foldl
        (fun c f => c.localError .missingStreamElement f.id) d).remoteSide = d.remoteSide := by
      intro d
      exact Http1.foldl_keeps Http1.remoteSide (fun c (f : Feedback) => Http1.remoteSide_localError c _ f.id) _ d
    have hAll := (hLost.notifyAll (e := .closedByClient) rfl).1
    exact (hFeedbacks _).symm ▸ hAll

/-- What the application does, and what the closures do, tells no request anything but an error. -/
theorem Delivering.locallyKept (b : Bool) (ms : List (List Event)) :
    LocallyKept (fun c => Delivering b ms c.remoteSide) (fun _ c => Delivering b ms c.remoteSide) fun _ _ => True where
  edit _ h := h
  create _ hRole h := by
    have hServer := h.books.role.symm.trans hRole
    cases hServer
  ends _ _ hRole h := by
    have hServer := h.books.role.symm.trans hRole
    cases hServer
  continues _ h := h
  postEnd := by
    intro c id _ _ h
    rw [Http1.remoteSide_post]
    · exact h
    · intro p hp
      cases List.mem_singleton.mp hp
      rfl
  runEnd hPosted h := (Http1.remoteSide_taken hPosted rfl).symm ▸ h
  ran h := h
  close := by
    intro c _ h
    rw [Http1.close]
    refine (Delivering.notifyAll ?_ rfl).1
    split
    · exact h
    · exact h
  persistentSet _ h := h
  headers _ _ h hRun := (Http1.remoteSide_notifyLocalHeaders hRun).symm ▸ h
  body _ h hRun := (Http1.remoteSide_notifyLocalBody hRun).symm ▸ h
  trailer _ h hRun := (Http1.remoteSide_notifyLocalTrailer hRun).symm ▸ h
  finish _ _ h hRun := (Http1.remoteSide_notifyLocalEnd hRun).symm ▸ h
  interim _ _ h hRun := (Http1.remoteSide_notifyContinue hRun).symm ▸ h
  removed h hRun := (Http1.remoteSide_popFront hRun).symm ▸ h
  expired := by
    intro c id rest _ _ h
    have hSame : Delivering b ms (c.error .missingStreamElement).remoteSide := h
    exact (hSame.notifyAll rfl).1
  cleared hPosted h := by
    rw [Http1.remoteSide_localCleared, Http1.remoteSide_taken hPosted rfl]
    exact h
  failed hPosted h := by
    rw [Http1.remoteSide_localError, Http1.remoteSide_taken hPosted rfl]
    exact h
  remoteEnded := by
    intro c id rest hPosted h
    have hEnding : c.posted.filter Posted.endsRemote = [] := h.books.ending
    rw [hPosted] at hEnding
    cases hEnding
  called hPosted h := (Http1.remoteSide_taken hPosted rfl).symm ▸ h

/-! #### Callbacks of the decoder -/

theorem Delivering.decodingStart (h : Delivering false ms c.remoteSide) :
    Delivering true (addEvent ms .begin) c.decodingStart.remoteSide := by
  have hRole : ({ c with decodingError := false, managingContinue := false } : Http1).role = .server := h.books.role
  rw [Http1.decodingStart]
  dsimp only
  rw [if_pos hRole, Http1.getUserHandlers]
  split
  case isTrue hLost =>
    have hLost : c.connected = false := by simpa using hLost
    exact h.misses hLost
  case isFalse hConnected =>
    have hConnected : c.connected = true := by simpa using hConnected
    exact h.opens hConnected

/-- No request is there for an event, or the request at hand is. -/
inductive Current (b : Bool) (ms : List (List Event)) (c : Http1) : Prop
  | nobody {d : Http1} (hCurrent : c.getCurrent = (none, d))
      (hNext : ∀ ev b', ev.begins = false → Delivering b' (addEvent ms ev) d.remoteSide)
  | hand {past : List (List Event)} {now : List Event} (hBegun : b = true) (hMessages : ms = past ++ [now])
      (hCurrent : c.getCurrent = (some past.length, c)) (hBooks : Books (past ++ [now]) c.remoteSide)
      (hHand : Hand past now c.remoteSide) (hSettled : AllSettled past c.remoteSide)

theorem Delivering.current (h : Delivering b ms c.remoteSide) : Current b ms c := by
  cases h with
  | idle hBooks hIdle hSettled =>
      obtain ⟨d, decodingError, hCurrent, hSame⟩ := Http1.getCurrent_idle hIdle
      refine .nobody hCurrent ?_
      intro ev b' hEv
      rw [hSame]
      exact Delivering.deaf (.idle hBooks hIdle hSettled : Delivering b ms c.remoteSide) hIdle hEv b' decodingError
  | busy hBooks hBegun hMessages hHand hSettled =>
      subst hMessages
      exact .hand hBegun rfl (Http1.getCurrent_hand hHand) hBooks hHand hSettled

theorem Delivering.decodedHeaders (h : Delivering b ms c.remoteSide) (garbage : Nat) (p : Parser.Fields) (m : Message) :
    Delivering b (addEvent ms (.headersDone p m)) (c.decodedHeaders garbage m).2.remoteSide := by
  rw [Http1.decodedHeaders]
  cases h.current with
  | nobody hCurrent hNext =>
      rw [hCurrent]
      exact hNext _ b rfl
  | hand hBegun hMessages hCurrent hBooks hHand hSettled =>
      subst hMessages hBegun
      have hRole : (c.record (.received m.data true)).role = .server := hBooks.role
      rw [hCurrent]
      dsimp only
      rw [if_pos hRole]
      exact Delivering.tell hBooks hHand hSettled rfl rfl (.headers _)

theorem Delivering.decodedBody (h : Delivering b ms c.remoteSide) (bytes : ByteString) :
    Delivering b (addEvent ms (.body bytes)) (c.decodedBody bytes).remoteSide := by
  rw [Http1.decodedBody]
  cases h.current with
  | nobody hCurrent hNext =>
      rw [hCurrent]
      exact hNext _ b rfl
  | hand hBegun hMessages hCurrent hBooks hHand hSettled =>
      subst hMessages hBegun
      rw [hCurrent]
      exact Delivering.tell hBooks hHand hSettled rfl rfl .body

theorem Delivering.decodedTrailer (h : Delivering b ms c.remoteSide) (key value : ByteString) :
    Delivering b (addEvent ms (.trailer key value)) (c.decodedTrailer key value).remoteSide := by
  rw [Http1.decodedTrailer]
  cases h.current with
  | nobody hCurrent hNext =>
      rw [hCurrent]
      exact hNext _ b rfl
  | hand hBegun hMessages hCurrent hBooks hHand hSettled =>
      subst hMessages hBegun
      have hContinue : c.managingContinue = false := hBooks.managingContinue
      rw [hCurrent]
      dsimp only
      rw [if_neg (by rw [hContinue]; exact Bool.false_ne_true)]
      exact Delivering.tell hBooks hHand hSettled rfl rfl .trailer

theorem Delivering.decodingEnd (h : Delivering b ms c.remoteSide) :
    Delivering false (addEvent ms .completion) c.decodingEnd.remoteSide := by
  rw [Http1.decodingEnd]
  cases h.current with
  | nobody hCurrent hNext =>
      rw [hCurrent]
      exact hNext _ false rfl
  | hand hBegun hMessages hCurrent hBooks hHand hSettled =>
      subst hMessages hBegun
      have hRole : c.role = .server := hBooks.role
      have hQueue : c.remoteObjects = [_] := hHand.remoteObjects
      rw [hCurrent]
      dsimp only
      rw [if_pos hRole, Http1.remoteEnd_server hRole hHand.underway.terminated]
      have hTail : ∀ id r, (c.setRemote id r).remoteObjects.tail = [] := fun _ _ => congrArg List.tail hQueue
      rw [hTail]
      exact Delivering.last hBooks hHand hSettled rfl rfl .completion

theorem Delivering.decodingFailure (h : Delivering b ms c.remoteSide) (e : Parser.Errno)
    (hRun : c.decodingFailure = .ok d) : Delivering false (addEvent ms (.error e)) d.remoteSide := by
  cases h.current with
  | nobody hCurrent hNext =>
      rw [Http1.decodingFailure, hCurrent] at hRun
      cases hRun
      exact hNext _ false rfl
  | hand hBegun hMessages hCurrent hBooks hHand hSettled =>
      subst hMessages hBegun
      have hQueue : c.remoteObjects = [_] := hHand.remoteObjects
      rw [Http1.decodingFailure_some hCurrent] at hRun
      split at hRun
      · cases hRun
      case h_2 last hLast =>
        cases hRun
        have hSame : ∀ id, (c.failLast id last).remoteSide = (c.failCurrent id).remoteSide := by
          intro id
          rw [Http1.failLast]
          split
          · exact Http1.remoteSide_localError _ _ last
          · rfl
        rw [hSame, Http1.failCurrent, hQueue, Http1.remoteEnd_server hBooks.role hHand.underway.terminated]
        exact Delivering.last hBooks hHand hSettled rfl rfl .error

end Steps

/-! ### The connection -/

section Callbacks

variable {P : Http1 → Prop} {c c' : Http1}

/-- What the application does in a callback keeps what all its calls keep. -/
theorem LocallyKept.react (h : LocallyKept P (fun _ => P) fun _ _ => True) {app : Application} {fuel : Nat}
    (hc : P c) (hRun : c.react app fuel = .ok c') : P c' :=
  h.calls app.sent app.reacts fuel hc hRun

end Callbacks

variable {app : Application} {fuel garbage : Nat}

/-- The handler, as the decoder calls it. -/
def Attends (b : Bool) (trace : List Event) (user : Except Fault Http1) : Prop :=
  Holding (fun c => Delivering b (messagesOf trace) c.remoteSide) user

/-- A callback of the decoder, and what the application does in it. -/
theorem Attends.calls {b b' : Bool} {trace : List Event} {ev : Event} {user : Except Fault Http1}
    {f : Http1 → Except Fault Http1} (h : Attends b trace user)
    (hf : ∀ {c d}, Delivering b (messagesOf trace) c.remoteSide → f c = .ok d →
      Delivering b' (addEvent (messagesOf trace) ev) d.remoteSide) :
    Attends b' (trace ++ [ev]) (user >>= fun c => f c >>= Http1.react app fuel) := by
  rw [Attends, messagesOf_append]
  refine Holding.bind h ?_
  intro c c' hc hRun
  obtain ⟨d, hStep, hReact⟩ := bind_eq_ok.mp hRun
  exact (Delivering.locallyKept b' _).react (hf hc hStep) hReact

theorem handler_hears (app : Application) (fuel garbage : Nat) :
    Hears (handlerCallbacks app fuel garbage) Attends where
  begin m trace user h := by
    apply h.calls (f := fun c => .ok c.decodingStart)
    intro c d hc hRun
    cases hRun
    exact hc.decodingStart
  line key value b trace user h := by
    rw [Attends, messagesOf_append]
    exact fun c hUser => (h c hUser).line key value
  header p m b trace user h := by
    rcases user with f | c
    · intro c hRun
      cases hRun
    · rw [Attends, messagesOf_append]
      intro c' hRun
      have hHeaders := (h c rfl).decodedHeaders garbage p m
      exact (Delivering.locallyKept b _).react hHeaders hRun
  body bytes b trace user h := by
    apply h.calls (f := fun c => .ok (c.decodedBody bytes))
    intro c d hc hRun
    cases hRun
    exact hc.decodedBody bytes
  trailer key value b trace user h := by
    apply h.calls (f := fun c => .ok (c.decodedTrailer key value))
    intro c d hc hRun
    cases hRun
    exact hc.decodedTrailer key value
  completion := by
    intro b trace user h
    apply h.calls (f := fun c => .ok c.decodingEnd)
    intro c d hc hRun
    cases hRun
    exact hc.decodingEnd
  error e b trace user h := h.calls fun hc hRun => hc.decodingFailure e hRun

/-- A call that is not one of the decoder. -/
theorem Delivering.step {b : Bool} {ms : List (List Event)} {c d : Http1} {op : Op} (hOp : op.decoded = false)
    (h : Delivering b ms c.remoteSide) (hRun : c.step app.sent fuel op = .ok d) : Delivering b ms d.remoteSide := by
  have hKept := Delivering.locallyKept b ms
  cases op with
  | user op => exact hKept.userOp (hKept.notifyLocalContent (hKept.callbackKeeps app.sent)) trivial h hRun
  | posted => exact hKept.runPosted (hKept.notifyLocalContent (hKept.callbackKeeps app.sent)) h hRun
  | decodingStart => cases hOp
  | decodedHeaders m => cases hOp
  | decodedBody bytes => cases hOp
  | decodedTrailer key value => cases hOp
  | decodingEnd => cases hOp
  | decodingFailure => cases hOp
  | written r =>
      cases hRun
      rw [Http1.remoteSide_written]
      exact h
  | readFailed =>
      cases hRun
      exact h
  | connectorLost =>
      cases hRun
      split
      · exact h.loseConnector
      · exact h

/-- What the requests of a connection have been told. -/
theorem Attends.told {b : Bool} {trace : List Event} {h : Http1} (hAttends : Attends b trace (.ok h)) {id : Nat}
    {es : List Event} (hEs : (messagesOf trace)[id]? = some es) (hId : id < h.opened) :
    Settled es (h.remotes id).received ∨ (Underway es (h.remotes id) ∧ h.remoteObjects = [id] ∧
      id + 1 = (messagesOf trace).length) := by
  cases hAttends h rfl with
  | idle _ _ hSettled => exact .inl (hSettled id es hEs hId)
  | @busy past now _ _ hMessages hHand hSettled =>
      have hOpened : h.opened = past.length + 1 := hHand.opened
      rw [hMessages] at hEs ⊢
      by_cases hBelow : id < past.length
      · rw [List.getElem?_append_left hBelow] at hEs
        exact .inl (hSettled id es hEs hId)
      · have hSame : id = past.length := by omega
        subst hSame
        rw [List.getElem?_concat_length] at hEs
        cases hEs
        exact .inr ⟨hHand.underway, hHand.remoteObjects, by simp⟩

namespace Connection

variable {c d : Connection} {ins : List Input}

/-- What a read keeps of a connection, and what the calls between two reads keep. -/
structure Retains (app : Application) (fuel garbage : Nat) (P : Connection → Prop) : Prop where
  decode : ∀ {c piece codec ok}, P c →
    c.codec.decode (handlerCallbacks app fuel garbage) piece = .ok (codec, ok) → P { codec, reading := ok }
  stop : ∀ {c : Connection}, P c → P (c.mapHandler (·.map Http1.stop))
  op : ∀ {c : Connection} {op : Op}, op.decoded = false → P c →
    P (c.mapHandler (· >>= fun h => h.step app.sent fuel op))

theorem Retains.step {P : Connection → Prop} (hRetains : Retains app fuel garbage P) (h : P c) {inp : Input}
    (hRun : c.step app fuel garbage inp = .ok d) : P d := by
  cases inp with
  | op op =>
      cases hRun
      split
      · exact h
      case isFalse hOp => exact hRetains.op (by simpa using hOp) h
  | read piece =>
      have hRead : c.read app fuel garbage piece = .ok d := hRun
      unfold Connection.read at hRead
      split at hRead
      · cases hRead
        exact h
      · obtain ⟨⟨codec, ok⟩, hDecode, hRest⟩ := Http.bind_eq_ok.mp hRead
        have hNext := hRetains.decode h hDecode
        cases ok with
        | true =>
            cases hRest
            exact hNext
        | false =>
            cases hRest
            exact hRetains.stop hNext

theorem Retains.run {P : Connection → Prop} (hRetains : Retains app fuel garbage P) (h : P c)
    (hRun : c.run app fuel garbage ins = .ok d) : P d := by
  induction ins generalizing c with
  | nil =>
      cases hRun
      exact h
  | cons inp ins ih =>
      obtain ⟨e, hStep, hRest⟩ := Http.bind_eq_ok.mp hRun
      exact ih (hRetains.step h hStep) hRest

theorem attends_start (garbage : Nat) : Conducts (Heard Attends) (start .server garbage) := by
  apply Conducts.start
  refine ⟨Impl.reset_tracks (d := Impl.init _ _) [] false, ?_⟩
  intro c hc
  cases hc
  refine .idle ⟨rfl, Nat.le_refl _, fun _ => rfl, fun _ _ => rfl, rfl, rfl⟩ rfl ?_
  intro id es hEs
  cases hEs

theorem attends_mapHandler (h : Conducts (Heard Attends) c) {f : Except Fault Http1 → Except Fault Http1}
    (hf : ∀ {b trace user}, Attends b trace user → Attends b trace (f user)) :
    Conducts (Heard Attends) (c.mapHandler f) := by
  apply h.mapHandler
  intro a hHeard
  exact ⟨{ hHeard.tracks with }, hf hHeard.heard⟩

theorem attends_retained (app : Application) (fuel garbage : Nat) :
    Retains app fuel garbage (Conducts (Heard Attends)) where
  decode h hDecode := h.decode (handler_hears app fuel garbage).invariant hDecode _
  stop h := by
    apply attends_mapHandler h
    intro b trace user hUser
    rcases user with f | h
    · intro c hc
      cases hc
    · intro c hc
      cases hc
      exact hUser h rfl
  op hOp h := by
    apply attends_mapHandler h
    intro b trace user hUser
    exact Holding.bind hUser fun hc hStep => hc.step hOp hStep

/-- On a server the requests are the messages that have begun, in order, and all of them while there is a
connector. Each has been told what the decoder has told of its own message and nothing else: all of it, or a
part of it and the error that has ended the connection for it. -/
theorem requests_delivered (app : Application) (fuel garbage : Nat) (ins : List Input) (c : Connection) (h : Http1)
    (hRun : (start .server garbage).run app fuel garbage ins = .ok c) (hHandler : c.handler = .ok h) :
    h.opened ≤ (messagesOf c.codec.impl.trace).length ∧
    (h.connected = true → h.opened = (messagesOf c.codec.impl.trace).length) ∧
    (∀ id es, (messagesOf c.codec.impl.trace)[id]? = some es → id < h.opened →
      Settled es (h.remotes id).received ∨ (Underway es (h.remotes id) ∧ h.remoteObjects = [id] ∧
        id + 1 = (messagesOf c.codec.impl.trace).length)) ∧
    ∀ id, h.opened ≤ id → (h.remotes id).received = [] := by
  obtain ⟨a, hHeard, -⟩ := ((attends_retained app fuel garbage).run (attends_start garbage) hRun).gathered
  have hAttends : Attends a.begun c.codec.impl.trace (.ok h) := hHandler ▸ hHeard.heard
  have hBooks := (hAttends h rfl).books
  refine ⟨hBooks.opened_le, hBooks.opened_eq, fun id es hEs hId => hAttends.told hEs hId, ?_⟩
  intro id hId
  have hNew : h.remotes id = {} := hBooks.unopened id hId
  rw [hNew]

/-- The run ends, and the handler has not faulted. -/
def serves (ins : List Input) : Bool :=
  match (start .server 0).run {} 9 0 ins with
  | .error _ => false
  | .ok c => c.handler.isOk

theorem serves_elim {ins : List Input} (h : serves ins = true) :
    ∃ c h, (start .server 0).run {} 9 0 ins = .ok c ∧ c.handler = .ok h := by
  unfold serves at h
  split at h
  · cases h
  case h_2 c hRun =>
    cases hCase : c.handler with
    | error f =>
        rw [hCase] at h
        cases h
    | ok h => exact ⟨c, h, hRun, hCase⟩

/-- A request with a body, one that the application closes the connection on, and one that comes later. -/
def closedOn : List Input :=
  [.read (ofString "POST /a HTTP/1.1\r\ncontent-length: 3\r\n\r\nab"),
    .read (ofString "cGET /b HTTP/1.1\r\nhost"), .op (.user .close), .read (ofString ": x\r\n\r\nGET /c HTTP/1.1\r\n")]

theorem requests_delivered_closed : ∃ c h, (start .server 0).run {} 9 0 closedOn = .ok c ∧ c.handler = .ok h ∧
    h.opened ≤ (messagesOf c.codec.impl.trace).length ∧
    (h.connected = true → h.opened = (messagesOf c.codec.impl.trace).length) ∧
    (∀ id es, (messagesOf c.codec.impl.trace)[id]? = some es → id < h.opened →
      Settled es (h.remotes id).received ∨ (Underway es (h.remotes id) ∧ h.remoteObjects = [id] ∧
        id + 1 = (messagesOf c.codec.impl.trace).length)) ∧
    ∀ id, h.opened ≤ id → (h.remotes id).received = [] := by
  have hServes : serves closedOn = true := by decide +kernel
  obtain ⟨c, h, hRun, hHandler⟩ := serves_elim hServes
  exact ⟨c, h, hRun, hHandler, requests_delivered {} 9 0 closedOn c h hRun hHandler⟩

end Connection

end Doormat.Protocol
