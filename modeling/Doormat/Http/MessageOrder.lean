import Doormat.Http.Messages
import Doormat.Http.Transcript

/-! The order in which a codec tells of each message: the headers, the pieces of the body, the
trailers, and one end. -/
namespace Doormat.Http

open Bytes Doormat.Parser

/-! ### What is told of one message -/

/-- The body and the trailers of a message. -/
def restEvents (bodies : List ByteString) (trailers : List (ByteString × ByteString)) : List Event :=
  bodies.map .body ++ trailers.map trailerEvent

/-- What is told of a message: nothing or an error, or the headers and what comes behind them, up to
at most one end. A message that is told to its completion has the body that its headers announce. -/
inductive Recited : List Event → Prop
  | nothing : Recited []
  | refused (e : Errno) : Recited [.error e]
  | part (p : Fields) (m : Message) (bodies : List ByteString) (trailers : List (ByteString × ByteString)) :
      Recited (.headersDone p m :: restEvents bodies trailers)
  | broken (p : Fields) (m : Message) (bodies : List ByteString) (trailers : List (ByteString × ByteString))
      (e : Errno) : Recited (.headersDone p m :: restEvents bodies trailers ++ [.error e])
  | whole (s : Spelled) (p : Fields) (m : Message) (bodies : List ByteString) (hFraming : s.framing = some p)
      (hBody : bodies.flatten = s.body) (hExact : s.Exact) :
      Recited (.headersDone p m :: restEvents bodies s.trailers ++ [.completion])

theorem toldOf_lines (lines : List (ByteString × ByteString)) (es : List Event) :
    toldOf (lines.map headerEvent ++ es) = toldOf es := by
  induction lines with
  | nil => rfl
  | cons line lines ih => exact ih

theorem toldOf_rest (bodies : List ByteString) (trailers : List (ByteString × ByteString)) (es : List Event) :
    toldOf (restEvents bodies trailers ++ es) = restEvents bodies trailers ++ toldOf es := by
  rw [restEvents, List.append_assoc, List.append_assoc]
  induction bodies with
  | nil =>
      induction trailers with
      | nil => rfl
      | cons trailer trailers ih => exact congrArg (trailerEvent trailer :: ·) ih
  | cons bytes bodies ih => exact congrArg (Event.body bytes :: ·) ih

theorem mem_of_toldOf {es : List Event} {ev : Event} (h : ev ∈ toldOf es) : ev ∈ es := by
  induction es with
  | nil => exact h
  | cons e es ih =>
      cases e with
      | begin => exact List.mem_cons_of_mem _ (ih h)
      | header key value => exact List.mem_cons_of_mem _ (ih h)
      | headersDone p m => exact List.mem_cons.mpr ((List.mem_cons.mp h).imp_right ih)
      | body bytes => exact List.mem_cons.mpr ((List.mem_cons.mp h).imp_right ih)
      | trailer key value => exact List.mem_cons.mpr ((List.mem_cons.mp h).imp_right ih)
      | completion => exact List.mem_cons.mpr (.inl (List.mem_singleton.mp h))
      | error e => exact List.mem_cons.mpr (.inl (List.mem_singleton.mp h))

/-! ### The messages of a transcript -/

/-- No message begins in these events. -/
def Within (es : List Event) : Prop := ∀ ev ∈ es, ev.begins = false

theorem Within.append {front back : List Event} (h : Within front) (h' : Within back) : Within (front ++ back) :=
  fun ev hEv => (List.mem_append.mp hEv).elim (h ev) (h' ev)

theorem within_single {ev : Event} (h : ev.begins = false) : Within [ev] := by
  intro e hEv
  rw [List.mem_singleton.mp hEv]
  exact h

theorem within_map {α : Type} {f : α → Event} (h : ∀ a, (f a).begins = false) (as : List α) : Within (as.map f) := by
  intro ev hEv
  obtain ⟨a, -, rfl⟩ := List.mem_map.mp hEv
  exact h a

theorem within_section (lines : List (ByteString × ByteString)) (p : Fields) (m : Message) (bodies : List ByteString)
    (trailers : List (ByteString × ByteString)) :
    Within (lines.map headerEvent ++ .headersDone p m :: restEvents bodies trailers) := by
  have hHeaders : Within ([.headersDone p m] ++ restEvents bodies trailers) :=
    (within_single rfl).append ((within_map (fun _ => rfl) _).append (within_map (fun _ => rfl) _))
  exact (within_map (fun _ => rfl) lines).append hHeaders

theorem messageEvents_eq (s : Spelled) (p : Fields) (m : Message) (bodies : List ByteString) :
    messageEvents s p m bodies =
      .begin :: (s.headers.map headerEvent ++ .headersDone p m :: restEvents bodies s.trailers) := rfl

theorem toldOf_section (lines : List (ByteString × ByteString)) (p : Fields) (m : Message) (bodies : List ByteString)
    (trailers : List (ByteString × ByteString)) (es : List Event) :
    toldOf (lines.map headerEvent ++ .headersDone p m :: restEvents bodies trailers ++ es) =
      .headersDone p m :: restEvents bodies trailers ++ toldOf es := by
  rw [List.append_assoc, toldOf_lines]
  exact congrArg (Event.headersDone p m :: ·) (toldOf_rest bodies trailers es)

/-- A message with all its events. -/
theorem messagesOf_message (trace : List Event) {es : List Event} (h : Within es) :
    messagesOf (trace ++ .begin :: es) = messagesOf trace ++ [es] := by
  induction es using List.reverseRecOn with
  | nil => exact messagesOf_append trace .begin
  | append_singleton es ev ih =>
      have hFront : Within es := fun e hEv => h e (List.mem_append_left _ hEv)
      have hLast : ev.begins = false := h ev (List.mem_append_right _ (List.mem_singleton.mpr rfl))
      rw [← List.cons_append, ← List.append_assoc, messagesOf_append, ih hFront, addEvent_concat hLast]

/-- What holds of the messages before, and of one more message. -/
theorem forall_messagesOf {P : List Event → Prop} {trace message : List Event} (h : ∀ es ∈ messagesOf trace, P es)
    (hWithin : Within message) (hNew : P message) : ∀ es ∈ messagesOf (trace ++ .begin :: message), P es := by
  intro es hEs
  rw [messagesOf_message trace hWithin] at hEs
  rcases List.mem_append.mp hEs with hOld | hLast
  · exact h es hOld
  · rw [List.mem_singleton.mp hLast]
    exact hNew

/-- A message that has been told to its end. -/
structure Complete (es : List Event) : Prop where
  ended : isOver es = true
  recited : Recited (toldOf es)

theorem Complete.of_last {es : List Event} {ev : Event} (hEnds : ev.ends = true) (h : Recited (toldOf (es ++ [ev]))) :
    Complete (es ++ [ev]) where
  ended := by rw [isOver_append, hEnds, Bool.or_true]
  recited := h

/-- An error behind a message that is over. -/
theorem Complete.error {trace : List Event} (h : ∀ es ∈ messagesOf trace, Complete es) (e : Errno) :
    ∀ es ∈ messagesOf (trace ++ [.error e]), Complete es := by
  intro es hEs
  rw [messagesOf_append] at hEs
  rcases List.eq_nil_or_concat' (messagesOf trace) with hNone | ⟨past, now, hSome⟩
  · rw [hNone, addEvent_nil rfl] at hEs
    cases hEs
  · rw [hSome] at hEs h
    rw [addEvent_concat rfl] at hEs
    rcases List.mem_append.mp hEs with hOld | hNew
    · exact h es (List.mem_append_left _ hOld)
    · have hNow := h now (List.mem_append_right _ (List.mem_singleton.mpr rfl))
      rw [List.mem_singleton.mp hNew]
      apply Complete.of_last rfl
      rw [toldOf_isOver hNow.ended]
      exact hNow.recited

/-- The messages of a transcript are over, and are told in the order of their parts. -/
theorem Transcript.complete {trace : List Event} (h : Transcript trace) :
    ∀ es ∈ messagesOf trace, Complete es := by
  induction h with
  | nil =>
      intro es hEs
      cases hEs
  | @message trace message hBefore s hWhole hExact ih =>
      obtain ⟨p, m, bodies, hFraming, hBody, rfl⟩ := hWhole
      have hWithin := (within_section s.headers p m bodies s.trailers).append (@within_single .completion rfl)
      rw [messageEvents_eq, List.cons_append]
      apply forall_messagesOf ih hWithin
      apply Complete.of_last rfl
      rw [toldOf_section]
      exact .whole s p m bodies hFraming hBody hExact
  | @broken trace part hBefore hPart e ih =>
      cases hPart with
      | nothing =>
          rw [List.append_nil]
          exact Complete.error ih e
      | head lines =>
          have hWithin : Within (lines.map headerEvent ++ [.error e]) :=
            (within_map (fun _ => rfl) lines).append (within_single rfl)
          rw [List.append_assoc, List.cons_append]
          apply forall_messagesOf ih hWithin
          apply Complete.of_last rfl
          rw [toldOf_lines]
          exact .refused e
      | tail s p m bodies =>
          have hWithin := (within_section s.headers p m bodies s.trailers).append (@within_single (.error e) rfl)
          rw [List.append_assoc, messageEvents_eq, List.cons_append]
          apply forall_messagesOf ih hWithin
          apply Complete.of_last rfl
          rw [toldOf_section]
          exact .broken p m bodies s.trailers e

/-- The same with the message at hand, which need not be over. -/
theorem Transcript.recited {past now : List Event} (h : Transcript past) (hNow : Unfinished now) :
    ∀ es ∈ messagesOf (past ++ now), Recited (toldOf es) := by
  have hPast : ∀ es ∈ messagesOf past, Recited (toldOf es) := fun es hEs => (h.complete es hEs).recited
  cases hNow with
  | nothing =>
      rw [List.append_nil]
      exact hPast
  | head lines =>
      apply forall_messagesOf hPast (within_map (fun _ => rfl) lines)
      rw [← List.append_nil (lines.map headerEvent), toldOf_lines]
      exact .nothing
  | tail s p m bodies =>
      rw [messageEvents_eq]
      apply forall_messagesOf hPast (within_section s.headers p m bodies s.trailers)
      rw [← List.append_nil (_ ++ _), toldOf_section, toldOf, List.append_nil]
      exact .part p m bodies s.trailers

/-- A part of what is told of a message, without its end. -/
theorem Recited.front {es told : List Event} (h : Recited es) (hPart : told <+: es) (hOpen : isOver told = false) :
    told = [] ∨ ∃ p m bodies trailers, told = .headersDone p m :: restEvents bodies trailers := by
  have hRest : ∀ {t bodies trailers}, t <+: restEvents bodies trailers →
      ∃ bodies' trailers', t = restEvents bodies' trailers' := by
    intro t bodies trailers hPart
    rcases List.prefix_or_prefix_of_prefix hPart (List.prefix_append _ _) with hBodies | ⟨u, rfl⟩
    · obtain ⟨bodies', -, rfl⟩ := List.prefix_map_iff.mp hBodies
      exact ⟨bodies', [], (List.append_nil _).symm⟩
    · obtain ⟨trailers', -, rfl⟩ := List.prefix_map_iff.mp ((List.prefix_append_right_inj _).mp hPart)
      exact ⟨bodies, trailers', rfl⟩
  have hSection : ∀ {p m bodies trailers}, told <+: .headersDone p m :: restEvents bodies trailers →
      told = [] ∨ ∃ p m bodies trailers, told = .headersDone p m :: restEvents bodies trailers := by
    intro p m bodies trailers hPart
    rcases List.prefix_cons_iff.mp hPart with hNone | ⟨t, rfl, hTail⟩
    · exact .inl hNone
    · obtain ⟨bodies', trailers', rfl⟩ := hRest hTail
      exact .inr ⟨p, m, bodies', trailers', rfl⟩
  have hBefore : ∀ {front : List Event} {ev : Event}, ev.ends = true → told <+: front ++ [ev] → told <+: front := by
    intro front ev hEnds hPart
    refine (List.prefix_concat_iff.mp hPart).resolve_left ?_
    rintro rfl
    rw [isOver_append, hEnds, Bool.or_true] at hOpen
    cases hOpen
  cases h with
  | nothing => exact .inl (List.prefix_nil.mp hPart)
  | refused e => exact .inl (List.prefix_nil.mp (@hBefore [] _ rfl hPart))
  | part => exact hSection hPart
  | broken => exact hSection (hBefore rfl hPart)
  | whole => exact hSection (hBefore rfl hPart)

/-! ### What may follow -/

/-- The headers of the message have been told. -/
def isAnnounced (es : List Event) : Bool := es.any fun
  | .headersDone _ _ => true
  | _ => false

/-- The message at hand, `now`, and the messages before it. -/
structure AtHand (ms past : List (List Event)) (now : List Event) : Prop where
  messages : ms = past ++ [now]
  pastOver : ∀ es ∈ past, isOver es = true
  open_ : isOver now = false

/-- Where an event has its place: a message begins once the ones before it are over, its lines come before its
headers are told, and the rest of it comes behind. -/
def Event.Fits (ms : List (List Event)) : Event → Prop
  | .begin => ∀ es ∈ ms, isOver es = true
  | .header _ _ | .headersDone _ _ => ∃ past now, AtHand ms past now ∧ isAnnounced now = false
  | .body _ | .trailer _ _ | .completion => ∃ past now, AtHand ms past now ∧ isAnnounced now = true
  | .error _ => True

/-- Every event has its place behind those before it. -/
def Ordered (trace : List Event) : Prop :=
  ∀ before ev after, trace = before ++ ev :: after → ev.Fits (messagesOf before)

variable {trace es now : List Event} {past : List (List Event)} {ev : Event} {b : Bool}

theorem ordered_append : Ordered (trace ++ [ev]) ↔ Ordered trace ∧ ev.Fits (messagesOf trace) := by
  constructor
  · intro h
    refine ⟨fun before e after hTrace => h before e (after ++ [ev]) ?_, h trace ev [] rfl⟩
    rw [hTrace, List.append_assoc, List.cons_append]
  · rintro ⟨hTrace, hLast⟩
    intro before e after hAll
    rcases List.eq_nil_or_concat' after with rfl | ⟨front, last, rfl⟩
    · obtain ⟨rfl, hSame⟩ := List.append_inj' hAll rfl
      cases hSame
      exact hLast
    · rw [← List.cons_append, ← List.append_assoc] at hAll
      exact hTrace before e front (List.append_inj' hAll rfl).1

theorem isAnnounced_append (es : List Event) (ev : Event) :
    isAnnounced (es ++ [ev]) = (isAnnounced es || isAnnounced [ev]) := by
  simp [isAnnounced]

/-- An event within a message. -/
theorem AtHand.more (h : AtHand (messagesOf trace) past now) (hBegins : ev.begins = false) (hEnds : ev.ends = false) :
    AtHand (messagesOf (trace ++ [ev])) past (now ++ [ev]) where
  messages := by rw [messagesOf_append, h.messages, addEvent_concat hBegins]
  pastOver := h.pastOver
  open_ := by rw [isOver_append, h.open_, hEnds, Bool.false_or]

/-- A message that has just begun. -/
theorem atHand_begin (h : ∀ es ∈ messagesOf trace, isOver es = true) :
    AtHand (messagesOf (trace ++ [.begin])) (messagesOf trace) [] where
  messages := messagesOf_append trace .begin
  pastOver := h
  open_ := rfl

/-- The events that come before the headers are told, and behind. -/
inductive Event.Continues : Bool → Event → Prop
  | header (key value : ByteString) : Continues false (.header key value)
  | body (bytes : ByteString) : Continues true (.body bytes)
  | trailer (key value : ByteString) : Continues true (.trailer key value)

theorem Ordered.continues (h : Ordered trace) (hHand : AtHand (messagesOf trace) past now) (hNow : isAnnounced now = b)
    (hEs : ∀ ev ∈ es, ev.Continues b) :
    Ordered (trace ++ es) ∧ ∃ now', AtHand (messagesOf (trace ++ es)) past now' ∧ isAnnounced now' = b := by
  induction es generalizing trace now with
  | nil =>
      rw [List.append_nil]
      exact ⟨h, now, hHand, hNow⟩
  | cons ev es ih =>
      rw [← List.singleton_append, ← List.append_assoc]
      have hFirst := hEs ev List.mem_cons_self
      have hFits : ev.Fits (messagesOf trace) := by
        cases hFirst with
        | header | body | trailer => exact ⟨past, now, hHand, hNow⟩
      have hFlags : ev.begins = false ∧ ev.ends = false ∧ isAnnounced [ev] = false := by
        cases hFirst with
        | header | body | trailer => exact ⟨rfl, rfl, rfl⟩
      refine ih (ordered_append.mpr ⟨h, hFits⟩) (hHand.more hFlags.1 hFlags.2.1) ?_ ?_
      · rw [isAnnounced_append, hNow, hFlags.2.2, Bool.or_false]
      · exact fun e hE => hEs e (List.mem_cons_of_mem _ hE)

theorem Ordered.begins (h : Ordered trace) (hOver : ∀ es ∈ messagesOf trace, isOver es = true)
    (lines : List (ByteString × ByteString)) :
    Ordered (trace ++ .begin :: lines.map headerEvent) ∧
      ∃ now, AtHand (messagesOf (trace ++ .begin :: lines.map headerEvent)) (messagesOf trace) now ∧
        isAnnounced now = false := by
  have hBegun : Ordered (trace ++ [.begin]) := ordered_append.mpr ⟨h, hOver⟩
  rw [← List.singleton_append, ← List.append_assoc]
  apply hBegun.continues (atHand_begin hOver) rfl
  intro ev hEv
  obtain ⟨line, -, rfl⟩ := List.mem_map.mp hEv
  exact .header line.1 line.2

theorem Ordered.message (h : Ordered trace) (hOver : ∀ es ∈ messagesOf trace, isOver es = true) (s : Spelled)
    (p : Fields) (m : Message) (bodies : List ByteString) :
    Ordered (trace ++ messageEvents s p m bodies) ∧
      ∃ now, AtHand (messagesOf (trace ++ messageEvents s p m bodies)) (messagesOf trace) now ∧
        isAnnounced now = true := by
  obtain ⟨hLines, now, hHand, hNow⟩ := h.begins hOver s.headers
  have hHeaders : Ordered (trace ++ .begin :: s.headers.map headerEvent ++ [.headersDone p m]) :=
    ordered_append.mpr ⟨hLines, _, now, hHand, hNow⟩
  have hAll : trace ++ messageEvents s p m bodies =
      trace ++ .begin :: s.headers.map headerEvent ++ [.headersDone p m] ++ restEvents bodies s.trailers := by
    rw [messageEvents_eq]
    simp
  rw [hAll]
  apply hHeaders.continues (hHand.more rfl rfl)
  · rw [isAnnounced_append]
    exact Bool.or_true _
  intro ev hEv
  rcases List.mem_append.mp hEv with hBody | hTrailer
  · obtain ⟨bytes, -, rfl⟩ := List.mem_map.mp hBody
    exact .body bytes
  · obtain ⟨trailer, -, rfl⟩ := List.mem_map.mp hTrailer
    exact .trailer trailer.1 trailer.2

theorem Ordered.unfinished (h : Ordered trace) (hOver : ∀ es ∈ messagesOf trace, isOver es = true)
    (hNow : Unfinished now) : Ordered (trace ++ now) := by
  cases hNow with
  | nothing =>
      rw [List.append_nil]
      exact h
  | head lines => exact (h.begins hOver lines).1
  | tail s p m bodies => exact (h.message hOver s p m bodies).1

theorem Transcript.allOver (h : Transcript trace) : ∀ es ∈ messagesOf trace, isOver es = true :=
  fun es hEs => (h.complete es hEs).ended

/-- The events of a transcript have their places. -/
theorem Transcript.ordered (h : Transcript trace) : Ordered trace := by
  induction h with
  | nil =>
      intro before ev after hTrace
      cases before with
      | nil => cases hTrace
      | cons e before => cases hTrace
  | @message es message hBefore s hWhole hExact ih =>
      obtain ⟨p, m, bodies, hFraming, hBody, rfl⟩ := hWhole
      obtain ⟨hMessage, now, hHand, hNow⟩ := ih.message hBefore.allOver s p m bodies
      rw [← List.append_assoc]
      exact ordered_append.mpr ⟨hMessage, _, now, hHand, hNow⟩
  | @broken es part hBefore hPart e ih => exact ordered_append.mpr ⟨ih.unfinished hBefore.allOver hPart, trivial⟩

theorem Recounted.ordered {υ : Type} {d : Impl υ} (h : Recounted d) : Ordered d.trace := by
  obtain ⟨past, now, hTrace, hPast, hNow⟩ := h
  rw [hTrace]
  exact hPast.ordered.unfinished hPast.allOver hNow

end Doormat.Http
