import Doormat.Protocol.Queues

/-! Pipelined responses of a server. The application gives each response its headers, the pieces
of its body and its end, in any order across the responses; the connection writes one response
after the other, in the order of the requests. -/
namespace Doormat.Protocol

open Bytes Doormat.Http

/-! ### What the application gives -/

/-- What a response has been given so far. -/
structure Script where
  message : Option Message := none
  body : ByteString := []
  finished : Bool := false

/-- The requests that have come in, and what their responses have been given. -/
structure Book where
  requests : Nat := 0
  scripts : Nat → Script := fun _ => {}

namespace Book

def write (b : Book) (id : Nat) (s : Script) : Book := { b with scripts := Function.update b.scripts id s }

/-- What happens to a connection, as far as the responses are given something. -/
def note (b : Book) : Op → Book
  | .decodingStart => { b with requests := b.requests + 1 }
  | .user (.headers id m) => b.write id { b.scripts id with message := some m }
  | .user (.body id bytes) => b.write id { b.scripts id with body := (b.scripts id).body ++ bytes }
  | .user (.finish id) => b.write id { b.scripts id with finished := true }
  | _ => b

/-- An application that gives each response headers that can be serialised, then its body, then its
end, and keeps it; and a connection on which no message fails to decode and which is not lost. -/
def allows (b : Book) : Op → Bool
  | .user (.headers id m) => id < b.requests && (b.scripts id).message.isNone && m.serialize.isSome
  | .user (.body id _) | .user (.finish id) => (b.scripts id).message.isSome && !(b.scripts id).finished
  | .user (.onError _) | .user (.onWrite _) | .user (.setPersistent _) => true
  | .user _ | .decodingFailure | .connectorLost => false
  | _ => true

/-- Such a run. -/
def disciplined (b : Book) : List Op → Bool
  | [] => true
  | op :: ops => b.allows op && (b.note op).disciplined ops

end Book

/-! ### What the connection writes -/

/-- A piece of a body, as `encode_body` writes it. -/
def encodedPiece (chunked : Bool) (piece : ByteString) : ByteString :=
  if piece = [] then []
  else if chunked then Encoder.hex piece.length ++ crlf ++ piece ++ crlf
  else piece

/-- The end of a message without trailers, as `encode_eom` writes it. -/
def terminator (chunked : Bool) : ByteString := if chunked then transferChunkedTermination ++ crlf else []

theorem encodeBody_begun {e : Encoder} (hEncoder : e.state = .HEADER ∨ e.state = .BODY) (piece : ByteString) :
    e.encodeBody piece = .ok (encodedPiece e.chunked piece, { e with state := .BODY }) := by
  have hOpen : ¬ (e.state ≠ .HEADER ∧ e.state ≠ .BODY) := by
    rcases hEncoder with hState | hState
    · simp [hState]
    · simp [hState]
  rw [Encoder.encodeBody, if_neg hOpen, encodedPiece]
  dsimp only
  split
  · rfl
  split
  · rfl
  · rfl

theorem encodeEom_begun {e : Encoder} (hEncoder : e.state = .HEADER ∨ e.state = .BODY) :
    e.encodeEom = .ok (terminator e.chunked, { e with state := .ZERO }) := by
  rcases hEncoder with hState | hState
  · cases hChunked : e.chunked with
    | false => simp [Encoder.encodeEom, terminator, hState, hChunked]
    | true => simp [Encoder.encodeEom, terminator, hState, hChunked]
  · cases hChunked : e.chunked with
    | false => simp [Encoder.encodeEom, terminator, hState, hChunked]
    | true => simp [Encoder.encodeEom, terminator, hState, hChunked]

/-- A response up to a piece of its body. -/
def encodedFront (m : Message) (header : ByteString) (pieces : List ByteString) : ByteString :=
  header ++ (pieces.map (encodedPiece m.data.chunked)).flatten

theorem encodedFront_concat (m : Message) (header : ByteString) (pieces : List ByteString) (piece : ByteString) :
    encodedFront m header (pieces ++ [piece]) =
      encodedFront m header pieces ++ encodedPiece m.data.chunked piece := by
  simp [encodedFront]

/-- The bytes of a whole response: its header block, its body in some pieces, its end. -/
def Script.Encodes (s : Script) (bytes : ByteString) : Prop :=
  s.finished = true ∧ ∃ m header pieces, s.message = some m ∧ m.serialize = some header ∧
    pieces.flatten = s.body ∧ bytes = encodedFront m header pieces ++ terminator m.data.chunked

/-- The bytes of a response that is not over: none before it has headers, else its header block and
all of its body so far. -/
def Script.Begins (s : Script) (bytes : ByteString) : Prop :=
  (s.message = none ∧ bytes = []) ∨ ∃ m header pieces, s.message = some m ∧ m.serialize = some header ∧
    pieces.flatten = s.body ∧ bytes = encodedFront m header pieces

/-! ### The invariant -/

/-- What holds of the responses whatever the connection does. -/
structure Book.Sound (b : Book) : Prop where
  unknown : ∀ id, b.requests ≤ id → b.scripts id = {}
  blank : ∀ id, (b.scripts id).message = none → (b.scripts id).body = [] ∧ (b.scripts id).finished = false
  serialisable : ∀ id m, (b.scripts id).message = some m → m.serialize.isSome

/-- The first response of the queue: it waits for its headers to be taken, or has begun. -/
inductive Front (s : Script) (l : Local) (e : Encoder) : ByteString → Prop
  | waiting (hEncoder : e.state = .ZERO) (hHeaders : l.headers = s.message) (hContent : l.content = s.body) :
      Front s l e []
  | begun {m : Message} {header : ByteString} {pieces : List ByteString} (hMessage : s.message = some m)
      (hSerialize : m.serialize = some header) (hEncoder : e.state = .HEADER ∨ e.state = .BODY)
      (hChunked : e.chunked = m.data.chunked) (hHeaders : l.headers = none)
      (hBody : pieces.flatten ++ l.content = s.body) : Front s l e (encodedFront m header pieces)

/-- The local object `l` of a response `s` that is not written: the application keeps it and gives it
neither trailers nor a continue, and an end that it has been given is on its way. -/
structure Waits (id : Nat) (posted : List Posted) (s : Script) (l : Local) : Prop where
  held : l.held = true
  trailers : l.trailers = []
  continueRequired : l.continueRequired = false
  ended : l.ended = true → s.finished = true
  ends : s.finished = true → l.ended = true ∨ .endResponse id ∈ posted

/-- A feedback that is queued, in flight or posted. -/
def Http1.Owes (c : Http1) (f : Feedback) : Prop :=
  f ∈ c.pendingClearCallbacks ∨ (∃ w, c.writing = some w ∧ f ∈ w.feedbacks) ∨
    ∃ success, .feedback f success ∈ c.posted

/-- The responses before `parts.length` are written; the other ones wait in their local objects. -/
structure Lined (c : Http1) (b : Book) (parts : List ByteString) : Prop where
  role : c.role = .server
  connected : c.connected = true
  opened : c.opened = b.requests
  within : parts.length ≤ b.requests
  whole : ∀ i part, parts[i]? = some part → (b.scripts i).Encodes part
  behind : ∀ id, parts.length < id →
    (c.locals id).headers = (b.scripts id).message ∧ (c.locals id).content = (b.scripts id).body
  waits : ∀ id, parts.length ≤ id → Waits id c.posted (b.scripts id) (c.locals id)
  posted : ∀ id, .endResponse id ∈ c.posted → (b.scripts id).finished = true
  feedbacks : ∀ f, c.Owes f → f.id < parts.length

/-- Of the first response that is not written, the bytes `now` are. -/
structure Pipelined (c : Http1) (b : Book) (parts : List ByteString) (now : ByteString) : Prop
    extends Lined c b parts where
  output : c.buffers.flatten ++ c.serialization = parts.flatten ++ now
  front : Front (b.scripts parts.length) (c.locals parts.length) c.encoder now

/-- How often the loop of `poll_local` has to look at a local object before the last time. -/
def Local.rounds (l : Local) : Nat := (if l.headers.isSome then 1 else 0) + if l.content ≠ [] then 1 else 0

/-- What the loop leaves behind when it has, or has not, finished the first response. -/
def Polled (c : Http1) (b : Book) (parts : List ByteString) : Bool → Prop
  | false => ∃ now, Pipelined c b parts now ∧ LocalState.Of (c.locals parts.length) .pending
  | true => ∃ part, Pipelined c b (parts ++ [part]) []

/-- Between two steps: the queue holds the responses that are not written yet, and the first of them
has nothing left to write. -/
structure Serves (c : Http1) (b : Book) (parts : List ByteString) (now : ByteString) : Prop
    extends Pipelined c b parts now where
  awaits : c.localObjects = List.range' parts.length (c.opened - parts.length)
  rests : LocalState.Of (c.locals parts.length) .pending

/-! ### The responses -/

namespace Book.Sound

variable {b : Book}

theorem start : Book.Sound {} where
  unknown _ _ := rfl
  blank _ _ := ⟨rfl, rfl⟩
  serialisable _ _ h := (by cases h)

theorem write (h : b.Sound) {id : Nat} {s : Script} (hId : id < b.requests)
    (hBlank : s.message = none → s.body = [] ∧ s.finished = false)
    (hSerialisable : ∀ m, s.message = some m → m.serialize.isSome) : (b.write id s).Sound where
  unknown j hj := by
    have hOther : j ≠ id := by
      rintro rfl
      exact absurd hId (Nat.not_lt.mpr hj)
    exact (Function.update_of_ne hOther _ _).trans (h.unknown j hj)
  blank j := by
    by_cases hj : j = id
    · subst hj
      simpa [Book.write] using hBlank
    · simpa [Book.write, hj] using h.blank j
  serialisable j := by
    by_cases hj : j = id
    · subst hj
      simpa [Book.write] using hSerialisable
    · simpa [Book.write, hj] using h.serialisable j

theorem known (h : b.Sound) {id : Nat} (hMessage : (b.scripts id).message.isSome = true) :
    id < b.requests := by
  by_contra hUnknown
  rw [h.unknown id (Nat.not_lt.mp hUnknown)] at hMessage
  cases hMessage

theorem note (h : b.Sound) {op : Op} (hAllows : b.allows op = true) : (b.note op).Sound := by
  cases op with
  | decodingStart =>
      exact { h with unknown := fun id hId => h.unknown id (Nat.le_of_succ_le hId) }
  | user op =>
      cases op with
      | headers id m =>
          have hAllows : (id < b.requests ∧ (b.scripts id).message = none) ∧ m.serialize.isSome = true := by
            simpa [allows] using hAllows
          apply h.write hAllows.1.1
          · rintro ⟨⟩
          · intro m' hm
            cases hm
            exact hAllows.2
      | body id bytes =>
          have hAllows : (b.scripts id).message.isSome = true ∧ (b.scripts id).finished = false := by
            simpa [allows] using hAllows
          apply h.write (h.known hAllows.1)
          · intro hNone
            rw [show (b.scripts id).message = none from hNone] at hAllows
            cases hAllows.1
          · exact h.serialisable id
      | finish id =>
          have hAllows : (b.scripts id).message.isSome = true ∧ (b.scripts id).finished = false := by
            simpa [allows] using hAllows
          apply h.write (h.known hAllows.1)
          · intro hNone
            rw [show (b.scripts id).message = none from hNone] at hAllows
            cases hAllows.1
          · exact h.serialisable id
      | create | trailer | sendContinue | onError | onWrite | drop | close | setPersistent => exact h
  | posted | decodedHeaders | decodedBody | decodedTrailer | decodingEnd | decodingFailure | written
  | readFailed | connectorLost => exact h

end Book.Sound

/-! ### What a write moves -/

namespace Http1

theorem connectorDoWrite_output (c : Http1) :
    c.connectorDoWrite.buffers.flatten ++ c.connectorDoWrite.serialization =
      c.buffers.flatten ++ c.serialization := by
  rcases connectorDoWrite_cases c with ⟨hEq, -⟩ | ⟨-, -, -, hEq⟩ | ⟨-, -, -, -, hEq⟩
  · rw [hEq]
  · rw [hEq, noteIdle]
    split
    · rfl
    · rfl
  · rw [hEq]
    simp [asyncWrite]

theorem connectorDoWrite_endResponse (c : Http1) (id : Nat) :
    .endResponse id ∈ c.connectorDoWrite.posted ↔ .endResponse id ∈ c.posted := by
  rcases connectorDoWrite_cases c with ⟨hEq, -⟩ | ⟨-, -, -, hEq⟩ | ⟨-, -, -, -, hEq⟩
  · rw [hEq]
  · rw [hEq, noteIdle_posted]
    simp [postFeedbacks, post]
  · rw [hEq]
    rfl

theorem owes_of_connectorDoWrite {c : Http1} {f : Feedback} (h : c.connectorDoWrite.Owes f) : c.Owes f := by
  rcases connectorDoWrite_cases c with ⟨hEq, -⟩ | ⟨hFree, -, -, hEq⟩ | ⟨hFree, -, -, -, hEq⟩
  · rwa [hEq] at h
  · have hPosted : Owes { c with out := [] }.postFeedbacks f := by
      rw [hEq, noteIdle] at h
      split at h
      · exact h
      · exact h
    rcases hPosted with hPending | hFlight | ⟨success, hPosted⟩
    · cases hPending
    · exact .inr (.inl hFlight)
    · rcases List.mem_append.mp hPosted with hPosted | hPosted
      · exact .inr (.inr ⟨success, hPosted⟩)
      · obtain ⟨g, hg, hSame⟩ := List.mem_map.mp hPosted
        cases hSame
        exact .inl hg
  · rw [hEq] at h
    rcases h with hPending | ⟨w, hWriting, hFlight⟩ | hPosted
    · cases hPending
    · cases hWriting
      exact .inl hFlight
    · exact .inr (.inr hPosted)

/-- The completion of a write posts what the write has captured. -/
theorem owes_of_completed {c : Http1} {w : Write} {n : Nat} {ws : List (ByteString × WriteResult)} {success : Bool}
    {f : Feedback} (hw : c.writing = some w)
    (h : Owes ({ c with writing := none, outstanding := n, completed := ws }.post
      (w.feedbacks.map fun f => .feedback f success)) f) : c.Owes f := by
  rcases h with hPending | ⟨w', hWriting, -⟩ | ⟨success', hPosted⟩
  · exact .inl hPending
  · cases hWriting
  · rcases List.mem_append.mp hPosted with hPosted | hPosted
    · exact .inr (.inr ⟨success', hPosted⟩)
    · obtain ⟨g, hg, hSame⟩ := List.mem_map.mp hPosted
      cases hSame
      exact .inr (.inl ⟨w, hw, hg⟩)

end Http1

/-! ### What the operations keep -/

theorem Front.congr {s : Script} {l l' : Local} {e : Encoder} {now : ByteString} (h : Front s l e now)
    (hHeaders : l'.headers = l.headers) (hContent : l'.content = l.content) : Front s l' e now := by
  cases h with
  | waiting hEncoder hOld hBody => exact .waiting hEncoder (hHeaders.trans hOld) (hContent.trans hBody)
  | begun hMessage hSerialize hEncoder hChunked hOld hBody =>
      exact .begun hMessage hSerialize hEncoder hChunked (hHeaders.trans hOld) (by rwa [hContent])

theorem Waits.congr {id : Nat} {ps ps' : List Posted} {s : Script} {l l' : Local} (h : Waits id ps s l)
    (hPosted : .endResponse id ∈ ps → .endResponse id ∈ ps') (hHeld : l'.held = l.held)
    (hTrailers : l'.trailers = l.trailers) (hContinue : l'.continueRequired = l.continueRequired)
    (hEnded : l'.ended = l.ended) : Waits id ps' s l' where
  held := hHeld.trans h.held
  trailers := hTrailers.trans h.trailers
  continueRequired := hContinue.trans h.continueRequired
  ended := by
    rw [hEnded]
    exact h.ended
  ends hFinished := by
    rw [hEnded]
    exact (h.ends hFinished).imp_right hPosted

theorem Book.write_self (b : Book) (id : Nat) : b.write id (b.scripts id) = b := by
  rw [Book.write, Function.update_eq_self]

namespace Lined

variable {c : Http1} {b : Book} {parts : List ByteString}

/-- A response that is not over is not written yet. -/
theorem unwritten (h : Lined c b parts) {id : Nat} (hOpen : (b.scripts id).finished = false) :
    parts.length ≤ id := by
  by_contra hWritten
  obtain ⟨part, hPart⟩ : ∃ part, parts[id]? = some part :=
    ⟨_, List.getElem?_eq_getElem (Nat.lt_of_not_le hWritten)⟩
  rw [(h.whole id part hPart).1] at hOpen
  cases hOpen

/-- To edit a local object and the closures that end it, together with what its response has been
given. -/
theorem edit (h : Lined c b parts) {id : Nat} {l : Local} {s : Script} {ps : List Posted}
    (hWritten : id < parts.length → s = b.scripts id)
    (hBehind : parts.length < id → l.headers = s.message ∧ l.content = s.body)
    (hWaits : parts.length ≤ id → Waits id ps s l) (hPosted : .endResponse id ∈ ps → s.finished = true)
    (hOthers : ∀ p, p ≠ .endResponse id → (p ∈ ps ↔ p ∈ c.posted)) :
    Lined { c.setLocal id l with posted := ps } (b.write id s) parts :=
  { h with
    whole := by
      intro i part hPart
      by_cases hSame : i = id
      · subst hSame
        have hOld := hWritten (List.getElem?_eq_some_iff.mp hPart).1
        simpa [Book.write, hOld] using h.whole i part hPart
      · simpa [Book.write, hSame] using h.whole i part hPart
    behind := by
      intro j hj
      by_cases hSame : j = id
      · subst hSame
        simpa [Book.write, Http1.setLocal] using hBehind hj
      · simpa [Book.write, Http1.setLocal, hSame] using h.behind j hj
    waits := by
      intro j hj
      by_cases hSame : j = id
      · subst hSame
        simpa [Book.write, Http1.setLocal] using hWaits hj
      · have hOther : Posted.endResponse j ≠ .endResponse id := fun hEq => hSame (Posted.endResponse.inj hEq)
        have hKept := (h.waits j hj).congr (hOthers _ hOther).mpr rfl rfl rfl rfl
        simpa [Book.write, Http1.setLocal, hSame] using hKept
    posted := by
      intro j hj
      by_cases hSame : j = id
      · subst hSame
        simpa [Book.write] using hPosted hj
      · have hOther : Posted.endResponse j ≠ .endResponse id := fun hEq => hSame (Posted.endResponse.inj hEq)
        simpa [Book.write, hSame] using h.posted j ((hOthers _ hOther).mp hj)
    feedbacks := by
      intro f hf
      rcases hf with hPending | hFlight | ⟨success, hFeedback⟩
      · exact h.feedbacks f (.inl hPending)
      · exact h.feedbacks f (.inr (.inl hFlight))
      · exact h.feedbacks f (.inr (.inr ⟨success, (hOthers _ (fun hEq => (by cases hEq))).mp hFeedback⟩)) }

end Lined

namespace Pipelined

variable {c c' : Http1} {b : Book} {parts : List ByteString} {now : ByteString}

theorem edit (h : Pipelined c b parts now) {id : Nat} {l : Local} {s : Script} {ps : List Posted}
    (hWritten : id < parts.length → s = b.scripts id) (hFront : id = parts.length → Front s l c.encoder now)
    (hBehind : parts.length < id → l.headers = s.message ∧ l.content = s.body)
    (hWaits : parts.length ≤ id → Waits id ps s l) (hPosted : .endResponse id ∈ ps → s.finished = true)
    (hOthers : ∀ p, p ≠ .endResponse id → (p ∈ ps ↔ p ∈ c.posted)) :
    Pipelined { c.setLocal id l with posted := ps } (b.write id s) parts now where
  toLined := h.toLined.edit hWritten hBehind hWaits hPosted hOthers
  output := h.output
  front := by
    by_cases hFirst : id = parts.length
    · have hNew := hFront hFirst
      subst hFirst
      simpa [Book.write, Http1.setLocal] using hNew
    · simpa [Book.write, Http1.setLocal, Ne.symm hFirst] using h.front

/-- To edit a local object in what its response does not tell of, unless the response is written. -/
theorem mark (h : Pipelined c b parts now) (id : Nat) {l : Local}
    (hSame : parts.length ≤ id → l.headers = (c.locals id).headers ∧ l.content = (c.locals id).content ∧
      l.held = (c.locals id).held ∧ l.trailers = (c.locals id).trailers ∧
      l.continueRequired = (c.locals id).continueRequired ∧ l.ended = (c.locals id).ended) :
    Pipelined (c.setLocal id l) b parts now := by
  have hEdit : Pipelined (c.setLocal id l) (b.write id (b.scripts id)) parts now := by
    refine h.edit (fun _ => rfl) ?_ ?_ ?_ (h.posted id) fun _ _ => Iff.rfl
    · rintro rfl
      obtain ⟨hHeaders, hContent, -⟩ := hSame (Nat.le_refl _)
      exact h.front.congr hHeaders hContent
    · intro hBehind
      obtain ⟨hHeaders, hContent, -⟩ := hSame hBehind.le
      rw [hHeaders, hContent]
      exact h.behind id hBehind
    · intro hId
      obtain ⟨-, -, hHeld, hTrailers, hContinue, hEnded⟩ := hSame hId
      exact (h.waits id hId).congr (fun hMem => hMem) hHeld hTrailers hContinue hEnded
  rwa [Book.write_self] at hEdit

/-- Bytes and feedbacks move, nothing else does. -/
theorem flow (h : Pipelined c b parts now) (hRole : c'.role = c.role) (hConnected : c'.connected = c.connected)
    (hOpened : c'.opened = c.opened) (hEncoder : c'.encoder = c.encoder) (hLocals : c'.locals = c.locals)
    (hOutput : c'.buffers.flatten ++ c'.serialization = c.buffers.flatten ++ c.serialization)
    (hPosted : ∀ id, .endResponse id ∈ c'.posted ↔ .endResponse id ∈ c.posted)
    (hOwes : ∀ f, c'.Owes f → c.Owes f) : Pipelined c' b parts now where
  role := hRole.trans h.role
  connected := hConnected.trans h.connected
  opened := hOpened.trans h.opened
  within := h.within
  output := hOutput.trans h.output
  whole := h.whole
  front := by
    rw [hLocals, hEncoder]
    exact h.front
  behind := by
    rw [hLocals]
    exact h.behind
  waits id hId := by
    rw [hLocals]
    exact (h.waits id hId).congr (hPosted id).mpr rfl rfl rfl rfl
  posted id hId := h.posted id ((hPosted id).mp hId)
  feedbacks f hf := h.feedbacks f (hOwes f hf)

theorem connectorDoWrite (h : Pipelined c b parts now) : Pipelined c.connectorDoWrite b parts now := by
  have hDo : c.doWrite = c.connectorDoWrite := by rw [Http1.doWrite, if_pos h.connected]
  rw [← hDo]
  apply h.flow (Http1.doWrite_role c) (Http1.doWrite_connected c) (Http1.doWrite_opened c) (Http1.doWrite_encoder c)
    (Http1.doWrite_locals c)
  · rw [hDo]
    exact Http1.connectorDoWrite_output c
  · rw [hDo]
    exact Http1.connectorDoWrite_endResponse c
  · rw [hDo]
    exact fun f => Http1.owes_of_connectorDoWrite

theorem doWrite (h : Pipelined c b parts now) : Pipelined c.doWrite b parts now := by
  rw [Http1.doWrite, if_pos h.connected]
  exact h.connectorDoWrite

theorem written (h : Pipelined c b parts now) (r : WriteResult) : Pipelined (c.written r) b parts now := by
  cases hWriting : c.writing with
  | none =>
      rw [Http1.written, hWriting]
      exact h
  | some w =>
      have hDone : ∀ success, Pipelined ({ c with
          writing := none
          outstanding := c.outstanding - 1
          completed := c.completed ++ [(w.buffer, r)] }.post
            (w.feedbacks.map fun f => .feedback f success)) b parts now := by
        intro success
        refine h.flow rfl rfl rfl rfl rfl rfl ?_ ?_
        · intro id
          simp [Http1.post]
        · exact fun f hf => Http1.owes_of_completed hWriting hf
      rw [Http1.written, hWriting]
      cases r with
      | ok => exact (hDone true).connectorDoWrite
      | failed => exact { hDone false with }
      | cancelled => exact hDone false

/-- A closure that neither ends a response nor reports about one. -/
theorem post (h : Pipelined c b parts now) {p : Posted} (hEnd : ∀ id, p ≠ .endResponse id)
    (hFeedback : ∀ f success, p ≠ .feedback f success) : Pipelined (c.post [p]) b parts now := by
  refine h.flow rfl rfl rfl rfl rfl rfl ?_ ?_
  · intro id
    simp [Http1.post, (hEnd id).symm]
  · intro f hf
    rcases hf with hPending | hFlight | ⟨success, hPosted⟩
    · exact .inl hPending
    · exact .inr (.inl hFlight)
    · rcases List.mem_append.mp hPosted with hPosted | hPosted
      · exact .inr (.inr ⟨success, hPosted⟩)
      · exact absurd (List.mem_singleton.mp hPosted).symm (hFeedback f success)

/-- A closure that ends no response is taken. -/
theorem unpost (h : Pipelined c b parts now) {p : Posted} {rest : List Posted} (hPosted : c.posted = p :: rest)
    (hEnd : ∀ id, p ≠ .endResponse id) : Pipelined { c with posted := rest } b parts now := by
  refine h.flow rfl rfl rfl rfl rfl rfl ?_ ?_
  · intro id
    simp [hPosted, (hEnd id).symm]
  · intro f hf
    rcases hf with hPending | hFlight | ⟨success, hRest⟩
    · exact .inl hPending
    · exact .inr (.inl hFlight)
    · exact .inr (.inr ⟨success, hPosted ▸ List.mem_cons_of_mem _ hRest⟩)

/-! ### The rounds of the loop -/

/-- The first response of the queue gives some of what it has to the encoder. -/
theorem advance (h : Pipelined c b parts now) {l : Local} {e : Encoder} {bytes : ByteString}
    (hFront : Front (b.scripts parts.length) l e (now ++ bytes))
    (hWaits : Waits parts.length c.posted (b.scripts parts.length) l) :
    Pipelined ({ c.setLocal parts.length l with encoder := e }.serialise parts.length bytes) b parts
      (now ++ bytes) := by
  have hEdit : Lined (c.setLocal parts.length l) (b.write parts.length (b.scripts parts.length)) parts :=
    h.toLined.edit (fun _ => rfl) (fun hBehind => absurd hBehind (Nat.lt_irrefl _)) (fun _ => hWaits)
      (h.posted _) fun _ _ => Iff.rfl
  rw [Book.write_self] at hEdit
  exact { hEdit with
    output := by
      show c.buffers.flatten ++ (c.serialization ++ bytes) = parts.flatten ++ (now ++ bytes)
      rw [← List.append_assoc, h.output, List.append_assoc]
    front := by
      show Front _ ((c.setLocal parts.length l).locals parts.length) e _
      rw [Http1.setLocal_locals_self]
      exact hFront }

theorem notifyLocalHeaders (h : Pipelined c b parts now) (hSound : b.Sound) {m : Message}
    (hHeaders : (c.locals parts.length).headers = some m) :
    ∃ c' now', c.notifyLocalHeaders parts.length m = .ok c' ∧ Pipelined c' b parts now' ∧
      c'.localObjects = c.localObjects ∧
      c'.locals parts.length = { c.locals parts.length with headers := none } := by
  have hWaits := h.waits _ (Nat.le_refl parts.length)
  cases hFront : h.front with
  | begun _ _ _ _ hTaken _ =>
      rw [hTaken] at hHeaders
      cases hHeaders
  | waiting hEncoder hWaiting hContent =>
      have hMessage : (b.scripts parts.length).message = some m := hWaiting.symm.trans hHeaders
      obtain ⟨header, hSerialize⟩ := Option.isSome_iff_exists.mp (hSound.serialisable _ m hMessage)
      have hEncode : c.encoder.encodeHeader m = .ok (header, { state := .HEADER, chunked := m.data.chunked }) := by
        rw [Encoder.encodeHeader, if_neg (by simp [hEncoder]), hSerialize]
      have hBegun : Front (b.scripts parts.length) { c.locals parts.length with headers := none }
          { state := .HEADER, chunked := m.data.chunked } (encodedFront m header []) :=
        .begun hMessage hSerialize (.inl rfl) rfl rfl hContent
      rw [encodedFront, List.map_nil, List.flatten_nil, List.append_nil] at hBegun
      have hAdvance := h.advance hBegun (hWaits.congr (fun hMem => hMem) rfl rfl rfl rfl)
      refine ⟨_, _, Http1.notifyLocalHeaders_ok.mpr ⟨header, _, hEncode, rfl⟩,
        doWrite { hAdvance with }, ?_, ?_⟩
      · rw [Http1.doWrite_localObjects]
        rfl
      · rw [Http1.doWrite_locals]
        exact Http1.setLocal_locals_self c _ _

/-- A piece of the body. -/
theorem notifyLocalBody (h : Pipelined c b parts now) (hSound : b.Sound)
    (hHeaders : (c.locals parts.length).headers = none) (hContent : (c.locals parts.length).content ≠ []) :
    ∃ c' now', c.notifyLocalBody parts.length = .ok c' ∧ Pipelined c' b parts now' ∧
      c'.localObjects = c.localObjects ∧
      c'.locals parts.length = { c.locals parts.length with content := [] } := by
  have hWaits := h.waits _ (Nat.le_refl parts.length)
  cases hFront : h.front with
  | waiting _ hWaiting hBody =>
      rw [hBody, (hSound.blank _ (hWaiting.symm.trans hHeaders)).1] at hContent
      exact absurd rfl hContent
  | @begun m header pieces hMessage hSerialize hEncoder hChunked hTaken hBody =>
      have hEncode := encodeBody_begun hEncoder (c.locals parts.length).content
      rw [hChunked] at hEncode
      have hBegun : Front (b.scripts parts.length) { c.locals parts.length with content := [] }
          { state := .BODY, chunked := m.data.chunked }
          (encodedFront m header (pieces ++ [(c.locals parts.length).content])) := by
        refine .begun hMessage hSerialize (.inr rfl) rfl hTaken ?_
        simpa using hBody
      rw [encodedFront_concat] at hBegun
      have hAdvance := h.advance hBegun (hWaits.congr (fun hMem => hMem) rfl rfl rfl rfl)
      refine ⟨_, _, Http1.notifyLocalBody_ok.mpr ⟨_, _, hEncode, rfl⟩, hAdvance.doWrite, ?_, ?_⟩
      · rw [Http1.doWrite_localObjects]
        rfl
      · rw [Http1.doWrite_locals]
        exact Http1.setLocal_locals_self c _ _

/-- The end of the first response: it is written, and the next one waits. -/
theorem notifyLocalEnd (h : Pipelined c b parts now) (hSound : b.Sound)
    (hEnded : LocalState.Of (c.locals parts.length) .ended) :
    ∃ c' part, c.notifyLocalEnd parts.length = .ok c' ∧ Pipelined c' b (parts ++ [part]) [] ∧
      c'.localObjects = c.localObjects := by
  obtain ⟨hHeaders, hContent, -, hOver⟩ := hEnded
  have hFinished := (h.waits _ (Nat.le_refl _)).ended hOver
  cases hFront : h.front with
  | waiting _ hWaiting _ =>
      rw [(hSound.blank _ (hWaiting.symm.trans hHeaders)).2] at hFinished
      cases hFinished
  | @begun m header pieces hMessage hSerialize hEncoder hChunked hTaken hBody =>
      rw [hContent, List.append_nil] at hBody
      have hEncodes : (b.scripts parts.length).Encodes (encodedFront m header pieces ++ terminator m.data.chunked) :=
        ⟨hFinished, m, header, pieces, hMessage, hSerialize, hBody, rfl⟩
      have hNow : (parts ++ [encodedFront m header pieces ++ terminator m.data.chunked]).length =
          parts.length + 1 := List.length_append
      have hEncode := encodeEom_begun hEncoder
      rw [hChunked] at hEncode
      have hNext := h.behind (parts.length + 1) (Nat.lt_succ_self _)
      have hLined : Lined (({ c with encoder := { state := .ZERO, chunked := m.data.chunked } }.serialise parts.length
          (terminator m.data.chunked)).queueFeedback parts.length) b
          (parts ++ [encodedFront m header pieces ++ terminator m.data.chunked]) :=
        { role := h.role
          connected := h.connected
          opened := h.opened
          within := by
            rw [hNow]
            exact hSound.known (by rw [hMessage]; rfl)
          whole := by
            intro i part hPart
            have hi : i < parts.length + 1 := hNow ▸ (List.getElem?_eq_some_iff.mp hPart).1
            rcases Nat.lt_succ_iff_lt_or_eq.mp hi with hOld | rfl
            · rw [List.getElem?_append_left hOld] at hPart
              exact h.whole i part hPart
            · rw [List.getElem?_concat_length] at hPart
              cases hPart
              exact hEncodes
          behind := fun id hId => h.behind id (by omega)
          waits := fun id hId => h.waits id (by omega)
          posted := h.posted
          feedbacks := by
            intro f hf
            rw [hNow]
            rcases hf with hPending | hPosted
            · rcases List.mem_append.mp hPending with hPending | hPending
              · exact Nat.lt_succ_of_lt (h.feedbacks f (.inl hPending))
              · rw [List.mem_singleton.mp hPending]
                exact Nat.lt_succ_self _
            · exact Nat.lt_succ_of_lt (h.feedbacks f (.inr hPosted)) }
      refine ⟨_, _, Http1.notifyLocalEnd_ok.mpr ⟨_, _, hEncode, rfl⟩, doWrite ⟨hLined, ?_, ?_⟩, ?_⟩
      · show c.buffers.flatten ++ (c.serialization ++ terminator m.data.chunked) = _
        rw [← List.append_assoc, h.output]
        simp
      · rw [hNow]
        exact .waiting rfl hNext.1 hNext.2
      · rw [Http1.doWrite_localObjects]
        rfl

theorem pollLoop (h : Pipelined c b parts now) (hSound : b.Sound) {fuel : Nat}
    (hFuel : (c.locals parts.length).rounds < fuel) :
    ∃ c' finished, Http1.pollLoop parts.length fuel c = .ok (c', finished) ∧
      c'.localObjects = c.localObjects ∧ Polled c' b parts finished := by
  induction fuel generalizing c now with
  | zero => exact absurd hFuel (Nat.not_lt_zero _)
  | succ fuel ih =>
      have hWaits := h.waits _ (Nat.le_refl parts.length)
      obtain ⟨hSame, hState⟩ := Local.getState_of_not_continue hWaits.continueRequired
      rcases hGet : (c.locals parts.length).getState with ⟨state, l⟩
      rw [hGet] at hSame hState
      dsimp only at hSame hState
      subst hSame
      rw [Http1.pollLoop, hGet]
      dsimp only
      rw [Http1.setLocal_self]
      cases state with
      | sendContinue => exact hState.elim
      | pending => exact ⟨c, false, rfl, rfl, now, h, hState⟩
      | headersReceived =>
          obtain ⟨m, hHeaders⟩ := Option.isSome_iff_exists.mp hState
          obtain ⟨d, now', hRun, hd, hQueue, hLocal⟩ := h.notifyLocalHeaders hSound hHeaders
          have hRounds : (d.locals parts.length).rounds < fuel := by
            rw [Local.rounds, hHeaders] at hFuel
            rw [hLocal, Local.rounds]
            simp at hFuel ⊢
            omega
          obtain ⟨c', finished, hLoop, hLeft, hPolled⟩ := ih hd hRounds
          simp only [hHeaders, hRun]
          exact ⟨c', finished, hLoop, hLeft.trans hQueue, hPolled⟩
      | bodyReceived =>
          obtain ⟨d, now', hRun, hd, hQueue, hLocal⟩ := h.notifyLocalBody hSound hState.1 hState.2
          have hRounds : (d.locals parts.length).rounds < fuel := by
            rw [Local.rounds, if_pos hState.2] at hFuel
            rw [hLocal, Local.rounds]
            simp at hFuel ⊢
            omega
          obtain ⟨c', finished, hLoop, hLeft, hPolled⟩ := ih hd hRounds
          simp only [hRun]
          exact ⟨c', finished, hLoop, hLeft.trans hQueue, hPolled⟩
      | trailerReceived => exact absurd hWaits.trailers hState.2.2
      | ended =>
          obtain ⟨c', part, hRun, hNext, hQueue⟩ := h.notifyLocalEnd hSound hState
          simp only [hRun]
          exact ⟨c', true, rfl, hQueue, part, hNext⟩

/-- A response that nobody has asked for has been given nothing. -/
theorem rests (h : Pipelined c b parts now) (hSound : b.Sound) (hAll : b.requests ≤ parts.length) :
    LocalState.Of (c.locals parts.length) .pending := by
  have hUnknown := hSound.unknown _ hAll
  have hWaits := h.waits _ (Nat.le_refl parts.length)
  have hEnded : (c.locals parts.length).ended = false := by
    by_contra hEnded
    have hFinished := hWaits.ended (by simpa using hEnded)
    rw [hUnknown] at hFinished
    cases hFinished
  cases hFront : h.front with
  | waiting _ hHeaders hContent =>
      rw [hUnknown] at hHeaders hContent
      exact ⟨hHeaders, hContent, hWaits.trailers, hEnded⟩
  | begun hMessage _ _ _ _ _ =>
      rw [hUnknown] at hMessage
      cases hMessage

/-- The loop of `notify_local_content` ends. -/
theorem notifyLocalContent (h : Pipelined c b parts now) (hSound : b.Sound)
    (hAwaits : c.localObjects = List.range' parts.length (c.opened - parts.length))
    (sent : Http1 → List UserOp) {fuel : Nat} (hFuel : c.opened - parts.length < fuel) :
    ∃ c' parts' now', Http1.notifyLocalContent sent fuel c = .ok c' ∧ Serves c' b parts' now' := by
  induction fuel generalizing c parts now with
  | zero => exact absurd hFuel (Nat.not_lt_zero _)
  | succ fuel ih =>
      rw [Http1.notifyLocalContent]
      cases hLeft : c.opened - parts.length with
      | zero =>
          rw [hLeft, List.range'_zero] at hAwaits
          have hAll : b.requests ≤ parts.length := by
            rw [← h.opened]
            exact Nat.sub_eq_zero_iff_le.mp hLeft
          rw [hAwaits]
          refine ⟨c, parts, now, rfl, { h with awaits := ?_, rests := h.rests hSound hAll }⟩
          rw [hLeft, hAwaits, List.range'_zero]
      | succ n =>
          rw [hLeft, List.range'_succ] at hAwaits
          have hWaits := h.waits _ (Nat.le_refl parts.length)
          have hAlive : c.alive parts.length = true := by
            rw [Http1.alive, hWaits.held]
            rfl
          have hRounds : (c.locals parts.length).rounds < 4 + (c.locals parts.length).trailers.length := by
            rw [hWaits.trailers, Local.rounds]
            split <;> split <;> decide
          obtain ⟨d, finished, hLoop, hQueue, hPolled⟩ := h.pollLoop hSound hRounds
          simp only [hAwaits, hAlive, if_true, Http1.pollLocal, hLoop]
          rw [hAwaits] at hQueue
          cases finished with
          | false =>
              obtain ⟨now', hd, hRests⟩ := hPolled
              refine ⟨d, parts, now', rfl, { hd with awaits := ?_, rests := hRests }⟩
              rw [hQueue, hd.opened, ← h.opened, hLeft, List.range'_succ]
          | true =>
              obtain ⟨part, hd⟩ := hPolled
              have hNext : Pipelined { d.record (.removed parts.length) with
                  localObjects := List.range' (parts.length + 1) n } b (parts ++ [part]) [] := { hd with }
              have hSteps : d.opened - (parts ++ [part]).length = n := by
                rw [hd.opened, ← h.opened, List.length_append, List.length_singleton]
                omega
              have hLined : List.range' (parts.length + 1) n =
                  List.range' (parts ++ [part]).length (d.opened - (parts ++ [part]).length) := by
                rw [hSteps, List.length_append, List.length_singleton]
              have hRest : d.opened - (parts ++ [part]).length < fuel := by
                rw [hSteps]
                omega
              obtain ⟨c', parts', now', hRun, hServes⟩ := ih hNext hLined hRest
              refine ⟨c', parts', now', ?_, hServes⟩
              rw [← hRun]
              simp [hd.role, Http1.popFront, hQueue, bind, Except.bind]

end Pipelined

/-! ### The steps -/

namespace Serves

variable {c : Http1} {b : Book} {parts : List ByteString} {now : ByteString} {fuel : Nat}

theorem start : Serves { role := .server } {} [] [] where
  role := rfl
  connected := rfl
  opened := rfl
  within := Nat.le_refl _
  whole _ _ hPart := (by cases hPart)
  behind _ _ := ⟨rfl, rfl⟩
  waits _ _ := ⟨rfl, rfl, rfl, fun hEnded => (by cases hEnded), fun hFinished => (by cases hFinished)⟩
  posted _ hPosted := (by cases hPosted)
  feedbacks f hf := by
    rcases hf with hPending | ⟨w, hWriting, -⟩ | ⟨success, hPosted⟩
    · cases hPending
    · cases hWriting
    · cases hPosted
  output := rfl
  front := .waiting rfl rfl rfl
  awaits := rfl
  rests := ⟨rfl, rfl, rfl, rfl⟩

/-- An application that uses a response which is not written may do so. -/
theorem usable (h : Serves c b parts now) {id : Nat} (hId : parts.length ≤ id) (hKnown : id < b.requests) :
    c.usable id = true := by
  rw [Http1.usable, (h.waits id hId).held, h.opened]
  simpa using hKnown

/-- `notify_local_content` after an edit of the local objects. -/
theorem notify (h : Serves c b parts now) (sent : Http1 → List UserOp) {d : Http1} {b' : Book}
    (hd : Pipelined d b' parts now) (hSound : b'.Sound)
    (hQueue : d.localObjects = c.localObjects) (hOpened : d.opened = c.opened) (hFuel : b'.requests < fuel) :
    ∃ c' parts' now', Http1.notifyLocalContent sent fuel d = .ok c' ∧ Serves c' b' parts' now' := by
  refine hd.notifyLocalContent hSound ?_ sent ?_
  · rw [hQueue, hOpened, h.awaits]
  · rw [hd.opened]
    omega

/-- Headers for a response. -/
theorem headers (h : Serves c b parts now) (hSound : b.Sound) (sent : Http1 → List UserOp) {id : Nat}
    {m : Message}
    (hAllows : b.allows (.user (.headers id m)) = true) (hFuel : b.requests < fuel) :
    ∃ c' parts' now', Http1.userOp (Http1.notifyLocalContent sent fuel) c (.headers id m) = .ok c' ∧
      Serves c' (b.note (.user (.headers id m))) parts' now' := by
  have hSound' := hSound.note hAllows
  have hAllowed : (id < b.requests ∧ (b.scripts id).message = none) ∧ m.serialize.isSome = true := by
    simpa [Book.allows] using hAllows
  obtain ⟨⟨hKnown, hNone⟩, -⟩ := hAllowed
  have hBlank := hSound.blank id hNone
  have hId := h.unwritten hBlank.2
  have hEdit : Pipelined (c.setLocal id { c.locals id with headers := some m })
      (b.note (.user (.headers id m))) parts now := by
    refine h.toPipelined.edit (fun hWritten => absurd hId (Nat.not_le.mpr hWritten)) ?_ ?_ ?_ (h.posted id)
      fun _ _ => Iff.rfl
    · rintro rfl
      cases hFront : h.front with
      | waiting hEncoder _ hContent => exact .waiting hEncoder rfl hContent
      | begun hMessage _ _ _ _ _ =>
          rw [hNone] at hMessage
          cases hMessage
    · exact fun hBehind => ⟨rfl, (h.behind id hBehind).2⟩
    · exact fun _ => { h.waits id hId with }
  rw [Http1.userOp, if_pos (h.usable hId hKnown)]
  exact h.notify sent hEdit hSound' rfl rfl hFuel

/-- A piece of a body. -/
theorem body (h : Serves c b parts now) (hSound : b.Sound) (sent : Http1 → List UserOp) {id : Nat}
    {bytes : ByteString}
    (hAllows : b.allows (.user (.body id bytes)) = true) (hFuel : b.requests < fuel) :
    ∃ c' parts' now', Http1.userOp (Http1.notifyLocalContent sent fuel) c (.body id bytes) = .ok c' ∧
      Serves c' (b.note (.user (.body id bytes))) parts' now' := by
  have hSound' := hSound.note hAllows
  have hAllowed : (b.scripts id).message.isSome = true ∧ (b.scripts id).finished = false := by
    simpa [Book.allows] using hAllows
  have hId := h.unwritten hAllowed.2
  have hEdit : Pipelined (c.setLocal id { c.locals id with content := (c.locals id).content ++ bytes })
      (b.note (.user (.body id bytes))) parts now := by
    refine h.toPipelined.edit (fun hWritten => absurd hId (Nat.not_le.mpr hWritten)) ?_ ?_ ?_ (h.posted id)
      fun _ _ => Iff.rfl
    · rintro rfl
      cases hFront : h.front with
      | waiting hEncoder hHeaders hContent => exact .waiting hEncoder hHeaders (congrArg (· ++ bytes) hContent)
      | begun hMessage hSerialize hEncoder hChunked hHeaders hBody =>
          refine .begun hMessage hSerialize hEncoder hChunked hHeaders ?_
          rw [← List.append_assoc, hBody]
    · intro hBehind
      obtain ⟨hHeaders, hContent⟩ := h.behind id hBehind
      exact ⟨hHeaders, congrArg (· ++ bytes) hContent⟩
    · exact fun _ => { h.waits id hId with }
  rw [Http1.userOp, if_pos (h.usable hId (hSound.known hAllowed.1))]
  exact h.notify sent hEdit hSound' rfl rfl hFuel

/-- The end of a response is posted. -/
theorem finish (h : Serves c b parts now) {id : Nat}
    (hAllows : b.allows (.user (.finish id)) = true) :
    Serves (c.post [.endResponse id]) (b.note (.user (.finish id))) parts now := by
  have hAllowed : (b.scripts id).message.isSome = true ∧ (b.scripts id).finished = false := by
    simpa [Book.allows] using hAllows
  have hId := h.unwritten hAllowed.2
  have hEdit : Pipelined ({ c.setLocal id (c.locals id) with posted := c.posted ++ [.endResponse id] })
      (b.note (.user (.finish id))) parts now := by
    refine h.toPipelined.edit (fun hWritten => absurd hId (Nat.not_le.mpr hWritten)) ?_ (h.behind id) ?_
      (fun _ => rfl) ?_
    · rintro rfl
      cases hFront : h.front with
      | waiting hEncoder hHeaders hContent => exact .waiting hEncoder hHeaders hContent
      | begun hMessage hSerialize hEncoder hChunked hHeaders hBody =>
          exact .begun hMessage hSerialize hEncoder hChunked hHeaders hBody
    · intro _
      exact { h.waits id hId with
        ended := fun _ => rfl
        ends := fun _ => .inr (by simp) }
    · intro p hp
      simp [hp]
  rw [Http1.setLocal_self] at hEdit
  exact { hEdit with
    awaits := h.awaits
    rests := h.rests }

/-- To edit a local object in what its response does not tell of, unless the response is written. -/
theorem mark (h : Serves c b parts now) (id : Nat) {l : Local}
    (hSame : parts.length ≤ id → l.headers = (c.locals id).headers ∧ l.content = (c.locals id).content ∧
      l.held = (c.locals id).held ∧ l.trailers = (c.locals id).trailers ∧
      l.continueRequired = (c.locals id).continueRequired ∧ l.ended = (c.locals id).ended) :
    Serves (c.setLocal id l) b parts now where
  toPipelined := h.toPipelined.mark id hSame
  awaits := h.awaits
  rests := by
    by_cases hFirst : parts.length = id
    · subst hFirst
      obtain ⟨hHeaders, hContent, -, hTrailers, -, hEnded⟩ := hSame (Nat.le_refl _)
      obtain ⟨hNoHeaders, hNoContent, hNoTrailers, hOpen⟩ := h.rests
      rw [Http1.setLocal_locals_self]
      exact ⟨hHeaders.trans hNoHeaders, hContent.trans hNoContent, hTrailers.trans hNoTrailers, hEnded.trans hOpen⟩
    · rw [Http1.setLocal_locals_of_ne hFirst]
      exact h.rests

theorem post (h : Serves c b parts now) {p : Posted} (hEnd : ∀ id, p ≠ .endResponse id)
    (hFeedback : ∀ f success, p ≠ .feedback f success) : Serves (c.post [p]) b parts now where
  toPipelined := h.toPipelined.post hEnd hFeedback
  awaits := h.awaits
  rests := h.rests

theorem unpost (h : Serves c b parts now) {p : Posted} {rest : List Posted} (hPosted : c.posted = p :: rest)
    (hEnd : ∀ id, p ≠ .endResponse id) : Serves { c with posted := rest } b parts now where
  toPipelined := h.toPipelined.unpost hPosted hEnd
  awaits := h.awaits
  rests := h.rests

/-- The feedback about a response tells a local object that is written. -/
theorem told (h : Serves c b parts now) {id : Nat} (hId : id < parts.length) (l : Local) :
    Serves (c.setLocal id l) b parts now ∧ Serves ((c.setLocal id l).post [.callback id]) b parts now := by
  have hTold := h.mark id (l := l) fun hOpen => absurd hId (Nat.not_lt.mpr hOpen)
  exact ⟨hTold, hTold.post (fun _ hEq => (by cases hEq)) fun _ _ hEq => (by cases hEq)⟩

theorem runPosted (h : Serves c b parts now) (hSound : b.Sound) (sent : Http1 → List UserOp)
    (hFuel : b.requests < fuel) : ∃ c' parts' now', Http1.runPosted (Http1.notifyLocalContent sent fuel) c = .ok c' ∧
      Serves c' b parts' now' := by
  cases hPosted : c.posted with
  | nil =>
      rw [Http1.runPosted, hPosted]
      exact ⟨c, parts, now, rfl, h⟩
  | cons p rest =>
      rw [Http1.runPosted, hPosted]
      cases p with
      | endResponse id =>
          have hFinished := h.posted id (by rw [hPosted]; exact List.mem_cons_self)
          have hEdit : Pipelined { c.setLocal id { c.locals id with ended := true } with posted := rest }
              (b.write id (b.scripts id)) parts now := by
            refine h.toPipelined.edit (fun _ => rfl) ?_ (h.behind id) ?_ (fun _ => hFinished) ?_
            · rintro rfl
              exact h.front.congr rfl rfl
            · intro hId
              exact { h.waits id hId with
                ended := fun _ => hFinished
                ends := fun _ => .inl rfl }
            · intro p hp
              simp [hPosted, hp]
          rw [Book.write_self] at hEdit
          have hRunning : Pipelined ({ c with posted := rest, running := some id }.setLocal id
              { c.locals id with ended := true }) b parts now := { hEdit with }
          obtain ⟨d, parts', now', hRun, hd⟩ := h.notify sent hRunning hSound rfl rfl hFuel
          refine ⟨_, parts', now', bind_eq_ok.mpr ⟨d, hRun, rfl⟩, ?_⟩
          have hMark := hd.mark id (l := { d.locals id with myself := !(d.locals id).ended })
            fun _ => ⟨rfl, rfl, rfl, rfl, rfl, rfl⟩
          exact { hMark with }
      | feedback f success =>
          have hId : f.id < parts.length := by
            apply h.feedbacks f (.inr (.inr ⟨success, ?_⟩))
            rw [hPosted]
            exact List.mem_cons_self
          have hTaken := h.unpost hPosted fun _ hEq => (by cases hEq)
          refine ⟨_, parts, now, rfl, ?_⟩
          split
          · rw [Http1.localCleared]
            dsimp only
            split
            · exact (hTaken.told hId _).2
            · exact (hTaken.told hId _).1
          · rw [Http1.localError]
            dsimp only
            split
            · exact (hTaken.told hId _).2
            · exact (hTaken.told hId _).1
      | remoteEnded id =>
          have hTaken := h.unpost hPosted fun _ hEq => (by cases hEq)
          exact ⟨_, parts, now, rfl, { hTaken with }⟩
      | callback id => exact ⟨_, parts, now, rfl, h.unpost hPosted fun _ hEq => (by cases hEq)⟩

/-- A new request. -/
theorem decodingStart (h : Serves c b parts now) : Serves c.decodingStart (b.note .decodingStart) parts now := by
  rw [Http1.decodingStart]
  dsimp only
  rw [if_pos h.role, Http1.getUserHandlers, if_neg (by simp [h.connected])]
  have hLined : parts.length ≤ c.opened := by
    rw [h.opened]
    exact h.within
  exact { h with
    opened := congrArg (· + 1) h.opened
    within := Nat.le_succ_of_le h.within
    awaits := by
      show c.localObjects ++ [c.opened] = List.range' parts.length (c.opened + 1 - parts.length)
      rw [h.awaits, Nat.succ_sub hLined, List.range'_1_concat, Nat.add_sub_cancel' hLined] }

theorem remoteStable (b : Book) (parts : List ByteString) (now : ByteString) :
    RemoteStable fun c => Serves c b parts now where
  setRemote _ _ _ h := { h with }
  postEnd _ h := h.post (fun _ hEq => (by cases hEq)) fun _ _ hEq => (by cases hEq)
  error _ h := { h with }
  flags _ _ h := { h with }
  remoteTail h := { h with }
  shows _ _ _ h := { h with }
  received _ _ h := { h with }

theorem written (h : Serves c b parts now) (r : WriteResult) : Serves (c.written r) b parts now where
  toPipelined := h.toPipelined.written r
  awaits := by
    rw [Http1.written_localObjects, Http1.written_opened]
    exact h.awaits
  rests := by
    rw [Http1.written_locals]
    exact h.rests

/-- The rule for a step. -/
theorem step (h : Serves c b parts now) (hSound : b.Sound) (sent : Http1 → List UserOp) {op : Op}
    (hAllows : b.allows op = true) (hFuel : b.requests < fuel) : ∃ c' parts' now', c.step sent fuel op = .ok c' ∧
      Serves c' (b.note op) parts' now' := by
  have hRemote := remoteStable b parts now
  cases op with
  | user op =>
      have hMark : ∀ id l, l.headers = (c.locals id).headers ∧ l.content = (c.locals id).content ∧
          l.held = (c.locals id).held ∧ l.trailers = (c.locals id).trailers ∧
          l.continueRequired = (c.locals id).continueRequired ∧ l.ended = (c.locals id).ended →
          Serves (if c.usable id then c.setLocal id l else c) b parts now := by
        intro id l hSame
        split
        · exact h.mark id fun _ => hSame
        · exact h
      cases op with
      | headers id m => exact h.headers hSound sent hAllows hFuel
      | body id bytes => exact h.body hSound sent hAllows hFuel
      | finish id =>
          have hAllowed : (b.scripts id).message.isSome = true ∧ (b.scripts id).finished = false := by
            simpa [Book.allows] using hAllows
          refine ⟨_, parts, now, ?_, h.finish hAllows⟩
          have hUsable := h.usable (h.unwritten hAllowed.2) (hSound.known hAllowed.1)
          rw [Http1.step, Http1.userOp, hUsable, if_neg (by decide), if_pos h.role]
      | onError id => exact ⟨_, parts, now, rfl, hMark id _ ⟨rfl, rfl, rfl, rfl, rfl, rfl⟩⟩
      | onWrite id => exact ⟨_, parts, now, rfl, hMark id _ ⟨rfl, rfl, rfl, rfl, rfl, rfl⟩⟩
      | setPersistent flag => exact ⟨_, parts, now, rfl, { h with }⟩
      | create | trailer | sendContinue | drop | close => cases hAllows
  | posted => exact h.runPosted hSound sent hFuel
  | decodingStart => exact ⟨_, parts, now, rfl, h.decodingStart⟩
  | decodedHeaders m => exact ⟨_, parts, now, rfl, hRemote.decodedHeaders 0 m h⟩
  | decodedBody bytes => exact ⟨_, parts, now, rfl, hRemote.decodedBody bytes h⟩
  | decodedTrailer key value => exact ⟨_, parts, now, rfl, hRemote.decodedTrailer key value h⟩
  | decodingEnd => exact ⟨_, parts, now, rfl, hRemote.decodingEnd h⟩
  | written r => exact ⟨_, parts, now, rfl, h.written r⟩
  | readFailed => exact ⟨_, parts, now, rfl, { h with }⟩
  | decodingFailure | connectorLost => cases hAllows

/-- What there is of the first response that is not written has been serialised; if no end is on its
way, that response is not over. -/
theorem begins (h : Serves c b parts now) : (b.scripts parts.length).Begins now ∧
    ((∀ id, .endResponse id ∉ c.posted) → (b.scripts parts.length).finished = false) := by
  obtain ⟨hHeaders, hContent, -, hOpen⟩ := h.rests
  constructor
  · cases hFront : h.front with
    | waiting _ hWaiting _ => exact .inl ⟨hWaiting.symm.trans hHeaders, rfl⟩
    | @begun m header pieces hMessage hSerialize _ _ _ hBody =>
        rw [hContent, List.append_nil] at hBody
        exact .inr ⟨m, header, pieces, hMessage, hSerialize, hBody, rfl⟩
  · intro hNoEnd
    by_contra hFinished
    rcases (h.waits _ (Nat.le_refl _)).ends (by simpa using hFinished) with hEnded | hPosted
    · rw [hOpen] at hEnded
      cases hEnded
    · exact hNoEnd _ hPosted

end Serves

theorem Book.note_requests (b : Book) (op : Op) : (b.note op).requests ≤ b.requests + 1 := by
  cases op with
  | decodingStart => exact Nat.le_refl _
  | user op => cases op <;> exact Nat.le_succ _
  | posted | decodedHeaders | decodedBody | decodedTrailer | decodingEnd | decodingFailure | written
  | readFailed | connectorLost => exact Nat.le_succ _

/-- The rule for a run. -/
theorem Serves.run {c : Http1} {b : Book} {parts : List ByteString} {now : ByteString}
    (sent : Http1 → List UserOp) {fuel : Nat} {ops : List Op} (h : Serves c b parts now) (hSound : b.Sound)
    (hOps : b.disciplined ops = true) (hFuel : b.requests + ops.length < fuel) :
    ∃ c' parts' now', c.run sent fuel ops = .ok c' ∧ Serves c' (ops.foldl Book.note b) parts' now' := by
  induction ops generalizing c b parts now with
  | nil => exact ⟨c, parts, now, rfl, h⟩
  | cons op ops ih =>
      have hParts : b.allows op = true ∧ (b.note op).disciplined ops = true := by
        simpa [Book.disciplined] using hOps
      have hRequests := b.note_requests op
      rw [List.length_cons] at hFuel
      have hStart : b.requests < fuel := by omega
      obtain ⟨d, parts', now', hStep, hd⟩ := h.step hSound sent hParts.1 hStart
      obtain ⟨c', parts'', now'', hRun, hc'⟩ := ih hd (hSound.note hParts.1) hParts.2 (by omega)
      exact ⟨c', parts'', now'', Http1.run_cons.mpr ⟨d, hStep, hRun⟩, hc'⟩

/-- The server has written whole responses, in the order of the requests, and then all that there is
of the next one. When no end is on its way, that is the first one that is not over. -/
structure WritesInOrder (c : Http1) (b : Book) (parts : List ByteString) (now : ByteString) : Prop where
  output : c.buffers.flatten ++ c.serialization = parts.flatten ++ now
  whole : ∀ i part, parts[i]? = some part → (b.scripts i).Encodes part
  next : (b.scripts parts.length).Begins now
  prompt : (∀ id, .endResponse id ∉ c.posted) → (b.scripts parts.length).finished = false

/-- However requests, pieces of responses, closures and completed writes are interleaved, and in
whatever order the responses are given, the server writes them in the order of the requests. -/
theorem writes_in_order (sent : Http1 → List UserOp) {fuel : Nat} {ops : List Op}
    (hOps : Book.disciplined {} ops = true) (hFuel : ops.length < fuel) :
    ∃ c parts now, Http1.run sent fuel { role := .server } ops = .ok c ∧
      WritesInOrder c (ops.foldl Book.note {}) parts now := by
  have hRequests : (({} : Book).requests + ops.length) < fuel := by
    rw [show ({} : Book).requests = 0 from rfl, Nat.zero_add]
    exact hFuel
  obtain ⟨c, parts, now, hRun, hServes⟩ := Serves.start.run sent Book.Sound.start hOps hRequests
  exact ⟨c, parts, now, hRun, hServes.output, hServes.whole, hServes.begins.1, hServes.begins.2⟩

/-- A response without headers but its own length. -/
def plainReply : Message :=
  .response { HttpResponse.fresh 200 with toStructuredData := StructuredData.fresh.setProtocol .HTTP11 }

/-- Two requests; the second one is answered first. -/
def answeredOutOfOrder : List Op :=
  [.decodingStart, .decodingEnd, .decodingStart, .decodingEnd, .user (.headers 1 plainReply),
    .user (.body 1 [50]), .user (.finish 1), .posted, .user (.headers 0 plainReply), .user (.body 0 [49]),
    .user (.finish 0), .posted, .written .ok]

theorem writes_in_order_answered :
    ∃ c parts now, Http1.run (fun _ => []) 14 { role := .server } answeredOutOfOrder = .ok c ∧
      WritesInOrder c (answeredOutOfOrder.foldl Book.note {}) parts now :=
  writes_in_order (fun _ => []) (by decide +kernel) (by decide)

end Doormat.Protocol
