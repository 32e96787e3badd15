import Doormat.Library.Transducer
import Doormat.Parser.Execute

/-! The callbacks that a stream of bytes gives rise to, on their own: what the
parser calls when no callback fails and the parser is initialised again after
every message. -/
namespace Doormat.Parser

open Bytes

/-- The status code, where the callback of the mark reads it. -/
def Mark.code (m : Mark) (statusCode : Nat) : Nat :=
  match m with
  | .status => statusCode
  | _ => 0

/-- A callback with what the parser passes to it. -/
inductive Callback
  | notify (p : Fields) (c : Notification)
  | data (statusCode : Nat) (m : Mark) (bytes : ByteString)
  | headersComplete (p : Fields)
  | messageComplete
deriving DecidableEq

/-- The flow and the callbacks of a step, `none` when it fails. -/
abbrev Emission := Option (Flow × List Callback)

def Emission.prepend (c : Callback) (e : Emission) : Emission := e.map fun r => (r.1, c :: r.2)

@[simp] theorem Emission.prepend_none (c : Callback) : Emission.prepend c none = none := rfl

@[simp] theorem Emission.prepend_some (c : Callback) (f : Flow) (cs : List Callback) :
    Emission.prepend c (some (f, cs)) = some (f, c :: cs) := rfl

theorem Emission.prepend_eq_some {c : Callback} {e : Emission} {f : Flow} {cs : List Callback} :
    Emission.prepend c e = some (f, cs) ↔ ∃ rest, e = some (f, rest) ∧ cs = c :: rest := by
  rcases e with _ | ⟨g, rest⟩
  · simp
  · simp only [prepend_some, Option.some.injEq, Prod.mk.injEq]
    constructor
    · rintro ⟨rfl, rfl⟩
      exact ⟨rest, ⟨rfl, rfl⟩, rfl⟩
    · rintro ⟨rest', ⟨rfl, rfl⟩, rfl⟩
      exact ⟨rfl, rfl⟩

/-- A step whose callbacks all succeed. -/
def Prog.emit (ch : UInt8) : Prog → Nat → Option (Mark × ByteString) → Emission
  | .next p loop, nread, marked =>
      some (.next ⟨p, nread, marked.map fun m => (m.1, m.2 ++ [ch]), loop⟩, [])
  | .leave p, nread, _ => some (.ret ⟨p, nread, none⟩ true, [])
  | .fail _ _, _, _ => none
  | .abort, _, _ => none
  | .mark m k, nread, marked => k.emit ch nread (some (marked.getD (m, [])))
  | .data p m inclusive _ k, nread, marked =>
      match marked with
      | none => k.emit ch nread marked
      | some (set, bytes) =>
          if set ≠ m then k.emit ch nread marked
          else .prepend (.data (m.code p.statusCode) m (if inclusive then bytes ++ [ch] else bytes))
            (k.emit ch nread none)
  | .count _ v k, nread, marked =>
      if nread + v > httpMaxHeaderSize then none else k.emit ch (nread + v) marked
  | .clearNread k, _, marked => k.emit ch 0 marked
  | .assertNread v k, nread, marked => if nread = v then k.emit ch nread marked else none
  | .notify p c _ k, nread, marked => .prepend (.notify p c) (k.emit ch nread marked)
  | .headersComplete p k, nread, marked =>
      .prepend (.headersComplete p) ((k 0).emit ch nread marked)
  | .messageComplete _ k, _, marked =>
      .prepend .messageComplete ((k (HttpParser.init .both).toFields).emit ch 0 marked)

/-- The locals for the next byte. After a return without an error the rest of the
stream is read by the next call. -/
def Flow.locals : Flow → Locals
  | .next l => l
  | .ret p _ => enter p

/-- Read one byte. -/
def Locals.read (l : Locals) (ch : UInt8) : Option (Locals × List Callback) :=
  ((step l.fields l.loop ch).emit ch l.nread l.mark).map fun r => (r.1.locals, r.2)

theorem Locals.read_eq_some {l l' : Locals} {ch : UInt8} {cs : List Callback} :
    l.read ch = some (l', cs) ↔
      ∃ flow, (step l.fields l.loop ch).emit ch l.nread l.mark = some (flow, cs) ∧
        flow.locals = l' := by
  simp only [read, Option.map_eq_some_iff, Prod.exists, Prod.mk.injEq]
  constructor
  · rintro ⟨flow, cs, hEmit, hLocals, rfl⟩
    exact ⟨flow, hEmit, hLocals⟩
  · rintro ⟨flow, hEmit, hLocals⟩
    exact ⟨flow, cs, hEmit, hLocals, rfl⟩

/-- Read the bytes of a buffer one after the other. -/
def Locals.reads (l : Locals) (bytes : ByteString) : Option (Locals × List Callback) :=
  Transducer.reads Locals.read l bytes

/-- Reach the end of a buffer. -/
def Locals.close (l : Locals) : Option (HttpParser × List Callback) :=
  match (finish l.fields l.loop).emit 0 l.nread l.mark with
  | some (.ret p _, cs) => some (p, cs)
  | _ => none

/-- The callbacks for one buffer. -/
def emit (p : HttpParser) (data : ByteString) : Option (HttpParser × List Callback) := do
  let (l, cs) ← (enter p).reads data
  let (p, cs') ← l.close
  some (p, cs ++ cs')

/-- The callbacks for one piece of a stream. An empty piece is not read at all. -/
def emitPiece (p : HttpParser) (piece : ByteString) : Option (HttpParser × List Callback) :=
  if piece = [] then some (p, []) else emit p piece

/-- The callbacks for successive pieces. -/
def emitAll (p : HttpParser) : List ByteString → Option (HttpParser × List Callback)
  | [] => some (p, [])
  | piece :: rest => do
      let (p, cs) ← emitPiece p piece
      let (p, cs') ← emitAll p rest
      some (p, cs ++ cs')

end Doormat.Parser
