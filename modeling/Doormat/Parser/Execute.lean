import Doormat.Parser.Step

/-! `http_parser_execute` over a buffer: the steps of its bytes in order, run with
the callbacks of a settings record. -/
namespace Doormat.Parser

open Bytes

/-- `struct http_parser_settings`, for callbacks that work on data of type `δ`.
Each returns an `int`, zero for success. A callback may also end the process, with
a fault in `φ`; `assertion` is the fault of an assertion of the parser itself. Of
the parser `on_status` reads the status code only. -/
structure Settings (φ δ : Type) where
  onMessageBegin : δ → Except φ (Nat × δ)
  onUrl : ByteString → δ → Except φ (Nat × δ)
  onStatus : Nat → ByteString → δ → Except φ (Nat × δ)
  onHeaderField : ByteString → δ → Except φ (Nat × δ)
  onHeaderValue : ByteString → δ → Except φ (Nat × δ)
  onHeadersComplete : Fields → δ → Except φ (Nat × δ)
  onBody : ByteString → δ → Except φ (Nat × δ)
  onChunkHeader : Fields → δ → Except φ (Nat × δ)
  onChunkComplete : Fields → δ → Except φ (Nat × δ)
  onMessageComplete : HttpParser → δ → Except φ (Nat × HttpParser × δ)
  assertion : φ

variable {φ δ : Type}

/-- The data callback of a mark. -/
def Settings.data (S : Settings φ δ) (statusCode : Nat) :
    Mark → ByteString → δ → Except φ (Nat × δ)
  | .headerField => S.onHeaderField
  | .headerValue => S.onHeaderValue
  | .url => S.onUrl
  | .body => S.onBody
  | .status => S.onStatus statusCode

def Settings.notification (S : Settings φ δ) (p : Fields) :
    Notification → δ → Except φ (Nat × δ)
  | .messageBegin => S.onMessageBegin
  | .chunkHeader => S.onChunkHeader p
  | .chunkComplete => S.onChunkComplete p

/-- What `http_parser_execute` keeps between two bytes: the parser, of the five
marks the one that is set with the bytes between it and `p`, and the loop. -/
structure Locals where
  fields : Fields
  nread : Nat
  mark : Option (Mark × ByteString)
  loop : Loop
deriving DecidableEq, Repr

/-- How a step ends: with the next byte, or with a return that does or does not
count the current byte as parsed. -/
inductive Flow
  | next (l : Locals)
  | ret (p : HttpParser) (consumed : Bool)
deriving DecidableEq, Repr

/-- Return with an error code. -/
def Flow.error (p : Fields) (nread : Nat) (e : Errno) (consumed : Bool) : Flow :=
  .ret ⟨p, nread, some e⟩ consumed

/-- Run a step at the byte `ch`, given `nread` and the mark. -/
def Prog.run (S : Settings φ δ) (ch : UInt8) :
    Prog → Nat → Option (Mark × ByteString) → δ → Except φ (Flow × δ)
  | .next p loop, nread, marked, d =>
      .ok (.next ⟨p, nread, marked.map fun m => (m.1, m.2 ++ [ch]), loop⟩, d)
  | .leave p, nread, _, d => .ok (.ret ⟨p, nread, none⟩ true, d)
  | .fail p e, nread, _, d => .ok (.error p nread e false, d)
  | .abort, _, _, _ => .error S.assertion
  | .mark m k, nread, marked, d => k.run S ch nread (some (marked.getD (m, []))) d
  | .data p m inclusive advance k, nread, marked, d =>
      match marked with
      | none => k.run S ch nread marked d
      | some (set, bytes) =>
          if set ≠ m then k.run S ch nread marked d
          else do
            let (rc, d) ← S.data p.statusCode m (if inclusive then bytes ++ [ch] else bytes) d
            if rc ≠ 0 then .ok (.error p nread m.errno advance, d) else k.run S ch nread none d
  | .count p v k, nread, marked, d =>
      if nread + v > httpMaxHeaderSize then .ok (.error p (nread + v) .headerOverflow false, d)
      else k.run S ch (nread + v) marked d
  | .clearNread k, _, marked, d => k.run S ch 0 marked d
  | .assertNread v k, nread, marked, d =>
      if nread = v then k.run S ch nread marked d else .error S.assertion
  | .notify p c advance k, nread, marked, d => do
      let (rc, d) ← S.notification p c d
      if rc ≠ 0 then .ok (.error p nread c.errno advance, d) else k.run S ch nread marked d
  | .headersComplete p k, nread, marked, d => do
      let (rc, d) ← S.onHeadersComplete p d
      (k rc).run S ch nread marked d
  | .messageComplete p k, nread, marked, d => do
      let (rc, p, d) ← S.onMessageComplete ⟨p, nread, none⟩ d
      if rc ≠ 0 then .ok (.error p.toFields p.nread .cbMessageComplete true, d)
      else if p.errno ≠ none then .ok (.ret p true, d)
      else (k p.toFields).run S ch p.nread marked d

/-- The locals at the first byte of a buffer. -/
def enter (p : HttpParser) : Locals where
  fields := p.toFields
  nread := p.nread
  mark := (startMark p.state).map fun m => (m, [])
  loop := .outer

/-- The loop over the bytes, `parsed` of which lie behind. -/
def executeLoop (S : Settings φ δ) (l : Locals) (bytes : ByteString) (parsed : Nat) (d : δ) :
    Except φ (HttpParser × Nat × δ) :=
  match bytes with
  | [] => do
      let (flow, d) ← (finish l.fields l.loop).run S 0 l.nread l.mark d
      match flow with
      | .next l => .ok (⟨l.fields, l.nread, none⟩, parsed, d)
      | .ret p _ => .ok (p, parsed, d)
  | ch :: rest => do
      let (flow, d) ← (step l.fields l.loop ch).run S ch l.nread l.mark d
      match flow with
      | .next l => executeLoop S l rest (parsed + 1) d
      | .ret p consumed => .ok (p, if consumed then parsed + 1 else parsed, d)

/-- `http_parser_execute`: the parser afterwards and the number of bytes parsed. -/
def execute (S : Settings φ δ) (p : HttpParser) (data : ByteString) (d : δ) :
    Except φ (HttpParser × Nat × δ) :=
  if p.errno ≠ none then .ok (p, 0, d)
  else if data = [] then
    match p.state with
    | .bodyIdentityEof => do
        let (rc, p, d) ← S.onMessageComplete p d
        .ok (if rc ≠ 0 then { p with errno := some .cbMessageComplete } else p, 0, d)
    | .dead | .startReqOrRes | .startRes | .startReq => .ok (p, 0, d)
    | _ => .ok ({ p with errno := some .invalidEofState }, 1, d)
  else executeLoop S (enter p) data 0 d

end Doormat.Parser
