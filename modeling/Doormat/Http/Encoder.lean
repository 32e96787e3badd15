import Doormat.Http.Message

/-! The encoding half of `http_codec`: one encoder writes the messages of a connection one
after the other. -/
namespace Doormat.Http

open Bytes

/-- `http_codec::encoder_state`. -/
inductive EncoderState
  | ZERO | HEADER | BODY | TRAILER
deriving DecidableEq, Repr

/-- `http_codec` as an encoder. -/
structure Encoder where
  state : EncoderState := .ZERO
  chunked : Bool := false
deriving DecidableEq

/-- The assertions of the encoder; the one of `serialize` fails for a message without
headers. -/
inductive EncoderAssertion
  | header | serialize | body | trailer | eom
deriving DecidableEq, Repr

namespace Encoder

/-- A number in hexadecimal, as `utils::from` writes it. -/
def hex (n : Nat) : ByteString := (Nat.toDigits 16 n).map Char.toUInt8

def encodeHeader (e : Encoder) (m : Message) : Except EncoderAssertion (ByteString × Encoder) :=
  if e.state ≠ .ZERO then .error .header
  else match m.serialize with
    | none => .error .serialize
    | some bytes => .ok (bytes, { state := .HEADER, chunked := m.data.chunked })

def encodeBody (e : Encoder) (data : ByteString) : Except EncoderAssertion (ByteString × Encoder) :=
  if e.state ≠ .HEADER ∧ e.state ≠ .BODY then .error .body
  else
    let e := { e with state := .BODY }
    if data = [] then .ok ([], e)
    else if e.chunked then .ok (hex data.length ++ crlf ++ data ++ crlf, e)
    else .ok (data, e)

def encodeTrailer (e : Encoder) (key value : ByteString) :
    Except EncoderAssertion (ByteString × Encoder) :=
  if e.state ≠ .BODY ∧ e.state ≠ .TRAILER then .error .trailer
  else .ok (transferChunkedTermination ++ key ++ colonSpace ++ value ++ crlf,
    { e with state := .TRAILER })

def encodeEom (e : Encoder) : Except EncoderAssertion (ByteString × Encoder) :=
  if e.state = .ZERO then .error .eom
  else
    let msg :=
      if !e.chunked then []
      else match e.state with
        | .HEADER | .BODY => transferChunkedTermination ++ crlf
        | .TRAILER => crlf
        | .ZERO => []
    .ok (msg, { e with state := .ZERO })

/-! The state that an encoder is left in. -/

variable {e e' : Encoder} {bytes : ByteString}

theorem encodeHeader_state {m : Message} (h : e.encodeHeader m = .ok (bytes, e')) :
    e'.state = .HEADER := by
  rw [encodeHeader] at h
  split at h
  · cases h
  split at h
  · cases h
  · cases h
    rfl

theorem encodeBody_state {data : ByteString} (h : e.encodeBody data = .ok (bytes, e')) :
    e'.state = .BODY := by
  rw [encodeBody] at h
  split at h
  · cases h
  dsimp only at h
  split at h
  · cases h
    rfl
  split at h
  · cases h
    rfl
  · cases h
    rfl

theorem encodeTrailer_state {key value : ByteString} (h : e.encodeTrailer key value = .ok (bytes, e')) :
    e'.state = .TRAILER := by
  rw [encodeTrailer] at h
  split at h
  · cases h
  · cases h
    rfl

theorem encodeHeader_error {m : Message} {a : EncoderAssertion} (h : e.encodeHeader m = .error a) :
    a = .header ∨ a = .serialize := by
  rw [encodeHeader] at h
  split at h
  · cases h
    exact .inl rfl
  split at h
  · cases h
    exact .inr rfl
  · cases h

theorem encodeBody_error {data : ByteString} {a : EncoderAssertion}
    (h : e.encodeBody data = .error a) : a = .body := by
  rw [encodeBody] at h
  split at h
  · cases h
    rfl
  dsimp only at h
  split at h
  · cases h
  split at h
  · cases h
  · cases h

theorem encodeTrailer_error {key value : ByteString} {a : EncoderAssertion}
    (h : e.encodeTrailer key value = .error a) : a = .trailer := by
  rw [encodeTrailer] at h
  split at h
  · cases h
    rfl
  · cases h

/-- The end of a message can be encoded once the message has begun. -/
theorem encodeEom_state (h : e.encodeEom = .ok (bytes, e')) : e'.state = .ZERO := by
  unfold encodeEom at h
  split at h
  · cases h
  · cases h
    rfl

theorem encodeEom_error {a : EncoderAssertion} (h : e.encodeEom = .error a) : e.state = .ZERO := by
  rw [encodeEom] at h
  split at h
  case isTrue hZero => exact hZero
  case isFalse => cases h

end Encoder

end Doormat.Http
