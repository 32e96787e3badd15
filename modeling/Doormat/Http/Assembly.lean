import Doormat.Parser.Logic
import Doormat.Http.Replay

/-! What the callbacks of a message say, put together: its header lines, its body and
its trailers. This is the message as the stream spells it, whatever the codec makes
of it and however the stream is cut. -/
namespace Doormat.Http

open Bytes Doormat.Parser

/-- A message as its callbacks spell it: a request has a target, and a response with a
reason phrase that phrase. `framing` is the parser at the end of the headers. -/
structure Spelled where
  target : Option ByteString := none
  reason : Option ByteString := none
  headers : List (ByteString × ByteString) := []
  framing : Option Fields := none
  body : ByteString := []
  trailers : List (ByteString × ByteString) := []
deriving DecidableEq

/-- The message at hand with the line at hand, and the messages before it. `final` is
set once the body is known to be over, and `misplaced` once a callback has come where
a message has no place for it. -/
structure Assembly extends Spelled where
  begun : Bool := false
  final : Bool := false
  key : ByteString := []
  value : ByteString := []
  pending : Bool := false
  done : List Spelled := []
  misplaced : Bool := false
deriving DecidableEq

namespace Assembly

/-- The line at hand is over. -/
def flush (a : Assembly) : Assembly :=
  if !a.pending then a
  else if a.framing.isSome then
    { a with trailers := a.trailers ++ [(a.key, a.value)], key := [], value := [], pending := false }
  else
    { a with headers := a.headers ++ [(a.key, a.value)], key := [], value := [], pending := false }

def start (m : Mark) (a : Assembly) : Assembly :=
  match m with
  | .url =>
      { a with
        target := some (a.target.getD [])
        misplaced := a.misplaced || !a.begun || a.framing.isSome }
  | .status =>
      { a with
        reason := some (a.reason.getD [])
        misplaced := a.misplaced || !a.begun || a.framing.isSome }
  | .headerField => { a.flush with misplaced := a.misplaced || !a.begun }
  | .headerValue => { a with pending := true, misplaced := a.misplaced || !a.begun }
  | .body =>
      { a with
        misplaced := a.misplaced || a.framing.isNone || a.pending || a.trailers ≠ [] || a.final }

def extend (m : Mark) (ch : UInt8) (a : Assembly) : Assembly :=
  match m with
  | .url => { a with target := a.target.map (· ++ [ch]) }
  | .status => { a with reason := a.reason.map (· ++ [ch]) }
  | .headerField => { a with key := a.key ++ [ch] }
  | .headerValue => { a with value := a.value ++ [ch] }
  | .body => { a with body := a.body ++ [ch] }

def notify (p : Fields) (c : Notification) (a : Assembly) : Assembly :=
  match c with
  | .messageBegin => { a with begun := true, misplaced := a.misplaced || a.begun }
  | .chunkHeader | .chunkComplete => { a with final := a.final || p.bodyIsFinal }

def headersComplete (p : Fields) (a : Assembly) : Assembly :=
  { a.flush with
    framing := some p
    misplaced := a.misplaced || !a.begun || a.framing.isSome }

def messageComplete (a : Assembly) : Assembly :=
  { done := a.done ++ [a.flush.toSpelled], misplaced := a.misplaced || a.framing.isNone }

end Assembly

/-- The assembly of what the callbacks say. -/
def assembler : Gatherer Assembly where
  start := Assembly.start
  extend := Assembly.extend
  notify := Assembly.notify
  headersComplete := Assembly.headersComplete
  messageComplete := Assembly.messageComplete

namespace Assembly

variable (a : Assembly) (bytes : ByteString)

@[simp] theorem assembler_start (m : Mark) : assembler.start m a = a.start m := rfl

@[simp] theorem assembler_extend (m : Mark) (ch : UInt8) : assembler.extend m ch a = a.extend m ch := rfl

@[simp] theorem assembler_notify (p : Fields) (c : Notification) :
    assembler.notify p c a = a.notify p c := rfl

@[simp] theorem assembler_headersComplete (p : Fields) :
    assembler.headersComplete p a = a.headersComplete p := rfl

@[simp] theorem assembler_messageComplete : assembler.messageComplete a = a.messageComplete := rfl

theorem foldl_extend (m : Mark) :
    bytes.foldl (fun a ch => a.extend m ch) a =
      match m with
      | .url => { a with target := a.target.map (· ++ bytes) }
      | .status => { a with reason := a.reason.map (· ++ bytes) }
      | .headerField => { a with key := a.key ++ bytes }
      | .headerValue => { a with value := a.value ++ bytes }
      | .body => { a with body := a.body ++ bytes } := by
  induction bytes generalizing a with
  | nil => cases m <;> simp
  | cons ch rest ih =>
      rw [List.foldl_cons, ih]
      cases m <;> simp [extend, Function.comp_def]

theorem data_headerField :
    assembler.data .headerField bytes a =
      { a.flush with key := a.flush.key ++ bytes, misplaced := a.misplaced || !a.begun } :=
  foldl_extend _ _ .headerField

theorem data_headerValue :
    assembler.data .headerValue bytes a =
      { a with
        pending := true, value := a.value ++ bytes, misplaced := a.misplaced || !a.begun } :=
  foldl_extend _ _ .headerValue

theorem data_url :
    assembler.data .url bytes a =
      { a with
        target := some (a.target.getD [] ++ bytes)
        misplaced := a.misplaced || !a.begun || a.framing.isSome } :=
  foldl_extend _ _ .url

theorem data_status :
    assembler.data .status bytes a =
      { a with
        reason := some (a.reason.getD [] ++ bytes)
        misplaced := a.misplaced || !a.begun || a.framing.isSome } :=
  foldl_extend _ _ .status

theorem data_body :
    assembler.data .body bytes a =
      { a with
        body := a.body ++ bytes
        misplaced := a.misplaced || a.framing.isNone || a.pending || a.trailers ≠ [] || a.final } :=
  foldl_extend _ _ .body

end Assembly

end Doormat.Http
