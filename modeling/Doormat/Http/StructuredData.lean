import Doormat.Library.Multimap
import Doormat.Http.Commons

/-! `http_structured_data`: the header fields of a message with the framing and
the persistency they declare. The channel, the origin and the destination
headers are left out; the codec does not read them. -/
namespace Doormat.Http

open Bytes

structure StructuredData where
  protocolVersion : ProtoVersion
  headers : Multimap ByteString ByteString
  chunked : Bool
  keepalive : Bool
  defaultKeepalive : Bool
  contentLen : Nat
deriving DecidableEq

namespace StructuredData

def removeHeader (d : StructuredData) (key : ByteString) : StructuredData :=
  { d with headers := d.headers.erase key }

def insertHeader (d : StructuredData) (key value : ByteString) : StructuredData :=
  { d with headers := d.headers.insert key value }

/-- The headers that hold one value: a new one replaces the old. -/
def singleValued : List ByteString := [hfConnection, hfHost, hfVia, hfAcceptEncoding]

/-- `header(key, value)` for a name, already in lower case, other than
`content-length`: it cannot throw. -/
def storeHeader (d : StructuredData) (lowercaseKey value : ByteString) : StructuredData :=
  if lowercaseKey ∈ singleValued then
    (d.removeHeader lowercaseKey).insertHeader lowercaseKey value
  else if lowercaseKey = hfTransferEncoding ∧ icompare value (ofString "chunked") then
    (({ d with chunked := true }.removeHeader hfTransferEncoding).removeHeader
      hfContentLen).insertHeader lowercaseKey value
  else d.insertHeader lowercaseKey value

/-- `header(key, value)`. A `content-length` that `std::stoull` does not read makes
this `noexcept` function throw. -/
def header (d : StructuredData) (key value : ByteString) :
    Except ConversionError StructuredData :=
  if lower key = hfContentLen then do
    let contentLen ← stoull value
    .ok (({ d with contentLen := contentLen }.removeHeader hfContentLen).insertHeader
      hfContentLen value)
  else .ok (d.storeHeader (lower key) value)

/-- A header is taken unless it is a `content-length` that is not read. -/
theorem header_isSome_iff (d : StructuredData) (key value : ByteString) :
    (d.header key value).toOption.isSome = true ↔
      (lower key = hfContentLen → ∃ n, stoull value = .ok n) := by
  by_cases hKey : lower key = hfContentLen
  · cases hValue : stoull value with
    | error e => simp [header, hKey, hValue, Except.toOption, bind, Except.bind]
    | ok n => simp [header, hKey, hValue, Except.toOption, bind, Except.bind]
  · simp [header, hKey, Except.toOption]

/-- `header(key)`: the first value under the key. -/
def getHeader (d : StructuredData) (key : ByteString) : ByteString :=
  (d.headers.find? key).getD []

/-- `has(key)`. -/
def has (d : StructuredData) (key : ByteString) : Bool := d.getHeader key ≠ []

/-- `headers(key)`: the values under the key. -/
def getHeaders (d : StructuredData) (key : ByteString) : List ByteString := d.headers.values key

/-- `chunked(val)`. -/
def setChunked (d : StructuredData) (val : Bool) : StructuredData :=
  if val = d.chunked then d
  else
    let d := if val then d.storeHeader hfTransferEncoding hvChunked
      else d.removeHeader hfTransferEncoding
    { d with chunked := val }

/-- `content_len(val)`. There is none where the assertion fails. -/
def setContentLen (d : StructuredData) (val : UInt64) : Option StructuredData :=
  if d.chunked ∧ val ≠ 0 then none
  else (({ d with contentLen := val.toNat }.removeHeader hfContentLen).header hfContentLen
    (numeral val.toNat)).toOption

/-- `keepalive(val)`. -/
def setKeepalive (d : StructuredData) (val : Bool) : StructuredData :=
  { d with keepalive := val, defaultKeepalive := false }.storeHeader hfConnection
    (if val then hvKeepalive else hvConnectionClose)

/-- `protocol(val)`. -/
def setProtocol (d : StructuredData) (val : ProtoVersion) : StructuredData :=
  if d.protocolVersion = val then d
  else
    let d := { d with protocolVersion := val }
    if d.defaultKeepalive then
      let d := d.removeHeader hfConnection
      match val with
      | .HTTP11 => { d with keepalive := true }
      | .HTTP10 => { d.storeHeader hfConnection hvConnectionClose with keepalive := false }
      | _ => d
    else d

/-- The constructor: `content-length: 0` and `connection: close`. -/
def fresh : StructuredData :=
  let empty : StructuredData :=
    { protocolVersion := .UNSET, headers := .empty, chunked := false, keepalive := false,
      defaultKeepalive := true, contentLen := 0 }
  (empty.insertHeader hfContentLen (ofString "0")).storeHeader hfConnection hvConnectionClose

/-- The header part of `serialize`, after a header with the key `lastKey`, or at
the start. -/
def serializeHeaders : Option ByteString → List (ByteString × ByteString) → ByteString
  | _, [] => []
  | lastKey, (key, value) :: rest =>
      let glue :=
        if lastKey = some key then
          if key = ofString "cookie" then semicolonSpace else commaSpace
        else (if lastKey.isSome then crlf else []) ++ key ++ colonSpace
      glue ++ value ++ serializeHeaders (some key) rest

/-- `serialize`. With no header the assertion on `last_key` fails. -/
def serialize (d : StructuredData) : Option ByteString :=
  match d.headers.entries.getLast? with
  | none => none
  | some (lastKey, _) =>
      some (serializeHeaders none d.headers.entries ++ (if lastKey = [] then [] else crlf) ++ crlf)

end StructuredData

end Doormat.Http
