import Mathlib.Data.List.Lex
import Doormat.Library.Bytes

/-! The names of `http_commons.h` that the codec uses. -/
namespace Doormat.Http

open Bytes

/-- Strings compare byte by byte, as `std::string` does. -/
instance instLinearOrderUInt8 : LinearOrder UInt8 where
  le_refl := UInt8.le_refl
  le_trans _ _ _ := UInt8.le_trans
  lt_iff_le_not_ge a b := by simp [UInt8.lt_iff_toNat_lt, UInt8.le_iff_toNat_le]; omega
  le_antisymm _ _ := UInt8.le_antisymm
  le_total := UInt8.le_total
  toDecidableLE := inferInstance

/-- `enum class proto_version`. -/
inductive ProtoVersion
  | UNSET | HTTP11 | HTTP10 | HTTP20
deriving DecidableEq, Repr

def space : ByteString := ofString " "
def questionmark : ByteString := ofString "?"
def hash : ByteString := ofString "#"
def commaSpace : ByteString := ofString ", "
def semicolonSpace : ByteString := ofString "; "
def colonSpace : ByteString := ofString ": "
def slash : ByteString := ofString "/"
def crlf : ByteString := [13, 10]
def transferChunkedTermination : ByteString := ofString "0" ++ crlf

/-- `proto_to_string`. -/
def protoToString : ProtoVersion → ByteString
  | .HTTP10 => ofString "HTTP/1.0"
  | .HTTP11 => ofString "HTTP/1.1"
  | .HTTP20 => ofString "HTTP/2.0"
  | .UNSET => []

def hfConnection : ByteString := ofString "connection"
def hfHost : ByteString := ofString "host"
def hfContentLen : ByteString := ofString "content-length"
def hfAcceptEncoding : ByteString := ofString "accept-encoding"
def hfTransferEncoding : ByteString := ofString "transfer-encoding"
def hfVia : ByteString := ofString "via"

def hvKeepalive : ByteString := ofString "keep-alive"
def hvConnectionClose : ByteString := ofString "close"
def hvChunked : ByteString := ofString "Chunked"

end Doormat.Http
