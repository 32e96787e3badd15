import Doormat.Library.Bytes

/-! The character classes of `http_parser.c`, for `HTTP_PARSER_STRICT`. -/
namespace Doormat.Parser

open Bytes

def CR : UInt8 := 13
def LF : UInt8 := 10
def SP : UInt8 := 32
def HT : UInt8 := 9

/-- `LOWER(c)`. -/
def LOWER (c : UInt8) : UInt8 := c ||| 0x20

/-- `IS_ALPHA(c)`. -/
def isAlpha (c : UInt8) : Bool := 'a'.toUInt8 ≤ LOWER c && LOWER c ≤ 'z'.toUInt8

/-- `IS_NUM(c)`. -/
def isNum (c : UInt8) : Bool := isDigit c

def isAlphanum (c : UInt8) : Bool := isAlpha c || isNum c

/-- `IS_HEX(c)`. -/
def isHex (c : UInt8) : Bool := isNum c || ('a'.toUInt8 ≤ LOWER c && LOWER c ≤ 'f'.toUInt8)

/-- `IS_MARK(c)`. -/
def isMark (c : UInt8) : Bool := (ofString "-_.!~*'()").contains c

/-- `IS_USERINFO_CHAR(c)`. -/
def isUserinfoChar (c : UInt8) : Bool :=
  isAlphanum c || isMark c || (ofString "%;:&=+$,").contains c

/-- `IS_HOST_CHAR(c)`. -/
def isHostChar (c : UInt8) : Bool := isAlphanum c || c = '.'.toUInt8 || c = '-'.toUInt8

/-- `TOKEN(c)` and `STRICT_TOKEN(c)`: the table `tokens` holds the lower-cased
byte for a token character and zero for every other byte. -/
def token (c : UInt8) : UInt8 :=
  if isAlphanum c || (ofString "!#$%&'*+-.^_|~").contains c || c = 96 then toLower c else 0

/-- `IS_URL_CHAR(c)`: the bits set in `normal_url_char`. -/
def isUrlChar (c : UInt8) : Bool :=
  33 ≤ c && c ≤ 126 && c ≠ '#'.toUInt8 && c ≠ '?'.toUInt8

/-- `IS_HEADER_CHAR(c)`. -/
def isHeaderChar (c : UInt8) : Bool := c = CR || c = LF || c = 9 || (31 < c && c ≠ 127)

/-- The table `unhex`, with `none` for `-1`. The initialiser lists 128 entries,
so the entries of the bytes from 128 on are zero. -/
def unhex (c : UInt8) : Option Nat :=
  if 128 ≤ c then some 0
  else if isNum c then some (c.toNat - 48)
  else if 'a'.toUInt8 ≤ c && c ≤ 'f'.toUInt8 then some (c.toNat - 87)
  else if 'A'.toUInt8 ≤ c && c ≤ 'F'.toUInt8 then some (c.toNat - 55)
  else none

/-- A token character is stored lower-cased. -/
theorem token_eq_toLower {c : UInt8} (h : token c ≠ 0) : token c = toLower c := by
  revert h
  exact forall_byte (P := fun c => token c ≠ 0 → token c = toLower c) (by decide +kernel) c

end Doormat.Parser
