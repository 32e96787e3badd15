import Mathlib.Algebra.Ring.Int.Defs
import Mathlib.Algebra.Ring.Nat
import Mathlib.Data.List.Basic
import Mathlib.Data.List.TakeWhile
import Mathlib.Data.Fintype.Basic

/-! Byte strings, ASCII case and decimal numerals. Nothing here depends on a
particular program; a byte string is the list of its bytes. -/
namespace Bytes

/-- A string of bytes, the contents of a `std::string` or of a `char` buffer. -/
abbrev ByteString := List UInt8

/-- The bytes of an ASCII literal. -/
def ofString (s : String) : ByteString := s.toList.map Char.toUInt8

/-- A decidable property of bytes is checked on the 256 of them. -/
theorem forall_byte {P : UInt8 → Prop} (h : ∀ n : Fin 256, P (UInt8.ofNat n.val)) (c : UInt8) :
    P c := by
  have hc := h ⟨c.toNat, c.toNat_lt⟩
  simpa using hc

/-- `::tolower` in the C locale. -/
def toLower (c : UInt8) : UInt8 :=
  if 'A'.toUInt8 ≤ c ∧ c ≤ 'Z'.toUInt8 then c + 32 else c

/-- Lower-case every byte. -/
def lower (s : ByteString) : ByteString := s.map toLower

@[simp] theorem lower_nil : lower [] = [] := rfl

@[simp] theorem lower_append (s t : ByteString) : lower (s ++ t) = lower s ++ lower t := by
  simp [lower]

@[simp] theorem length_lower (s : ByteString) : (lower s).length = s.length := by simp [lower]

theorem toLower_toLower (c : UInt8) : toLower (toLower c) = toLower c :=
  forall_byte (P := fun c => toLower (toLower c) = toLower c) (by decide +kernel) c

theorem lower_lower (s : ByteString) : lower (lower s) = lower s := by
  simp [lower, toLower_toLower]

/-- Equality that ignores the case of ASCII letters. -/
def icompare (a b : ByteString) : Bool := lower a == lower b

def isDigit (c : UInt8) : Bool := '0'.toUInt8 ≤ c && c ≤ '9'.toUInt8

/-- `isspace` in the C locale. -/
def isSpace (c : UInt8) : Bool := c = 32 || (9 ≤ c && c ≤ 13)

def digitValue (c : UInt8) : Nat := c.toNat - 48

theorem digitValue_le {c : UInt8} (h : isDigit c = true) : digitValue c ≤ 9 := by
  revert h
  exact forall_byte (P := fun c => isDigit c = true → digitValue c ≤ 9) (by decide +kernel) c

theorem isSpace_of_isDigit {c : UInt8} (h : isDigit c = true) : isSpace c = false := by
  revert h
  exact forall_byte (P := fun c => isDigit c = true → isSpace c = false) (by decide +kernel) c

/-- The number written by a run of decimal digits, most significant first. -/
def decimal (digits : ByteString) : Nat :=
  digits.foldl (fun acc c => acc * 10 + digitValue c) 0

theorem foldl_decimal_le (acc : Nat) (digits : ByteString) :
    acc ≤ digits.foldl (fun acc c => acc * 10 + digitValue c) acc := by
  induction digits generalizing acc with
  | nil => exact Nat.le_refl _
  | cons c rest ih => exact Nat.le_trans (by omega) (ih (acc * 10 + digitValue c))

@[simp] theorem decimal_concat (digits : ByteString) (c : UInt8) :
    decimal (digits ++ [c]) = decimal digits * 10 + digitValue c := by
  simp [decimal, List.foldl_append]

/-- `std::to_string`: the decimal digits of a number. -/
def numeral (n : Nat) : ByteString := (Nat.toDigits 10 n).map Char.toUInt8

theorem digit_of_lt {n : Nat} (h : n < 10) :
    isDigit n.digitChar.toUInt8 = true ∧ digitValue n.digitChar.toUInt8 = n := by
  have hAll : ∀ d : Fin 10, isDigit d.val.digitChar.toUInt8 = true ∧
      digitValue d.val.digitChar.toUInt8 = d.val := by decide
  exact hAll ⟨n, h⟩

theorem numeral_of_lt {n : Nat} (h : n < 10) : numeral n = [n.digitChar.toUInt8] := by
  simp [numeral, Nat.toDigits_of_lt_base h]

theorem numeral_of_le {n : Nat} (h : 10 ≤ n) :
    numeral n = numeral (n / 10) ++ [(n % 10).digitChar.toUInt8] := by
  simp [numeral, Nat.toDigits_of_base_le (by decide : 1 < 10) h]

/-- A number is read back from its numeral. -/
theorem numeral_digits (n : Nat) : (∀ c ∈ numeral n, isDigit c = true) ∧ decimal (numeral n) = n := by
  induction n using Nat.strongRecOn with
  | ind n ih =>
      by_cases hLt : n < 10
      · have hDigit := digit_of_lt hLt
        simp [numeral_of_lt hLt, decimal, hDigit]
      · have hMod := digit_of_lt (Nat.mod_lt n (by decide : 0 < 10))
        have hDiv := ih (n / 10) (by omega)
        rw [numeral_of_le (by omega)]
        constructor
        · intro c hc
          cases List.mem_append.mp hc with
          | inl h => exact hDiv.1 c h
          | inr h =>
              rw [List.mem_singleton.mp h]
              exact hMod.1
        · rw [decimal_concat, hDiv.2, hMod.2]
          omega

theorem numeral_ne_nil (n : Nat) : numeral n ≠ [] := by
  simp [numeral, Nat.toDigits_ne_nil]

/-- What `std::stoull` throws. -/
inductive ConversionError
  | invalidArgument
  | outOfRange
deriving DecidableEq, Repr

def sizeLimit : Nat := 2 ^ 64

/-- The number `strtoull` reads after white space and a sign. A minus sign
negates the value in 64-bit arithmetic. -/
def readUnsigned (negative : Bool) (s : ByteString) : Except ConversionError Nat :=
  let digits := s.takeWhile isDigit
  if digits = [] then .error .invalidArgument
  else if sizeLimit ≤ decimal digits then .error .outOfRange
  else .ok (if negative then (sizeLimit - decimal digits) % sizeLimit else decimal digits)

/-- `std::stoull` in base ten: leading white space, an optional sign, then as
many digits as there are. Whatever follows the digits is ignored. -/
def stoull (s : ByteString) : Except ConversionError Nat :=
  match s.dropWhile isSpace with
  | [] => .error .invalidArgument
  | c :: rest =>
      if c = '-'.toUInt8 then readUnsigned true rest
      else if c = '+'.toUInt8 then readUnsigned false rest
      else readUnsigned false (c :: rest)

/-- The number that `strtol` reads after white space and a sign, where it fits an `int`. -/
def readSigned (negative : Bool) (s : ByteString) : Except ConversionError Int :=
  let digits := s.takeWhile isDigit
  let value : Int := if negative then -decimal digits else decimal digits
  if digits = [] then .error .invalidArgument
  else if -2 ^ 31 ≤ value ∧ value < 2 ^ 31 then .ok value
  else .error .outOfRange

/-- `std::stoi` in base ten. -/
def stoi (s : ByteString) : Except ConversionError Int :=
  match s.dropWhile isSpace with
  | [] => .error .invalidArgument
  | c :: rest =>
      if c = '-'.toUInt8 then readSigned true rest
      else if c = '+'.toUInt8 then readSigned false rest
      else readSigned false (c :: rest)

theorem ne_sign_of_isDigit {c : UInt8} (h : isDigit c = true) :
    c ≠ '-'.toUInt8 ∧ c ≠ '+'.toUInt8 := by
  revert h
  exact forall_byte (P := fun c => isDigit c = true → c ≠ '-'.toUInt8 ∧ c ≠ '+'.toUInt8)
    (by decide +kernel) c

/-- A string that starts with a digit is read as its leading run of digits. -/
theorem stoull_of_digit {c : UInt8} (h : isDigit c = true) (rest : ByteString) :
    stoull (c :: rest) =
      if sizeLimit ≤ decimal ((c :: rest).takeWhile isDigit) then .error .outOfRange
      else .ok (decimal ((c :: rest).takeWhile isDigit)) := by
  obtain ⟨hMinus, hPlus⟩ := ne_sign_of_isDigit h
  simp [stoull, readUnsigned, isSpace_of_isDigit h, hMinus, hPlus, h]

theorem takeWhile_numeral (n : Nat) : (numeral n).takeWhile isDigit = numeral n :=
  List.takeWhile_eq_self_iff.mpr (numeral_digits n).1

theorem exists_numeral_cons (n : Nat) : ∃ c rest, numeral n = c :: rest ∧ isDigit c = true := by
  cases hNumeral : numeral n with
  | nil => exact absurd hNumeral (numeral_ne_nil n)
  | cons c rest => exact ⟨c, rest, rfl, (numeral_digits n).1 c (by simp [hNumeral])⟩

/-- `std::stoull` undoes `std::to_string`. -/
theorem stoull_numeral {n : Nat} (h : n < sizeLimit) : stoull (numeral n) = .ok n := by
  obtain ⟨c, rest, hNumeral, hc⟩ := exists_numeral_cons n
  rw [hNumeral, stoull_of_digit hc, ← hNumeral, takeWhile_numeral, (numeral_digits n).2,
    if_neg (Nat.not_le.mpr h)]

/-- `std::stoi` undoes `std::to_string`. -/
theorem stoi_numeral {n : Nat} (h : n < 2 ^ 31) : stoi (numeral n) = .ok n := by
  obtain ⟨c, rest, hNumeral, hc⟩ := exists_numeral_cons n
  obtain ⟨hMinus, hPlus⟩ := ne_sign_of_isDigit hc
  have hRead : stoi (numeral n) = readSigned false (numeral n) := by
    simp [stoi, hNumeral, isSpace_of_isDigit hc, hMinus, hPlus]
  have hFits : -2 ^ 31 ≤ (n : Int) ∧ (n : Int) < 2 ^ 31 := by omega
  rw [hRead, readSigned, takeWhile_numeral, (numeral_digits n).2]
  simp only [numeral_ne_nil, if_false, Bool.false_eq_true]
  rw [if_pos hFits]

end Bytes
