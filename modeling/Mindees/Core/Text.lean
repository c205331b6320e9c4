import Mathlib.Data.List.Basic
import Mathlib.Tactic.IntervalCases

/-!
# Text and bytes

Text is a list of code points and binary data is a list of bytes.  This module
has the hexadecimal codec that hashes, public keys and signatures travel in.
-/

namespace Mindees

/-- A Python `str`: a sequence of code points. -/
abbrev Str := List Char

/-- Texts are compared character by character. -/
instance Str.lawfulBEq : LawfulBEq Str := inferInstance

/-- A Python `bytes`. -/
abbrev Bytes := List UInt8

/-- The lower-case hexadecimal digit of a number below sixteen. -/
def hexDigit (value : Nat) : Char :=
  if value < 10 then Char.ofNat (48 + value) else Char.ofNat (87 + value)

/-- The value of a hexadecimal digit of either case. -/
def hexValue (digit : Char) : Option Nat :=
  let code := digit.toNat
  if 48 ≤ code ∧ code ≤ 57 then some (code - 48)
  else if 97 ≤ code ∧ code ≤ 102 then some (code - 87)
  else if 65 ≤ code ∧ code ≤ 70 then some (code - 55)
  else none

/-- `bytes.hex()`. -/
def hex : Bytes → Str
  | [] => []
  | byte :: rest =>
      hexDigit (byte.toNat / 16) :: hexDigit (byte.toNat % 16) :: hex rest

/-- The ASCII white space that `bytes.fromhex` skips between bytes. -/
def isAsciiSpace (char : Char) : Bool :=
  char.toNat = 32 || (9 ≤ char.toNat && char.toNat ≤ 13)

/-- `bytes.fromhex(s)`; `none` stands for its `ValueError`. -/
def fromHex : Str → Option Bytes
  | [] => some []
  | [char] => if isAsciiSpace char then some [] else none
  | first :: second :: rest =>
      if isAsciiSpace first then fromHex (second :: rest)
      else
        match hexValue first, hexValue second with
        | some high, some low =>
            (fromHex rest).map (UInt8.ofNat (16 * high + low) :: ·)
        | _, _ => none

theorem hexValue_hexDigit
    (value : Nat)
    (small : value < 16) :
    hexValue (hexDigit value) = some value := by
  interval_cases value <;> rfl

theorem isAsciiSpace_hexDigit
    (value : Nat)
    (small : value < 16) :
    isAsciiSpace (hexDigit value) = false := by
  interval_cases value <;> rfl

/-- Decoding undoes encoding. -/
@[simp] theorem fromHex_hex (bytes : Bytes) : fromHex (hex bytes) = some bytes := by
  induction bytes with
  | nil => rfl
  | cons byte rest inductionHypothesis =>
      have highSmall : byte.toNat / 16 < 16 := by
        have := byte.toNat_lt
        omega
      have lowSmall : byte.toNat % 16 < 16 := Nat.mod_lt _ (by omega)
      have whole : 16 * (byte.toNat / 16) + byte.toNat % 16 = byte.toNat :=
        Nat.div_add_mod byte.toNat 16
      simp only [hex, fromHex, isAsciiSpace_hexDigit _ highSmall,
        hexValue_hexDigit _ highSmall, hexValue_hexDigit _ lowSmall,
        inductionHypothesis, whole]
      simp

/-- Distinct byte strings have distinct encodings. -/
theorem hex_injective : Function.Injective hex := by
  intro left right equal
  have decoded : fromHex (hex left) = fromHex (hex right) := by rw [equal]
  simpa using decoded

/-- `str(n)` for an integer. -/
def decimal (value : Int) : Str :=
  match value with
  | .ofNat magnitude => Nat.toDigits 10 magnitude
  | .negSucc predecessor => '-' :: Nat.toDigits 10 (predecessor + 1)

/-! ## Digits of any script -/

/-- The digits of the character database, and those that `int` reads. -/
class Digits where
  /-- `char.isdigit()`. -/
  isDigit : Char → Bool
  /-- The value of a decimal digit; `none` stands for the `ValueError` of `int`. -/
  value : Char → Option Nat
  ascii : ∀ char : Char, char.isDigit = true →
    isDigit char = true ∧ value char = some (char.toNat - '0'.toNat)

/-- The ASCII digits. -/
@[reducible] def Symbolic.digits : Digits where
  isDigit := Char.isDigit
  value char := if char.isDigit then some (char.toNat - '0'.toNat) else none
  ascii _ digit := ⟨digit, if_pos digit⟩

end Mindees
