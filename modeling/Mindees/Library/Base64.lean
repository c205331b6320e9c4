import Mathlib.Tactic.IntervalCases
import Mathlib.Data.Option.Basic

/-!
# Base64

Three bytes as four digits of six bits, the last group filled up with padding.  The
decoder is lenient: it skips what is no digit, and stops at the padding that ends a
group.
-/

namespace Library
namespace Base64

/-- The digit of a value below 64. -/
def digit (value : Nat) : Char :=
  if value < 26 then Char.ofNat (65 + value)
  else if value < 52 then Char.ofNat (71 + value)
  else if value < 62 then Char.ofNat (value - 4)
  else if value = 62 then '+'
  else '/'

/-- The value of a digit. -/
def digitValue (char : Char) : Option Nat :=
  let code := char.toNat
  if 65 ≤ code ∧ code ≤ 90 then some (code - 65)
  else if 97 ≤ code ∧ code ≤ 122 then some (code - 71)
  else if 48 ≤ code ∧ code ≤ 57 then some (code + 4)
  else if char = '+' then some 62
  else if char = '/' then some 63
  else none

/-- The digits of some bytes. -/
def encode : List UInt8 → List Char
  | [] => []
  | [first] => [digit (first.toNat / 4), digit (first.toNat % 4 * 16), '=', '=']
  | [first, second] =>
      [digit (first.toNat / 4), digit (first.toNat % 4 * 16 + second.toNat / 16),
        digit (second.toNat % 16 * 4), '=']
  | first :: second :: third :: rest =>
      digit (first.toNat / 4) :: digit (first.toNat % 4 * 16 + second.toNat / 16) ::
        digit (second.toNat % 16 * 4 + third.toNat / 64) :: digit (third.toNat % 64) ::
        encode rest

/-- Decode from a position inside a group of four, with the bits that are left over
from the digit before and the number of pads since. -/
def decodeLoop : List Char → (position left pads : Nat) → Option (List UInt8)
  | [], position, _, _ => if position = 0 then some [] else none
  | char :: rest, position, left, pads =>
      if char = '=' then
        if position < 2 then decodeLoop rest position left pads
        else if 4 ≤ position + (pads + 1) then some []
        else decodeLoop rest position left (pads + 1)
      else
        match digitValue char with
        | none => decodeLoop rest position left pads
        | some value =>
            match position with
            | 0 => decodeLoop rest 1 value 0
            | 1 =>
                (decodeLoop rest 2 (value % 16) 0).map
                  (UInt8.ofNat (left * 4 + value / 16) :: ·)
            | 2 =>
                (decodeLoop rest 3 (value % 4) 0).map
                  (UInt8.ofNat (left * 16 + value / 4) :: ·)
            | _ => (decodeLoop rest 0 0 0).map (UInt8.ofNat (left * 64 + value) :: ·)

/-- The bytes of a text; `none` stands for an incomplete last group. -/
def decode (text : List Char) : Option (List UInt8) := decodeLoop text 0 0 0

/-! ## Reading back -/

theorem digitValue_digit
    (value : Nat)
    (small : value < 64) :
    digitValue (digit value) = some value := by
  interval_cases value <;> rfl

theorem digit_ne_pad
    (value : Nat)
    (small : value < 64) :
    digit value ≠ '=' := by
  intro pad
  have read := digitValue_digit value small
  rw [pad] at read
  cases read

section

variable {value left pads : Nat} {rest : List Char}

@[simp] theorem decodeLoop_pad_last :
    decodeLoop ('=' :: rest) 3 left 0 = some [] := rfl

@[simp] theorem decodeLoop_pad_two :
    decodeLoop ('=' :: '=' :: rest) 2 left 0 = some [] := rfl

theorem decodeLoop_first
    (small : value < 64) :
    decodeLoop (digit value :: rest) 0 left pads = decodeLoop rest 1 value 0 := by
  rw [decodeLoop, if_neg (digit_ne_pad value small), digitValue_digit value small]
  rfl

theorem decodeLoop_second
    (small : value < 64) :
    decodeLoop (digit value :: rest) 1 left pads =
      (decodeLoop rest 2 (value % 16) 0).map (UInt8.ofNat (left * 4 + value / 16) :: ·) := by
  rw [decodeLoop, if_neg (digit_ne_pad value small), digitValue_digit value small]
  rfl

theorem decodeLoop_third
    (small : value < 64) :
    decodeLoop (digit value :: rest) 2 left pads =
      (decodeLoop rest 3 (value % 4) 0).map (UInt8.ofNat (left * 16 + value / 4) :: ·) := by
  rw [decodeLoop, if_neg (digit_ne_pad value small), digitValue_digit value small]
  rfl

theorem decodeLoop_fourth
    (small : value < 64) :
    decodeLoop (digit value :: rest) 3 left pads =
      (decodeLoop rest 0 0 0).map (UInt8.ofNat (left * 64 + value) :: ·) := by
  rw [decodeLoop, if_neg (digit_ne_pad value small), digitValue_digit value small]
  rfl

end

/-- A byte is put together from two parts of it. -/
theorem ofNat_toNat_eq
    {byte : UInt8}
    {value : Nat}
    (parts : value = byte.toNat) :
    UInt8.ofNat value = byte := by
  rw [parts, UInt8.ofNat_toNat]

/-- Decoding gives back the bytes. -/
@[simp] theorem decode_encode (bytes : List UInt8) : decode (encode bytes) = some bytes := by
  rw [decode]
  induction bytes using encode.induct with
  | case1 => rfl
  | case2 first =>
      have bound := first.toNat_lt
      have upper : UInt8.ofNat (first.toNat / 4 * 4 + first.toNat % 4 * 16 / 16) = first :=
        ofNat_toNat_eq (by omega)
      rw [encode, decodeLoop_first (by omega), decodeLoop_second (by omega),
        decodeLoop_pad_two, upper, Option.map_some]
  | case3 first second =>
      have bound := first.toNat_lt
      have secondBound := second.toNat_lt
      have upper : UInt8.ofNat (first.toNat / 4 * 4 +
          (first.toNat % 4 * 16 + second.toNat / 16) / 16) = first :=
        ofNat_toNat_eq (by omega)
      have middle : UInt8.ofNat ((first.toNat % 4 * 16 + second.toNat / 16) % 16 * 16 +
          second.toNat % 16 * 4 / 4) = second :=
        ofNat_toNat_eq (by omega)
      rw [encode, decodeLoop_first (by omega), decodeLoop_second (by omega),
        decodeLoop_third (by omega), decodeLoop_pad_last, upper, middle, Option.map_some,
        Option.map_some]
  | case4 first second third rest inductionHypothesis =>
      have bound := first.toNat_lt
      have secondBound := second.toNat_lt
      have thirdBound := third.toNat_lt
      have upper : UInt8.ofNat (first.toNat / 4 * 4 +
          (first.toNat % 4 * 16 + second.toNat / 16) / 16) = first :=
        ofNat_toNat_eq (by omega)
      have middle : UInt8.ofNat ((first.toNat % 4 * 16 + second.toNat / 16) % 16 * 16 +
          (second.toNat % 16 * 4 + third.toNat / 64) / 4) = second :=
        ofNat_toNat_eq (by omega)
      have lower : UInt8.ofNat ((second.toNat % 16 * 4 + third.toNat / 64) % 4 * 64 +
          third.toNat % 64) = third :=
        ofNat_toNat_eq (by omega)
      rw [encode, decodeLoop_first (by omega), decodeLoop_second (by omega),
        decodeLoop_third (by omega), decodeLoop_fourth (by omega), inductionHypothesis,
        upper, middle, lower, Option.map_some, Option.map_some, Option.map_some]

/-- A text of eleven bytes, with a line break inside. -/
example : (decode "aGVsbG8g\nd29ybGQ=".toList).map List.length = some 11 := by decide

end Base64
end Library
