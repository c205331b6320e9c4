import Mindees.Library.Positional
import Mindees.Node.Discovery
import Mindees.Node.Storage
import Mindees.Node.Wallet

/-!
# Secrets

A secret is a number below `2 ^ 256`, kept as text of 64 hexadecimal digits.  A fresh one
is drawn until the curve takes it.
-/

namespace Mindees

open Library

/-! ## Reading a hexadecimal number -/

/-- The white space around a number. -/
def isBlank (char : Char) : Bool := char = ' ' || (9 ≤ char.toNat && char.toNat ≤ 13)

/-- Digits up to what is none, each with at most one underscore before it. -/
def scanHex (value : Nat) : Str → Option (Nat × Str)
  | [] => some (value, [])
  | ['_'] => none
  | '_' :: char :: rest =>
      match hexValue char with
      | some digit => scanHex (16 * value + digit) rest
      | none => none
  | char :: rest =>
      match hexValue char with
      | some digit => scanHex (16 * value + digit) rest
      | none => some (value, char :: rest)

/-- Digits of which there is at least one. -/
def readHexDigits : Str → Option (Nat × Str)
  | [] => none
  | char :: rest =>
      match hexValue char with
      | some digit => scanHex digit rest
      | none => none

/-- What follows the prefix `0x`, if there is one. -/
def dropHexPrefix : Str → Str
  | '0' :: 'x' :: '_' :: rest => rest
  | '0' :: 'x' :: rest => rest
  | '0' :: 'X' :: '_' :: rest => rest
  | '0' :: 'X' :: rest => rest
  | text => text

section

variable [Digits]

/-- The white space and the decimal digits of other scripts in ASCII. -/
def asciiNumber (text : Str) : Str :=
  if text.all (·.toNat < 128) = true then text
  else text.map fun char =>
    if char.toNat < 127 then char
    else if isSpace char then ' '
    else ((Digits.value char).map hexDigit).getD '?'

/-- `int(text, 16)`. -/
def intOfHex (text : Str) : Except Error Int :=
  let (negative, digits) := Numeral.readSign ((asciiNumber text).dropWhile isBlank)
  match readHexDigits (dropHexPrefix digits) with
  | some (value, rest) =>
      if rest.all isBlank then .ok (if negative then -value else value) else .error .valueError
  | none => .error .valueError

end

/-- A number written with hexadecimal digits. -/
def hexDigits (digits : List Nat) : Str := digits.map hexDigit

/-- The digits of a secret. -/
def secretDigits (value : Nat) : List Nat :=
  List.replicate (64 - (Positional.write 16 value).length) 0 ++ Positional.write 16 value

/-- `format(value, "064x")`. -/
def formatSecret (value : Nat) : Str := hexDigits (secretDigits value)

/-! ## Keys -/

/-- The derivation of key pairs. -/
class Keys where
  /-- `ec.derive_private_key`; `none` stands for its `ValueError`. -/
  derive : Nat → Option Wallet

section

variable [Keys]

/-- The wallet of a secret. -/
def Wallet.fromSecret (secret : Int) : Except Error Wallet := do
  raiseIf (¬(1 ≤ secret ∧ secret < 2 ^ 256)) .valueError
  require (Keys.derive secret.toNat) .valueError

/-- The first draw that the curve takes, with the draws after it. -/
def newSecret : (draws : List Nat) → Option (Str × List Nat)
  | [] => none
  | draw :: draws =>
      match Wallet.fromSecret draw with
      | .ok _ => some (formatSecret draw, draws)
      | .error _ => newSecret draws

end

/-! ## Written secrets -/

theorem hexDigit_ascii
    (value : Nat)
    (small : value < 16) :
    (hexDigit value).toNat < 128 ∧ hexDigit value ≠ '_' ∧ hexDigit value ≠ 'x' ∧
      hexDigit value ≠ 'X' ∧ hexDigit value ≠ '-' ∧ hexDigit value ≠ '+' ∧
      isBlank (hexDigit value) = false := by
  interval_cases value <;> decide

section

variable {digits : List Nat}

theorem scanHex_hexDigits
    (small : ∀ digit ∈ digits, digit < 16)
    (value : Nat) :
    scanHex value (hexDigits digits) =
      some (digits.foldl (fun sofar digit => 16 * sofar + digit) value, []) := by
  induction digits generalizing value with
  | nil => rfl
  | cons digit rest inductionHypothesis =>
      have here := small digit List.mem_cons_self
      have later := inductionHypothesis
        (fun other inside => small other (List.mem_cons_of_mem _ inside)) (16 * value + digit)
      obtain ⟨_, notUnderscore, _⟩ := hexDigit_ascii digit here
      rw [hexDigits] at later ⊢
      rw [List.map_cons, scanHex, hexValue_hexDigit digit here]
      · exact later
      · intro alone
        exact absurd alone notUnderscore
      · intro _ _ alone
        exact absurd alone notUnderscore

theorem plain_hexDigits
    (small : ∀ digit ∈ digits, digit < 16) :
    ∀ char ∈ hexDigits digits, char.toNat < 128 ∧ char ≠ '_' ∧ char ≠ 'x' ∧ char ≠ 'X' ∧
      char ≠ '-' ∧ char ≠ '+' ∧ isBlank char = false := by
  intro char inside
  obtain ⟨digit, present, rfl⟩ := List.mem_map.mp inside
  exact hexDigit_ascii digit (small digit present)

theorem dropHexPrefix_hexDigits
    (small : ∀ digit ∈ digits, digit < 16) :
    dropHexPrefix (hexDigits digits) = hexDigits digits := by
  have plain := plain_hexDigits small
  have noPrefix : ∀ mark rest, mark = 'x' ∨ mark = 'X' →
      hexDigits digits ≠ '0' :: mark :: rest := by
    intro mark rest named spelled
    obtain ⟨_, _, notLower, notUpper, _⟩ := plain mark (by rw [spelled]; simp)
    exact named.elim notLower notUpper
  rw [dropHexPrefix]
  · intro rest
    exact noPrefix 'x' _ (.inl rfl)
  · intro rest
    exact noPrefix 'x' _ (.inl rfl)
  · intro rest
    exact noPrefix 'X' _ (.inr rfl)
  · intro rest
    exact noPrefix 'X' _ (.inr rfl)

theorem readSign_hexDigits
    (small : ∀ digit ∈ digits, digit < 16) :
    Numeral.readSign (hexDigits digits) = (false, hexDigits digits) := by
  have plain := plain_hexDigits small
  rw [Numeral.readSign]
  · intro rest spelled
    obtain ⟨_, _, _, _, notMinus, _⟩ := plain '-' (by rw [spelled]; simp)
    exact notMinus rfl
  · intro rest spelled
    obtain ⟨_, _, _, _, _, notPlus, _⟩ := plain '+' (by rw [spelled]; simp)
    exact notPlus rfl

theorem dropWhile_isBlank_hexDigits
    (small : ∀ digit ∈ digits, digit < 16) :
    (hexDigits digits).dropWhile isBlank = hexDigits digits := by
  cases digits with
  | nil => rfl
  | cons digit rest =>
      obtain ⟨_, _, _, _, _, _, visible⟩ := hexDigit_ascii digit (small digit List.mem_cons_self)
      rw [hexDigits, List.map_cons, List.dropWhile_cons, visible]
      rfl

theorem asciiNumber_hexDigits
    [Digits]
    (small : ∀ digit ∈ digits, digit < 16) :
    asciiNumber (hexDigits digits) = hexDigits digits := by
  apply if_pos
  rw [List.all_eq_true]
  intro char inside
  exact decide_eq_true (plain_hexDigits small char inside).1

/-- Digits read back as the value that they write. -/
theorem intOfHex_hexDigits
    [Digits]
    (small : ∀ digit ∈ digits, digit < 16)
    (nonempty : digits ≠ []) :
    intOfHex (hexDigits digits) =
      .ok (digits.foldl (fun sofar digit => 16 * sofar + digit) 0 : Nat) := by
  have scanned : readHexDigits (hexDigits digits) =
      some (digits.foldl (fun sofar digit => 16 * sofar + digit) 0, []) := by
    cases digits with
    | nil => exact absurd rfl nonempty
    | cons digit rest =>
        have later : ∀ other ∈ rest, other < 16 :=
          fun other inside => small other (List.mem_cons_of_mem _ inside)
        rw [hexDigits, List.map_cons, readHexDigits,
          hexValue_hexDigit digit (small digit List.mem_cons_self)]
        exact (scanHex_hexDigits later digit).trans (by rw [List.foldl_cons, Nat.mul_zero,
          Nat.zero_add])
  rw [intOfHex, asciiNumber_hexDigits small, dropWhile_isBlank_hexDigits small,
    readSign_hexDigits small]
  dsimp only
  rw [dropHexPrefix_hexDigits small, scanned]
  rfl

/-- An even number of digits spells bytes. -/
theorem exists_hex_eq
    (small : ∀ digit ∈ digits, digit < 16)
    {pairs : Nat}
    (even : digits.length = 2 * pairs) :
    ∃ bytes, hex bytes = hexDigits digits := by
  induction pairs generalizing digits with
  | zero =>
      rw [Nat.mul_zero, List.length_eq_zero_iff] at even
      exact ⟨[], by rw [even]; rfl⟩
  | succ pairs inductionHypothesis =>
      obtain ⟨high, others, rfl⟩ := List.exists_cons_of_length_pos (by omega : 0 < digits.length)
      obtain ⟨low, rest, rfl⟩ := List.exists_cons_of_length_pos
        (by rw [List.length_cons] at even; omega : 0 < others.length)
      have highSmall := small high (by simp)
      have lowSmall := small low (by simp)
      have later : ∀ digit ∈ rest, digit < 16 :=
        fun digit inside => small digit (by simp [inside])
      rw [List.length_cons, List.length_cons] at even
      obtain ⟨bytes, spelled⟩ := inductionHypothesis later (by omega)
      refine ⟨UInt8.ofNat (16 * high + low) :: bytes, ?_⟩
      have byte : (UInt8.ofNat (16 * high + low)).toNat = 16 * high + low :=
        UInt8.toNat_ofNat_of_lt' (by show _ < 256; omega)
      have upper : (16 * high + low) / 16 = high := by omega
      have lower : (16 * high + low) % 16 = low := by omega
      rw [hex, byte, upper, lower, spelled]
      rfl

end

/-! ## Fresh secrets -/

theorem secretDigits_small (value : Nat) : ∀ digit ∈ secretDigits value, digit < 16 := by
  intro digit inside
  rcases List.mem_append.mp inside with zero | written
  · rw [List.eq_of_mem_replicate zero]
    decide
  · rw [Positional.write, List.mem_reverse] at written
    exact Nat.digits_lt_base (by decide) written

theorem length_secretDigits
    {value : Nat}
    (bounded : value < 2 ^ 256) :
    (secretDigits value).length = 64 := by
  have short : (Positional.write 16 value).length ≤ 64 := by
    rw [Positional.write, List.length_reverse, Nat.digits_length_le_iff (by decide)]
    exact bounded.trans_eq (by norm_num)
  rw [secretDigits, List.length_append, List.length_replicate]
  omega

/-- A written secret has 64 characters, spells 32 bytes, and is read back. -/
theorem formatSecret_spec
    [Digits]
    {value : Nat}
    (bounded : value < 2 ^ 256) :
    (formatSecret value).length = 64 ∧
      (∃ bytes, hex bytes = formatSecret value) ∧
      intOfHex (formatSecret value) = .ok value := by
  have long := length_secretDigits bounded
  have small := secretDigits_small value
  refine ⟨?_, exists_hex_eq small (show _ = 2 * 32 from long), ?_⟩
  · rw [formatSecret, hexDigits, List.length_map, long]
  · have nonempty : secretDigits value ≠ [] := by
      intro empty
      rw [empty] at long
      cases long
    rw [formatSecret, intOfHex_hexDigits small nonempty, ← Positional.value_eq_foldl,
      secretDigits, Positional.value_zeros_append, Positional.value_write]

/-- A fresh secret is the text of a draw that the curve takes. -/
theorem newSecret_eq_some
    [Keys]
    {draws rest : List Nat}
    {secret : Str}
    (drawn : newSecret draws = some (secret, rest)) :
    ∃ draw ∈ draws, ∃ wallet, Wallet.fromSecret draw = .ok wallet ∧
      secret = formatSecret draw := by
  induction draws with
  | nil => cases drawn
  | cons draw draws inductionHypothesis =>
      rw [newSecret] at drawn
      cases taken : Wallet.fromSecret draw with
      | ok wallet =>
          rw [taken] at drawn
          obtain ⟨rfl, rfl⟩ := Prod.mk.inj (Option.some.inj drawn)
          exact ⟨draw, List.mem_cons_self, wallet, taken, rfl⟩
      | error raised =>
          rw [taken] at drawn
          obtain ⟨found, inside, wallet, accepted, spelled⟩ := inductionHypothesis drawn
          exact ⟨found, List.mem_cons_of_mem _ inside, wallet, accepted, spelled⟩

end Mindees
