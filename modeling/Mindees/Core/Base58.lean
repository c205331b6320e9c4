import Mindees.Core.Symbolic
import Mindees.Library.Positional

/-!
# Base58Check addresses

The encoder divides by 58 until nothing is left and then puts one `'1'` in front
for every zero byte at the start.  No two payloads have one encoding, and none is
encoded as a reserved recipient.
-/

namespace Mindees

open Library

/-! ## The loops of the encoder -/

/-- `while n > 0: n, rem = divmod(n, 58); out = _B58[rem] + out`; `none` when the
fuel runs out first. -/
def divideLoop : (fuel : Nat) → (n : Nat) → (out : Str) → Option Str
  | _, 0, out => some out
  | 0, _ + 1, _ => none
  | fuel + 1, n + 1, out =>
      divideLoop fuel ((n + 1) / 58) (base58Alphabet.getD ((n + 1) % 58) '1' :: out)

/-- `for b in raw: if b == 0: out = "1" + out; else: break`. -/
def markZeros : (raw : Bytes) → (out : Str) → Str
  | [], out => out
  | byte :: rest, out => if byte = 0 then markZeros rest ('1' :: out) else out

/-- A digit as a character. -/
def base58Char (digit : Nat) : Char := base58Alphabet.getD digit '1'

/-- Every turn divides what is left, so what is left bounds the number of turns. -/
theorem divideLoop_eq
    {fuel n : Nat}
    (enough : n ≤ fuel)
    (out : Str) :
    divideLoop fuel n out = some ((Positional.write 58 n).map base58Char ++ out) := by
  induction fuel generalizing n out with
  | zero =>
      rw [Nat.le_zero.mp enough, divideLoop]
      rfl
  | succ fuel inductionHypothesis =>
      cases n with
      | zero =>
          rw [divideLoop]
          rfl
      | succ n =>
          have smaller : (n + 1) / 58 ≤ fuel := by omega
          rw [divideLoop, inductionHypothesis smaller, Positional.write, Positional.write,
            Nat.digits_def' (by decide) (Nat.succ_pos n)]
          simp [base58Char]

theorem markZeros_eq
    (raw : Bytes)
    (out : Str) :
    markZeros raw out = (raw.takeWhile (· = 0)).map (fun _ => '1') ++ out := by
  induction raw generalizing out with
  | nil => rfl
  | cons byte rest inductionHypothesis =>
      rw [markZeros]
      split_ifs with zero
      · rw [inductionHypothesis, zero]
        simp only [List.map_const', decide_true, List.takeWhile_cons_of_pos, List.length_cons,
          List.replicate_succ', List.append_assoc, List.singleton_append]
      · simp [zero]

/-! ## The encoder as a change of base -/

/-- The bytes of a numeral in base 256. -/
def byteDigits (raw : Bytes) : List Nat := raw.map UInt8.toNat

theorem byteDigits_lt
    {raw : Bytes}
    {digit : Nat}
    (inside : digit ∈ byteDigits raw) :
    digit < 256 := by
  obtain ⟨byte, _, rfl⟩ := List.mem_map.mp inside
  exact byte.toNat_lt

theorem byteDigits_injective : Function.Injective byteDigits := by
  apply List.map_injective_iff.mpr
  intro left right same
  exact UInt8.toNat_inj.mp same

theorem intFromBytes_eq (raw : Bytes) :
    intFromBytes raw = Positional.value 256 (byteDigits raw) := by
  induction raw using List.reverseRecOn with
  | nil => rfl
  | append_singleton raw byte inductionHypothesis =>
      rw [intFromBytes, List.foldl_append, List.foldl_cons, List.foldl_nil, byteDigits,
        List.map_append, List.map_singleton, Positional.value_append_singleton]
      rw [← byteDigits, ← inductionHypothesis, intFromBytes]

/-- The numeral in base 58 whose characters are the encoding. -/
def base58Digits (raw : Bytes) : List Nat := Positional.rebase 256 58 (byteDigits raw)

theorem base58Digits_eq (raw : Bytes) :
    base58Digits raw =
      (byteDigits raw).takeWhile (· = 0) ++ Positional.write 58 (intFromBytes raw) := by
  rw [base58Digits, Positional.rebase_eq, intFromBytes_eq]

/-- No two byte strings are one numeral. -/
theorem base58Digits_injective : Function.Injective base58Digits := by
  intro left right same
  apply byteDigits_injective
  apply Positional.rebase_inj (by decide) _ _ same
  · exact fun digit => byteDigits_lt
  · exact fun digit => byteDigits_lt

theorem map_base58Char_zeros (raw : Bytes) :
    ((byteDigits raw).takeWhile (· = 0)).map base58Char =
      (raw.takeWhile (· = 0)).map fun _ => '1' := by
  induction raw with
  | nil => rfl
  | cons byte rest inductionHypothesis =>
      rw [byteDigits, List.map_cons, ← byteDigits]
      by_cases zero : byte = 0
      · have marker : base58Char 0 = '1' := rfl
        have digit : byte.toNat = 0 := by rw [zero]; rfl
        rw [digit, zero, List.takeWhile_cons_of_pos rfl, List.takeWhile_cons_of_pos rfl,
          List.map_cons, List.map_cons, marker, inductionHypothesis]
      · have digit : byte.toNat ≠ 0 := fun same => zero (UInt8.toNat_inj.mp same)
        simp [zero, digit]

/-! ## The alphabet -/

/-- The digit that a character stands for. -/
def base58Value (char : Char) : Nat := base58Alphabet.idxOf char

theorem base58Value_base58Char : ∀ digit < 58, base58Value (base58Char digit) = digit := by decide

theorem base58Char_ne_underscore : ∀ digit < 58, base58Char digit ≠ '_' := by decide

section

variable [Primitives] {payload : Bytes}

/-- A payload behind which its checksum is written. -/
def checksummed (payload : Bytes) : Bytes := payload ++ (doubleSha256 payload).take 4

/-- The encoder, loop by loop. -/
def b58checkLoop (fuel : Nat) (payload : Bytes) : Option Str :=
  let raw := checksummed payload
  (divideLoop fuel (intFromBytes raw) []).map (markZeros raw)

theorem b58check_eq (payload : Bytes) :
    b58check payload = (base58Digits (checksummed payload)).map base58Char := by
  rw [base58Digits_eq, List.map_append, map_base58Char_zeros]
  rfl

/-- The loops end, and with the encoding. -/
theorem b58checkLoop_eq
    {fuel : Nat}
    (enough : intFromBytes (checksummed payload) ≤ fuel) :
    b58checkLoop fuel payload = some (b58check payload) := by
  rw [b58checkLoop, divideLoop_eq enough, Option.map_some, markZeros_eq, List.append_nil,
    b58check_eq, base58Digits_eq, List.map_append, map_base58Char_zeros]

theorem checksummed_inj
    (digests : ∀ data, 4 ≤ (sha256 data).length)
    {left right : Bytes}
    (same : checksummed left = checksummed right) :
    left = right := by
  have checksum : ∀ data, ((doubleSha256 data).take 4).length = 4 := by
    intro data
    rw [List.length_take, doubleSha256]
    exact min_eq_left (digests _)
  apply (List.append_inj' same _).1
  rw [checksum, checksum]

/-- Every character of an encoding is a digit of the alphabet. -/
theorem underscore_notMem_b58check (payload : Bytes) : '_' ∉ b58check payload := by
  rw [b58check_eq, List.mem_map]
  rintro ⟨digit, inside, underscore⟩
  exact base58Char_ne_underscore digit (Positional.rebase_lt (by decide) inside) underscore

theorem b58check_inj
    (digests : ∀ data, 4 ≤ (sha256 data).length)
    {left right : Bytes}
    (same : b58check left = b58check right) :
    left = right := by
  have decoded : ∀ payload, (b58check payload).map base58Value =
      base58Digits (checksummed payload) := by
    intro payload
    rw [b58check_eq, List.map_map]
    have digits : ∀ digit ∈ base58Digits (checksummed payload),
        (base58Value ∘ base58Char) digit = id digit := by
      intro digit inside
      exact base58Value_base58Char digit (Positional.rebase_lt (by decide) inside)
    rw [List.map_congr_left digits, List.map_id]
  apply checksummed_inj digests
  apply base58Digits_injective
  rw [← decoded, same, decoded]

/-- The recipients that are operations. -/
def reservedRecipients : List Str :=
  [STAKE_SENTINEL, UNSTAKE_SENTINEL, SLASH_SENTINEL, VOTE_SENTINEL]

omit [Primitives] in
theorem underscore_mem_reserved : ∀ reserved ∈ reservedRecipients, '_' ∈ reserved := by decide

/-- What the encoding of addresses has to do. -/
structure AddressEncoding : Prop where
  /-- The loops end after finitely many turns, and with the encoding. -/
  terminates : ∀ payload, ∃ turns, ∀ fuel, turns ≤ fuel →
    b58checkLoop fuel payload = some (b58check payload)
  injective : ∀ left right, b58check left = b58check right → left = right
  unreserved : ∀ payload, b58check payload ∉ reservedRecipients
  /-- An address belongs to one key hash, and it is no operation. -/
  addresses : ∀ key other, addressFromPublicKey key = addressFromPublicKey other →
    (sha256 key).take 20 = (sha256 other).take 20
  payments : ∀ key, addressFromPublicKey key ∉ reservedRecipients

/-- Addresses name key hashes and nothing else. -/
theorem address_encoding
    (digests : ∀ data, 4 ≤ (sha256 data).length) :
    AddressEncoding := by
  have unreserved : ∀ payload, b58check payload ∉ reservedRecipients := by
    intro payload inside
    exact underscore_notMem_b58check payload (underscore_mem_reserved _ inside)
  refine ⟨?_, ?_, unreserved, ?_, fun key => unreserved _⟩
  · intro payload
    exact ⟨intFromBytes (checksummed payload), fun fuel enough => b58checkLoop_eq enough⟩
  · intro left right same
    exact b58check_inj digests same
  · intro key other same
    exact List.cons.inj (b58check_inj digests same) |>.2

end

namespace AddressSample

attribute [local instance] Symbolic.primitives

theorem address_encoding_symbolic : AddressEncoding := address_encoding fun _ => le_rfl

end AddressSample

end Mindees
