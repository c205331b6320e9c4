import Mathlib.Data.Nat.Digits.Defs
import Mindees.Core.Json
import Mindees.Library.Raise

/-!
# Primitives, addresses and wallets

The hash function, the ECDSA library and the JSON reader are parameters of the
development.  Everything built on them, from the Base58Check address to the
low-S signature rule, is spelled out here.
-/

namespace Mindees

/-- The functions the program takes from its libraries. -/
class Primitives where
  /-- `hashlib.sha256(data).digest()`. -/
  sha256 : Bytes → Bytes
  /-- `decode_dss_signature`; `none` stands for its `ValueError`. -/
  decodeDss : Bytes → Option (Int × Int)
  /-- `encode_dss_signature`. -/
  encodeDss : Int → Int → Bytes
  /-- `from_encoded_point(key).verify(signature, message)` returns normally. -/
  ecdsaVerify : (publicKey signature message : Bytes) → Bool
  /-- `json.loads`; `none` stands for its `ValueError`. -/
  jsonLoads : Str → Option Json
  /-- The text `json.dumps` writes for a float. -/
  floatText : PyFloat → Str
  /-- How many nested releases of waiting blocks the interpreter's stack has room for. -/
  nesting : Nat

export Primitives (sha256)

/-- The exceptions that the program raises or lets through. -/
inductive Error
  | validation (message : String)
  | conflictingFinality (message : String)
  | keyError
  | typeError
  | attributeError
  | valueError
  | overflowError
  | indexError
  | recursionError
  /-- The run does not terminate. -/
  | diverges
  deriving DecidableEq

/-- `except ValidationError` catches the exception. -/
def Error.isValidation : Error → Bool
  | .validation _ => true
  | .conflictingFinality _ => true
  | _ => false

/-- Text inside a message. -/
abbrev text (value : Str) : String := String.ofList value

/-- `raise ValidationError(message)` unless a condition fails. -/
abbrev rejectIf (bad : Prop) [Decidable bad] (message : String) : Except Error Unit :=
  Library.raiseIf bad (.validation message)

/-- A valid base-unit amount: non-negative. -/
def isUnits (value : Int) : Bool := 0 ≤ value

@[simp] theorem isUnits_iff (value : Int) : isUnits value = true ↔ 0 ≤ value := by
  simp [isUnits]

/-! ## Monetary constants -/

/-- Base units per coin. -/
def COIN : Int := 10 ^ 8

/-- The hard cap in whole coins. -/
def MAX_SUPPLY : Int := 1000000

/-- The hard cap in base units. -/
def MAX_SUPPLY_UNITS : Int := MAX_SUPPLY * COIN

/-! ## Reserved recipients -/

/-- `"__MINDEES_STAKE__"`. -/
def STAKE_SENTINEL : Str :=
  ['_', '_', 'M', 'I', 'N', 'D', 'E', 'E', 'S', '_', 'S', 'T', 'A', 'K', 'E', '_', '_']

/-- `"__MINDEES_UNSTAKE__"`. -/
def UNSTAKE_SENTINEL : Str :=
  ['_', '_', 'M', 'I', 'N', 'D', 'E', 'E', 'S', '_', 'U', 'N', 'S', 'T', 'A', 'K', 'E',
    '_', '_']

/-- `"__MINDEES_SLASH__"`. -/
def SLASH_SENTINEL : Str :=
  ['_', '_', 'M', 'I', 'N', 'D', 'E', 'E', 'S', '_', 'S', 'L', 'A', 'S', 'H', '_', '_']

/-- `"__MINDEES_VOTE__"`. -/
def VOTE_SENTINEL : Str :=
  ['_', '_', 'M', 'I', 'N', 'D', 'E', 'E', 'S', '_', 'V', 'O', 'T', 'E', '_', '_']

section

variable [Primitives]

/-- Hash twice. -/
def doubleSha256 (data : Bytes) : Bytes := sha256 (sha256 data)

/-- Deterministic JSON encoding, the source of truth for hashing and signing. -/
def canonical (value : Json) : Bytes :=
  encodeAscii (value.dumps Primitives.floatText)

/-- The canonical encoding as text. -/
def canonicalText (value : Json) : Str := value.dumps Primitives.floatText

/-! ## Addresses -/

/-- The Base58 alphabet. -/
def base58Alphabet : Str :=
  ['1', '2', '3', '4', '5', '6', '7', '8', '9', 'A', 'B', 'C', 'D', 'E', 'F', 'G', 'H', 'J',
    'K', 'L', 'M', 'N', 'P', 'Q', 'R', 'S', 'T', 'U', 'V', 'W', 'X', 'Y', 'Z', 'a', 'b', 'c',
    'd', 'e', 'f', 'g', 'h', 'i', 'j', 'k', 'm', 'n', 'o', 'p', 'q', 'r', 's', 't', 'u', 'v',
    'w', 'x', 'y', 'z']

/-- `int.from_bytes(raw, "big")`. -/
def intFromBytes (raw : Bytes) : Nat :=
  raw.foldl (fun value byte => 256 * value + byte.toNat) 0

/-- Base58Check encode, version byte already prepended. -/
def b58check (payload : Bytes) : Str :=
  let raw := payload ++ (doubleSha256 payload).take 4
  let digits := (Nat.digits 58 (intFromBytes raw)).reverse
  -- leading zero bytes are preserved as '1'
  (raw.takeWhile (· = 0)).map (fun _ => '1') ++
    digits.map fun digit => base58Alphabet.getD digit '1'

/-- The address of a public key: its hash behind version byte zero. -/
def addressFromPublicKey (publicKey : Bytes) : Str :=
  b58check (0 :: (sha256 publicKey).take 20)

/-! ## Signatures -/

/-- The order of the secp256k1 group. -/
def SECP256K1_N : Int :=
  0xFFFFFFFFFFFFFFFFFFFFFFFFFFFFFFFEBAAEDCE6AF48A03BBFD25E8CD0364141

/-- The largest `s` of a canonical signature. -/
def HALF_N : Int := SECP256K1_N / 2

/-- Accept a signature only when it verifies and is in low-S form. -/
def verifySignature (publicKey message signature : Bytes) : Bool :=
  match Primitives.decodeDss signature with
  | none => false
  | some (r, s) =>
      if 1 ≤ r ∧ r < SECP256K1_N ∧ 1 ≤ s ∧ s ≤ HALF_N then
        Primitives.ecdsaVerify publicKey signature message
      else false

/-- A key pair.  Signing draws randomness, so the library's signature is a
function of the message and of the randomness it drew. -/
structure Wallet where
  /-- The compressed public key. -/
  publicKeyBytes : Bytes
  /-- The library's `sign`. -/
  privSign : (randomness : Nat) → Bytes → Bytes

namespace Wallet

/-- The public key in hexadecimal. -/
def publicKeyHex (wallet : Wallet) : Str := hex wallet.publicKeyBytes

/-- The address of the public key. -/
def address (wallet : Wallet) : Str := addressFromPublicKey wallet.publicKeyBytes

/-- Sign, and canonicalise to low-S. -/
def sign (wallet : Wallet) (randomness : Nat) (message : Bytes) : Bytes :=
  let signature := wallet.privSign randomness message
  match Primitives.decodeDss signature with
  | some (r, s) =>
      if HALF_N < s then Primitives.encodeDss r (SECP256K1_N - s) else signature
  | none => signature

/-- What the ECDSA library promises for a key pair: its public key and its
signatures are not empty, and its signatures verify. -/
structure Sound (wallet : Wallet) : Prop where
  publicKey_ne_nil : wallet.publicKeyBytes ≠ []
  sign_ne_nil : ∀ randomness message, wallet.sign randomness message ≠ []
  verifies : ∀ randomness message,
    verifySignature wallet.publicKeyBytes message
      (wallet.sign randomness message) = true

end Wallet

end

theorem hex_ne_nil
    {bytes : Bytes}
    (nonempty : bytes ≠ []) :
    hex bytes ≠ [] := by
  cases bytes with
  | nil => exact absurd rfl nonempty
  | cons byte rest => simp [hex]

end Mindees
