import Mindees.Core.Block

/-!
# Executable primitives

An instance of the primitives to run the model on: a short checksum in place of
the hash function, signatures that only the owner's key produces, and a reader
for the JSON that votes and evidence are written in.
-/

namespace Mindees
namespace Symbolic

/-- A rolling checksum. -/
def checksum (data : Bytes) : Nat :=
  data.foldl (fun sum byte => (sum * 263 + byte.toNat + 1) % 4294967291) 5381

/-- Four bytes of checksum. -/
def digest (data : Bytes) : Bytes :=
  let sum := checksum data
  [UInt8.ofNat (sum / 16777216), UInt8.ofNat (sum / 65536 % 256),
    UInt8.ofNat (sum / 256 % 256), UInt8.ofNat (sum % 256)]

/-- The signature of a key on a message. -/
def signature (publicKey message : Bytes) : Bytes := digest (publicKey ++ message)

/-! ## Reading JSON -/

/-- A run of decimal digits. -/
def readDigits : Nat → Str → Nat × Str
  | value, [] => (value, [])
  | value, char :: rest =>
      if 48 ≤ char.toNat ∧ char.toNat ≤ 57 then
        readDigits (10 * value + (char.toNat - 48)) rest
      else (value, char :: rest)

/-- The rest of a string literal without escapes. -/
def readString : Str → Option (Str × Str)
  | [] => none
  | char :: rest =>
      if char = '"' then some ([], rest)
      else if char = '\\' then none
      else (readString rest).map fun (body, after) => (char :: body, after)

mutual

/-- One JSON value in compact form. -/
def readValue : (fuel : Nat) → Str → Option (Json × Str)
  | 0, _ => none
  | _ + 1, [] => none
  | fuel + 1, char :: rest =>
      if char = '"' then (readString rest).map fun (body, after) => (.str body, after)
      else if char = '{' then
        (readFields fuel rest).map fun (fields, after) => (.obj fields, after)
      else if char = '[' then
        (readItems fuel rest).map fun (items, after) => (.arr items, after)
      else if 48 ≤ char.toNat ∧ char.toNat ≤ 57 then
        let (value, after) := readDigits 0 (char :: rest)
        some (.int value, after)
      else none

/-- The members of an object, after its opening brace or a comma. -/
def readFields : (fuel : Nat) → Str → Option (List (Str × Json) × Str)
  | 0, _ => none
  | fuel + 1, input =>
      match input with
      | '}' :: after => some ([], after)
      | ',' :: after => readFields fuel after
      | '"' :: after =>
          match readString after with
          | some (key, ':' :: afterKey) =>
              match readValue fuel afterKey with
              | some (value, afterValue) =>
                  (readFields fuel afterValue).map fun (fields, rest) =>
                    ((key, value) :: fields, rest)
              | none => none
          | _ => none
      | _ => none

/-- The items of a list, after its opening bracket or a comma. -/
def readItems : (fuel : Nat) → Str → Option (List Json × Str)
  | 0, _ => none
  | fuel + 1, input =>
      match input with
      | ']' :: after => some ([], after)
      | ',' :: after => readItems fuel after
      | _ =>
          match readValue fuel input with
          | some (value, afterValue) =>
              (readItems fuel afterValue).map fun (items, rest) => (value :: items, rest)
          | none => none

end

/-- Read a whole text as one JSON value. -/
def jsonLoads (input : Str) : Option Json :=
  match readValue input.length input with
  | some (value, []) => some value
  | _ => none

/-- The executable primitives. -/
@[reducible] def primitives : Primitives where
  sha256 := digest
  decodeDss signature := if signature = [] then none else some (1, 1)
  encodeDss r s := [UInt8.ofNat r.toNat, UInt8.ofNat s.toNat]
  ecdsaVerify publicKey signed message := decide (signed = signature publicKey message)
  jsonLoads := jsonLoads
  floatText _ := []
  nesting := 100

/-- The key pair with a given number. -/
def wallet (number : UInt8) : Wallet where
  publicKeyBytes := [number]
  privSign _ message := signature [number] message

section

attribute [local instance] primitives

theorem decodeDss_signature (publicKey message : Bytes) :
    Primitives.decodeDss (signature publicKey message) = some (1, 1) := by
  have nonempty : signature publicKey message ≠ [] := List.cons_ne_nil _ _
  exact if_neg nonempty

theorem wallet_sign (number : UInt8) (randomness : Nat) (message : Bytes) :
    (wallet number).sign randomness message = signature [number] message := by
  have low : ¬HALF_N < 1 := by decide
  have drawn : (wallet number).privSign randomness message = signature [number] message := rfl
  simp only [Wallet.sign, drawn, decodeDss_signature, if_neg low]

/-- The library's promises hold for these key pairs. -/
theorem wallet_sound (number : UInt8) : (wallet number).Sound := by
  constructor
  · exact List.cons_ne_nil _ _
  · intro randomness message
    rw [wallet_sign]
    exact List.cons_ne_nil _ _
  · intro randomness message
    have canonical : (1 : Int) ≤ 1 ∧ (1 : Int) < SECP256K1_N ∧ (1 : Int) ≤ 1 ∧ (1 : Int) ≤ HALF_N := by
      decide
    have verified : Primitives.ecdsaVerify (wallet number).publicKeyBytes
        (signature [number] message) message = true := decide_eq_true rfl
    simp only [verifySignature, wallet_sign, decodeDss_signature, if_pos canonical, verified]

end

end Symbolic
end Mindees
