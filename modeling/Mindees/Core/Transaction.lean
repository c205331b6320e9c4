import Mindees.Library.Raise
import Mindees.Core.Primitives

/-!
# Transactions

A transaction is a payment, or an operation named by a reserved recipient.
-/

namespace Mindees

open Library

/-- A signed transaction. -/
structure Transaction where
  sender : Str
  recipient : Str
  amount : Int
  fee : Int
  nonce : Int
  publicKey : Str := []
  signature : Str := []
  /-- The JSON payload of a slash or a finality vote. -/
  evidence : Str := []
  deriving DecidableEq

/-! ## Field names on the wire -/

namespace Key

def sender : Str := ['s', 'e', 'n', 'd', 'e', 'r']
def recipient : Str := ['r', 'e', 'c', 'i', 'p', 'i', 'e', 'n', 't']
def amount : Str := ['a', 'm', 'o', 'u', 'n', 't']
def fee : Str := ['f', 'e', 'e']
def nonce : Str := ['n', 'o', 'n', 'c', 'e']
def publicKey : Str := ['p', 'u', 'b', 'l', 'i', 'c', '_', 'k', 'e', 'y']
def signature : Str := ['s', 'i', 'g', 'n', 'a', 't', 'u', 'r', 'e']
def evidence : Str := ['e', 'v', 'i', 'd', 'e', 'n', 'c', 'e']

end Key

namespace Transaction

variable [Primitives]

/-- The object whose encoding is signed: every field but the signature. -/
def signingPayload (tx : Transaction) : Bytes :=
  canonical (.obj
    [(Key.sender, .str tx.sender), (Key.recipient, .str tx.recipient),
      (Key.amount, .int tx.amount), (Key.fee, .int tx.fee), (Key.nonce, .int tx.nonce),
      (Key.publicKey, .str tx.publicKey), (Key.evidence, .str tx.evidence)])

/-- The wire form of a transaction, and what its identifier hashes. -/
def encodeTx (tx : Transaction) : Json :=
  .obj
    [(Key.sender, .str tx.sender), (Key.recipient, .str tx.recipient),
      (Key.amount, .int tx.amount), (Key.fee, .int tx.fee), (Key.nonce, .int tx.nonce),
      (Key.publicKey, .str tx.publicKey), (Key.signature, .str tx.signature),
      (Key.evidence, .str tx.evidence)]

/-- The transaction identifier. -/
def txid (tx : Transaction) : Str := hex (sha256 (canonical tx.encodeTx))

/-- Fill in the public key and the signature. -/
def sign
    (tx : Transaction)
    (wallet : Wallet)
    (randomness : Nat) : Except Error Transaction := do
  rejectIf (wallet.address ≠ tx.sender) "wallet does not own sender address"
  let keyed := { tx with publicKey := wallet.publicKeyHex }
  pure { keyed with
    signature := hex (wallet.sign randomness keyed.signingPayload) }

/-- Stateless validity: shape, signature, and key bound to the sender. -/
def isValid (tx : Transaction) : Bool :=
  if ¬(isUnits tx.amount ∧ isUnits tx.fee ∧ isUnits tx.nonce) then false
  else if (tx.recipient = SLASH_SENTINEL ∨ tx.recipient = VOTE_SENTINEL) ∧
      (tx.amount ≠ 0 ∨ tx.evidence = []) then false
  else if ¬(tx.recipient = SLASH_SENTINEL ∨ tx.recipient = VOTE_SENTINEL) ∧
      tx.amount ≤ 0 then false
  else if tx.publicKey = [] ∨ tx.signature = [] then false
  else
    match fromHex tx.publicKey, fromHex tx.signature with
    | some publicKey, some signature =>
        if addressFromPublicKey publicKey ≠ tx.sender then false
        else verifySignature publicKey tx.signingPayload signature
    | _, _ => false

/-- A valid transaction carries non-negative integers. -/
theorem isValid.units
    {tx : Transaction}
    (valid : tx.isValid = true) :
    0 ≤ tx.amount ∧ 0 ≤ tx.fee ∧ 0 ≤ tx.nonce := by
  unfold isValid at valid
  split at valid
  · cases valid
  · rename_i units
    simpa using units

/-- Slashes and votes move no amount. -/
theorem isValid.amount_eq_zero
    {tx : Transaction}
    (valid : tx.isValid = true)
    (special : tx.recipient = SLASH_SENTINEL ∨ tx.recipient = VOTE_SENTINEL) :
    tx.amount = 0 ∧ tx.evidence ≠ [] := by
  unfold isValid at valid
  split at valid
  · cases valid
  · split at valid
    · cases valid
    · rename_i _ shape
      simpa [special] using shape

/-- Every other transaction moves a positive amount. -/
theorem isValid.amount_pos
    {tx : Transaction}
    (valid : tx.isValid = true)
    (notSlash : tx.recipient ≠ SLASH_SENTINEL)
    (notVote : tx.recipient ≠ VOTE_SENTINEL) :
    0 < tx.amount := by
  unfold isValid at valid
  split at valid
  · cases valid
  · split at valid
    · cases valid
    · split at valid
      · cases valid
      · rename_i _ _ positive
        simpa [notSlash, notVote] using positive

end Transaction

/-- What a sound wallet signs is valid when its units are, and its amount and evidence
fit its recipient. -/
theorem Wallet.Sound.isValid_sign
    [Primitives]
    {wallet : Wallet}
    {tx signed : Transaction}
    {randomness : Nat}
    (sound : wallet.Sound)
    (units : 0 ≤ tx.amount ∧ 0 ≤ tx.fee ∧ 0 ≤ tx.nonce)
    (special : tx.recipient = SLASH_SENTINEL ∨ tx.recipient = VOTE_SENTINEL →
      tx.amount = 0 ∧ tx.evidence ≠ [])
    (ordinary : ¬(tx.recipient = SLASH_SENTINEL ∨ tx.recipient = VOTE_SENTINEL) → 0 < tx.amount)
    (ran : tx.sign wallet randomness = .ok signed) :
    signed.isValid = true := by
  simp only [Transaction.sign, rejectIf, bind_eq_ok, raiseIf_eq_ok, pure_eq_ok, exists_unit,
    ne_eq, not_not] at ran
  obtain ⟨owner, rfl⟩ := ran
  have readKey : fromHex wallet.publicKeyHex = some wallet.publicKeyBytes := fromHex_hex _
  have address : addressFromPublicKey wallet.publicKeyBytes = tx.sender := owner
  have isUnit : ¬¬(isUnits tx.amount = true ∧ isUnits tx.fee = true ∧ isUnits tx.nonce = true) := by
    simpa using units
  have filled : ¬((tx.recipient = SLASH_SENTINEL ∨ tx.recipient = VOTE_SENTINEL) ∧
      (tx.amount ≠ 0 ∨ tx.evidence = [])) := by
    rintro ⟨named, bad⟩
    obtain ⟨zero, present⟩ := special named
    exact bad.elim (· zero) present
  have moved : ¬(¬(tx.recipient = SLASH_SENTINEL ∨ tx.recipient = VOTE_SENTINEL) ∧
      tx.amount ≤ 0) := by
    rintro ⟨unnamed, none⟩
    exact absurd none (not_le.mpr (ordinary unnamed))
  have present : ∀ message,
      ¬(wallet.publicKeyHex = [] ∨ hex (wallet.sign randomness message) = []) := by
    intro message
    exact not_or.mpr
      ⟨hex_ne_nil sound.publicKey_ne_nil, hex_ne_nil (sound.sign_ne_nil randomness message)⟩
  simp only [Transaction.isValid, if_neg isUnit, if_neg filled, if_neg moved,
    if_neg (present _), readKey, fromHex_hex, address, ne_eq, not_true, if_false]
  exact sound.verifies _ _

/-! ## Decoding -/

/-- The `ValidationError` for an object without a required field. -/
def malformed (what : String) (key : Str) : Error :=
  .validation s!"malformed {what}: '{text key}'"

/-- A string field of an object.  The dataclasses declare such fields strings, and
other kinds are left to the untyped model. -/
def stringField
    (what : String)
    (fields : List (Str × Json))
    (key : Str) : Except Error Str :=
  match Json.field fields key with
  | some (.str value) => .ok value
  | some _ => .error .typeError
  | none => .error (malformed what key)

/-- An integer field of an object. -/
def intField
    (what : String)
    (fields : List (Str × Json))
    (key : Str) : Except Error Int :=
  match Json.field fields key with
  | some (.int value) => .ok value
  | some _ => .error .typeError
  | none => .error (malformed what key)

/-- Read a transaction from its wire form.  This is `decode_tx` on fields of the declared
kinds; on the others, which the source keeps as they are, see `Untyped.decodeTx`. -/
def decodeTx : Json → Except Error Transaction
  | .obj fields => do
      let sender ← stringField "transaction" fields Key.sender
      let recipient ← stringField "transaction" fields Key.recipient
      let amount ← intField "transaction" fields Key.amount
      let fee ← intField "transaction" fields Key.fee
      let nonce ← intField "transaction" fields Key.nonce
      let publicKey ← stringField "transaction" fields Key.publicKey
      let signature ← stringField "transaction" fields Key.signature
      let evidence ← stringField "transaction" fields Key.evidence
      pure { sender, recipient, amount, fee, nonce, publicKey, signature, evidence }
  | _ => .error (.validation "transaction must be an object")

end Mindees
