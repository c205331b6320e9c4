import Mathlib.Tactic.Simps.Basic
import Mindees.Core.Block

/-!
# Objects with fields of any JSON kind

The constructors of a transaction and of a block check no annotation, so what
the wire codec builds holds whatever JSON values the sender chose.  Only the
checks of a transaction's shape settle the kinds of some of its fields.
-/

namespace Mindees

namespace Json

/-- `bool(value)`. -/
def truthy : Json → Bool
  | null => false
  | bool value => value
  | int value => value ≠ 0
  | float value => value.compared ≠ .finite 0
  | str value => value ≠ []
  | arr items => !items.isEmpty
  | obj fields => !fields.isEmpty

/-- The amount of a value that passes `is_units`. -/
def units : Json → Option Int
  | int value => if isUnits value then some value else none
  | _ => none

/-- A value of type `int`, of which `bool` is a subtype. -/
def integer : Json → Option Int
  | bool value => some (if value then 1 else 0)
  | int value => some value
  | _ => none

/-- What a value is under as a dictionary key: equal numbers are one key. -/
inductive HashKey
  | none
  | number (value : PyFloat)
  | str (value : Str)
  deriving DecidableEq

/-- The key of a value; lists and objects are unhashable. -/
def hashKey : Json → Option HashKey
  | null => some .none
  | str value => some (.str value)
  | value => value.number.map .number

/-- `bytes.fromhex`: a `TypeError` on anything but a text, and `none` for the
`ValueError` on a text that is not hexadecimal. -/
def fromHex : Json → Except Error (Option Bytes)
  | str value => .ok (Mindees.fromHex value)
  | _ => .error .typeError

theorem eq_str_iff
    (value : Json)
    (text : Str) :
    value.eq (str text) = true ↔ value = str text := by
  cases value <;> simp [eq, number]

theorem eq_int_iff
    (value : Json)
    (number : Int) :
    value.eq (int number) = true ↔
      value.integer = some number ∨
        ∃ held : PyFloat, value = float held ∧ held.compared = .finite number := by
  cases value with
  | bool value => cases value <;> simp [eq, integer, eq_comm]
  | float value =>
      cases value <;> simp [eq, integer, Json.number, numberEq, PyFloat.compared, eq_comm]
  | _ => simp [eq, integer]

end Json

namespace Untyped

/-- A transaction as the wire codec builds it. -/
structure Transaction where
  sender : Json
  recipient : Json
  amount : Json
  fee : Json
  nonce : Json
  publicKey : Json
  signature : Json
  evidence : Json

/-- A transaction whose fields have the declared types. -/
@[simps] def Transaction.ofTyped (tx : Mindees.Transaction) : Transaction where
  sender := .str tx.sender
  recipient := .str tx.recipient
  amount := .int tx.amount
  fee := .int tx.fee
  nonce := .int tx.nonce
  publicKey := .str tx.publicKey
  signature := .str tx.signature
  evidence := .str tx.evidence

/-- What a valid transaction is known to hold. -/
structure Checked where
  sender : Str
  recipient : Json
  amount : Int
  fee : Int
  nonce : Int
  evidence : Str

/-- The typed transaction of a checked one whose recipient is a text. -/
def Checked.named (tx : Checked) (recipient : Str) : Mindees.Transaction where
  sender := tx.sender
  recipient := recipient
  amount := tx.amount
  fee := tx.fee
  nonce := tx.nonce
  evidence := tx.evidence

/-- The fields that the checks of a transaction's shape settle. -/
structure Shape where
  amount : Int
  fee : Int
  nonce : Int
  evidence : Str

namespace Transaction

/-- The checks of `is_valid` before it reads the key and the signature. -/
def shape (tx : Transaction) : Option Shape :=
  match tx.amount.units, tx.fee.units, tx.nonce.units with
  | some amount, some fee, some nonce =>
      let special := tx.recipient.eq (.str SLASH_SENTINEL) || tx.recipient.eq (.str VOTE_SENTINEL)
      if special ∧ (amount ≠ 0 ∨ tx.evidence.truthy = false) then none
      else if ¬special ∧ amount ≤ 0 then none
      else
        match tx.evidence with
        | .str evidence =>
            if tx.publicKey.truthy = false ∨ tx.signature.truthy = false then none
            else some { amount, fee, nonce, evidence }
        | _ => none
  | _, _, _ => none

/-- The wire form of a transaction. -/
def encodeTx (tx : Transaction) : Json :=
  .obj
    [(Key.sender, tx.sender), (Key.recipient, tx.recipient), (Key.amount, tx.amount),
      (Key.fee, tx.fee), (Key.nonce, tx.nonce), (Key.publicKey, tx.publicKey),
      (Key.signature, tx.signature), (Key.evidence, tx.evidence)]

section

variable [Primitives]

/-- The bytes a sender signs. -/
def signingPayload (tx : Transaction) : Bytes :=
  canonical (.obj
    [(Key.sender, tx.sender), (Key.recipient, tx.recipient), (Key.amount, tx.amount),
      (Key.fee, tx.fee), (Key.nonce, tx.nonce), (Key.publicKey, tx.publicKey),
      (Key.evidence, tx.evidence)])

/-- The transaction's identifier. -/
def txid (tx : Transaction) : Str :=
  hex (sha256 (canonical (.obj
    [(Key.sender, tx.sender), (Key.recipient, tx.recipient), (Key.amount, tx.amount),
      (Key.fee, tx.fee), (Key.nonce, tx.nonce), (Key.publicKey, tx.publicKey),
      (Key.signature, tx.signature), (Key.evidence, tx.evidence)])))

/-- Stateless validity.  `False` is `none`, and `True` comes with the fields at
the types that the checks settle. -/
def isValid (tx : Transaction) : Except Error (Option Checked) :=
  match tx.shape with
  | none => .ok none
  | some shape => do
      match ← tx.publicKey.fromHex with
      | none => pure none
      | some publicKey =>
          match ← tx.signature.fromHex with
          | none => pure none
          | some signature =>
              let sender := addressFromPublicKey publicKey
              if tx.sender.eq (.str sender) = false then pure none
              else if verifySignature publicKey tx.signingPayload signature then
                pure (some
                  { sender, recipient := tx.recipient, amount := shape.amount, fee := shape.fee,
                    nonce := shape.nonce, evidence := shape.evidence })
              else pure none

end

end Transaction

/-- Read a transaction off the wire. -/
def decodeTx : Json → Except Error Transaction
  | .obj fields => do
      let field := fun key => Library.require (Json.field fields key) (malformed "transaction" key)
      let sender ← field Key.sender
      let recipient ← field Key.recipient
      let amount ← field Key.amount
      let fee ← field Key.fee
      let nonce ← field Key.nonce
      let publicKey ← field Key.publicKey
      let signature ← field Key.signature
      let evidence ← field Key.evidence
      pure { sender, recipient, amount, fee, nonce, publicKey, signature, evidence }
  | _ => .error (.validation "transaction must be an object")

/-- A block as the wire codec builds it. -/
structure Block where
  index : Json
  previousHash : Json
  timestamp : Json
  transactions : List Transaction
  validator : Json
  nonce : Json
  merkleRoot : Json
  proposerPubkey : Json
  validatorSig : Json

/-- A block whose fields have the declared types. -/
@[simps] def Block.ofTyped (block : Mindees.Block) : Block where
  index := .int block.index
  previousHash := .str block.previousHash
  timestamp := .int block.timestamp
  transactions := block.transactions.map Transaction.ofTyped
  validator := .str block.validator
  nonce := .int block.nonce
  merkleRoot := .str block.merkleRoot
  proposerPubkey := .str block.proposerPubkey
  validatorSig := .str block.validatorSig

/-- The wire form of a block. -/
def Block.encodeBlock (block : Block) : Json :=
  .obj
    [(Key.index, block.index), (Key.previousHash, block.previousHash),
      (Key.timestamp, block.timestamp),
      (Key.transactions, .arr (block.transactions.map Transaction.encodeTx)),
      (Key.validator, block.validator), (Key.nonce, block.nonce),
      (Key.merkleRoot, block.merkleRoot), (Key.proposerPubkey, block.proposerPubkey),
      (Key.validatorSig, block.validatorSig)]

variable [Primitives]

namespace Block

/-- `__post_init__`: fill in a missing Merkle root. -/
def postInit (block : Block) : Block :=
  if block.merkleRoot.truthy then block
  else
    { block with
      merkleRoot := .str (Mindees.merkleRoot (block.transactions.map Transaction.txid)) }

/-- The part of a block that is hashed. -/
def header (block : Block) : Json :=
  .obj
    [(Key.index, block.index), (Key.previousHash, block.previousHash),
      (Key.timestamp, block.timestamp), (Key.merkleRoot, block.merkleRoot),
      (Key.validator, block.validator), (Key.nonce, block.nonce)]

/-- The block's identity. -/
def hash (block : Block) : Str := hex (sha256 (canonical block.header))

end Block

/-- Read a block off the wire. -/
def decodeBlock : Json → Except Error Block
  | .obj fields =>
      match Json.field fields Key.transactions with
      | some (.arr items) => do
          let field := fun key => Library.require (Json.field fields key) (malformed "block" key)
          let index ← field Key.index
          let previousHash ← field Key.previousHash
          let timestamp ← field Key.timestamp
          let transactions ← items.mapM decodeTx
          let validator ← field Key.validator
          let nonce := (Json.field fields Key.nonce).getD (.int 0)
          let merkleRoot ← field Key.merkleRoot
          let proposerPubkey := (Json.field fields Key.proposerPubkey).getD (.str [])
          let validatorSig := (Json.field fields Key.validatorSig).getD (.str [])
          pure (Block.postInit
            { index, previousHash, timestamp, transactions, validator, nonce, merkleRoot,
              proposerPubkey, validatorSig })
      | _ => .error (.validation "block.transactions must be a list")
  | _ => .error (.validation "block must be an object")

end Untyped

end Mindees
