import Mindees.Core.Transaction

/-!
# Blocks

The Merkle root over transaction identifiers, block headers and their hashes,
and the wire codec of blocks.
-/

namespace Mindees

section

variable [Primitives]

/-- One level of the Merkle tree.  An odd layer has its last node duplicated. -/
def merkleLayer : List Bytes → List Bytes
  | [] => []
  | [last] => [sha256 (last ++ last)]
  | left :: right :: rest => sha256 (left ++ right) :: merkleLayer rest

/-- Climb until one node is left.  Each level halves the layer, so its length
bounds the number of levels. -/
def merkleLoop : (fuel : Nat) → List Bytes → List Bytes
  | 0, layer => layer
  | fuel + 1, layer =>
      if 1 < layer.length then merkleLoop fuel (merkleLayer layer) else layer

/-- The Merkle root of transaction identifiers.  Identifiers are hexadecimal. -/
def merkleRoot (txids : List Str) : Str :=
  if txids = [] then hex (sha256 [])
  else
    let layer := txids.map fun txid => (fromHex txid).getD []
    hex ((merkleLoop layer.length layer).headD [])

end

/-- A block.  The proposer's key and signature are outside the header. -/
structure Block where
  index : Int
  previousHash : Str
  timestamp : Int
  transactions : List Transaction
  /-- The address that produced the block and earns its fees. -/
  validator : Str
  nonce : Int := 0
  merkleRoot : Str := []
  proposerPubkey : Str := []
  validatorSig : Str := []
  deriving DecidableEq

namespace Key

def index : Str := ['i', 'n', 'd', 'e', 'x']
def previousHash : Str := ['p', 'r', 'e', 'v', 'i', 'o', 'u', 's', '_', 'h', 'a', 's', 'h']
def timestamp : Str := ['t', 'i', 'm', 'e', 's', 't', 'a', 'm', 'p']
def transactions : Str := ['t', 'r', 'a', 'n', 's', 'a', 'c', 't', 'i', 'o', 'n', 's']
def validator : Str := ['v', 'a', 'l', 'i', 'd', 'a', 't', 'o', 'r']
def merkleRoot : Str := ['m', 'e', 'r', 'k', 'l', 'e', '_', 'r', 'o', 'o', 't']
def proposerPubkey : Str :=
  ['p', 'r', 'o', 'p', 'o', 's', 'e', 'r', '_', 'p', 'u', 'b', 'k', 'e', 'y']
def validatorSig : Str := ['v', 'a', 'l', 'i', 'd', 'a', 't', 'o', 'r', '_', 's', 'i', 'g']

/-! The wire names, letter by letter, are the names of the source. -/

example :
    sender = "sender".toList ∧ recipient = "recipient".toList ∧
    amount = "amount".toList ∧ fee = "fee".toList ∧ nonce = "nonce".toList ∧
    publicKey = "public_key".toList ∧ signature = "signature".toList ∧
    evidence = "evidence".toList ∧ index = "index".toList ∧
    previousHash = "previous_hash".toList ∧ timestamp = "timestamp".toList ∧
    transactions = "transactions".toList ∧ validator = "validator".toList ∧
    merkleRoot = "merkle_root".toList ∧ proposerPubkey = "proposer_pubkey".toList ∧
    validatorSig = "validator_sig".toList := by
  simp [sender, recipient, amount, fee, nonce, publicKey, signature, evidence, index,
    previousHash, timestamp, transactions, validator, merkleRoot, proposerPubkey,
    validatorSig]

end Key

namespace Block

variable [Primitives]

/-- `__post_init__`: compute the Merkle root when none is given. -/
def postInit (block : Block) : Block :=
  if block.merkleRoot = [] then
    { block with
      merkleRoot := Mindees.merkleRoot (block.transactions.map Transaction.txid) }
  else block

/-- The hashed part of a block. -/
def header (block : Block) : Json :=
  .obj
    [(Key.index, .int block.index), (Key.previousHash, .str block.previousHash),
      (Key.timestamp, .int block.timestamp), (Key.merkleRoot, .str block.merkleRoot),
      (Key.validator, .str block.validator), (Key.nonce, .int block.nonce)]

/-- The block hash. -/
def hash (block : Block) : Str := hex (sha256 (canonical block.header))

/-- The same block without the proposer's seal. -/
def unsealed (block : Block) : Block :=
  { block with proposerPubkey := [], validatorSig := [] }

@[simp] theorem hash_unsealed (block : Block) : block.unsealed.hash = block.hash := rfl

/-- Blocks that differ in the proposer's seal only have the same hash. -/
theorem hash_eq_of_unsealed_eq
    {left right : Block}
    (same : left.unsealed = right.unsealed) :
    left.hash = right.hash := by
  rw [← hash_unsealed left, same, hash_unsealed]

/-- The wire form of a block. -/
def encodeBlock (block : Block) : Json :=
  .obj
    [(Key.index, .int block.index), (Key.previousHash, .str block.previousHash),
      (Key.timestamp, .int block.timestamp),
      (Key.transactions, .arr (block.transactions.map Transaction.encodeTx)),
      (Key.validator, .str block.validator), (Key.nonce, .int block.nonce),
      (Key.merkleRoot, .str block.merkleRoot),
      (Key.proposerPubkey, .str block.proposerPubkey),
      (Key.validatorSig, .str block.validatorSig)]

end Block

/-- `d.get(k, default)` on a string field. -/
def stringFieldD
    (fields : List (Str × Json))
    (key default : Str) : Except Error Str :=
  match Json.field fields key with
  | some (.str value) => .ok value
  | some _ => .error .typeError
  | none => .ok default

/-- `d.get(k, default)` on an integer field. -/
def intFieldD
    (fields : List (Str × Json))
    (key : Str)
    (default : Int) : Except Error Int :=
  match Json.field fields key with
  | some (.int value) => .ok value
  | some _ => .error .typeError
  | none => .ok default

/-- Read a block from its wire form.  This is `decode_block` on fields of the declared
kinds; on the others, which the source keeps as they are, see `Untyped.decodeBlock`. -/
def decodeBlock [Primitives] : Json → Except Error Block
  | .obj fields =>
      match Json.field fields Key.transactions with
      | some (.arr items) => do
          let index ← intField "block" fields Key.index
          let previousHash ← stringField "block" fields Key.previousHash
          let timestamp ← intField "block" fields Key.timestamp
          let transactions ← items.mapM decodeTx
          let validator ← stringField "block" fields Key.validator
          let nonce ← intFieldD fields Key.nonce 0
          let merkleRoot ← stringField "block" fields Key.merkleRoot
          let proposerPubkey ← stringFieldD fields Key.proposerPubkey []
          let validatorSig ← stringFieldD fields Key.validatorSig []
          pure (Block.postInit
            { index, previousHash, timestamp, transactions, validator, nonce, merkleRoot,
              proposerPubkey, validatorSig })
      | _ => .error (.validation "block.transactions must be a list")
  | _ => .error (.validation "block must be an object")

end Mindees
