import Mindees.Consensus.Genesis
import Mindees.Core.Untyped

/-!
# Validation of blocks with fields of any JSON kind

The path from a JSON value off the wire to a committed block, with every
operation that the type of a field can make fail.  Where the checks before have
settled the types, it goes on with the functions of the typed chain.
-/

namespace Mindees

open Library

namespace Untyped

/-- What was punished.  The height of a double-signed block is whatever both
blocks hold as their index. -/
inductive Offense
  | block (offender : Str) (height : Json.HashKey)
  | vote (offenseId : Str)
  deriving DecidableEq

/-- An offense of the typed chain. -/
def Offense.ofTyped : Mindees.Offense → Offense
  | .block offender height => .block offender (.number (.finite height))
  | .vote offenseId => .vote offenseId

/-- Everything that applying a block reads and writes.  A recipient that is no
text is a key of the same dictionaries, kept apart here from the addresses. -/
structure State where
  /-- All but the offenses, which the ledger's own field does not hold. -/
  ledger : LedgerState
  otherBalances : Dict Json.HashKey Int
  otherNonces : Dict Json.HashKey Int
  slashed : Finset Offense

/-- The state of a chain on which every recipient is an address. -/
def State.ofTyped (state : LedgerState) : State where
  ledger := { state with slashed := ∅ }
  otherBalances := Dict.empty
  otherNonces := Dict.empty
  slashed := state.slashed.image Offense.ofTyped

/-- All coins, those of recipients that are no text included. -/
def State.totalSupply (state : State) : Int :=
  state.ledger.totalSupply + state.otherBalances.sumBy fun _ amount => amount

variable [Primitives]

/-! ## Evidence -/

/-- Parse attacker-controlled hexadecimal. -/
def hexBytes (value : Json) : Except Error Bytes :=
  match value with
  | .str text => Mindees.hexBytes text
  | _ => .error (.validation "malformed hex field")

/-- Two finality votes prove a slashable fault. -/
def verifyVoteFault (txA txB : Transaction) : Except Error (Str × Str) := do
  let validA ← txA.isValid
  let a ← require validA (.validation "vote-fault: a vote tx is invalid")
  let validB ← txB.isValid
  let b ← require validB (.validation "vote-fault: a vote tx is invalid")
  rejectIf (a.recipient.eq (.str VOTE_SENTINEL) = false ∨
    b.recipient.eq (.str VOTE_SENTINEL) = false) "vote-fault: not finality votes"
  rejectIf (a.sender ≠ b.sender) "vote-fault: votes are from different voters"
  let fieldsA ← loadJson a.evidence
  let fieldsB ← loadJson b.evidence
  let linkA ← rawLink "vote-fault: link" fieldsA
  let linkB ← rawLink "vote-fault: link" fieldsB
  let double := isDoubleVote linkA linkB
  let surround ← isSurroundVote linkA linkB
  rejectIf (double = false ∧ surround = false)
    "vote-fault: votes are neither a double nor a surround"
  pure (a.sender, hex (sha256 (canonical (.arr (sortedPair txA.txid txB.txid)))))

/-- A block carries its validator's signature; returns the validator. -/
def selfAuthenticating (block : Block) : Except Error Str := do
  rejectIf (block.proposerPubkey.truthy = false ∨ block.validatorSig.truthy = false)
    "evidence: block is not self-authenticating"
  let publicKey ← hexBytes block.proposerPubkey
  let validator := addressFromPublicKey publicKey
  rejectIf (block.validator.eq (.str validator) = false)
    "evidence: proposer pubkey does not match validator"
  let message ← require (fromHex block.hash) .valueError
  let signature ← hexBytes block.validatorSig
  rejectIf (verifySignature publicKey message signature = false)
    "evidence: invalid validator signature"
  pure validator

/-- Two blocks prove equivocation; returns the offender and the height. -/
def verifyEquivocation (b1 b2 : Block) : Except Error (Str × Json) := do
  rejectIf (b1.index.eq b2.index = false) "evidence: blocks are at different heights"
  rejectIf (b1.previousHash.eq b2.previousHash = false)
    "evidence: blocks have different parents (not equivocation)"
  rejectIf (b1.validator.eq b2.validator = false) "evidence: blocks have different validators"
  rejectIf (b1.hash = b2.hash) "evidence: the two blocks are identical"
  let offender ← selfAuthenticating b1
  let _ ← selfAuthenticating b2
  pure (offender, b1.index)

/-- Who the evidence of a slash convicts, and of what. -/
def slashOffense (evidence : Str) : Except Error (Str × Offense) := do
  let data ← loadJson evidence
  let isVote := ((Json.field data Key.kind).getD .null).eq (.str Key.vote)
  let a ← require (Json.field data Key.a) .keyError
  if isVote then
    let voteA ← decodeTx a
    let b ← require (Json.field data Key.b) .keyError
    let voteB ← decodeTx b
    let (offender, offenseId) ← verifyVoteFault voteA voteB
    pure (offender, .vote offenseId)
  else
    let blockA ← decodeBlock a
    let b ← require (Json.field data Key.b) .keyError
    let blockB ← decodeBlock b
    let (offender, index) ← verifyEquivocation blockA blockB
    -- the height is hashed when the offense is looked up
    let height ← require index.hashKey .typeError
    pure (offender, .block offender height)

/-! ## Transactions

Of its block, a transaction reads the height and the proposer, which the
proposer check has found to be an integer and an address. -/

/-- A slash. -/
def applySlash (config : Config) (block : Mindees.Block) (state : State) (tx : Checked) :
    Except Error State := do
  rejectIf (tx.evidence = []) "slash tx carries no evidence"
  let treasury ← require config.treasuryAddress
    (.validation "chain has no treasury address for slashing")
  let (offender, offense) ← slashOffense tx.evidence
  rejectIf (offense ∈ state.slashed) "offense already slashed"
  rejectIf (state.ledger.balances.getD tx.sender 0 < tx.fee)
    s!"insufficient funds for slash fee for {text tx.sender}"
  let paid ← payFee block state.ledger (tx.named SLASH_SENTINEL)
  let taken := confiscate paid offender
  let balances :=
    redistribute treasury tx.sender offender (paid.bondedOf offender) taken.balances
  pure { state with
    ledger := { taken with balances }
    slashed := insert offense state.slashed }

/-- A payment to a recipient that is no text. -/
def applyPayment (block : Mindees.Block) (state : State) (tx : Checked) :
    Except Error State := do
  let ledger := state.ledger
  let cost := tx.amount + tx.fee
  rejectIf (ledger.balances.getD tx.sender 0 < cost) s!"insufficient funds for {text tx.sender}"
  let recipient ← require tx.recipient.hashKey .typeError
  let received := state.otherBalances.getD recipient 0 + tx.amount
  pure { state with
    ledger :=
      { ledger with
        balances := credit (credit ledger.balances tx.sender (-cost)) block.validator tx.fee
        nonces := ledger.nonces.set tx.sender (tx.nonce + 1) }
    otherBalances := state.otherBalances.set recipient received
    otherNonces := state.otherNonces.setDefault recipient 0 }

/-- Apply one transaction, by the kind its recipient names. -/
def applyTx
    (config : Config)
    (block : Mindees.Block)
    (justifiedParent : Finset Str)
    (state : State)
    (tx : Checked) : Except Error State :=
  match tx.recipient with
  | .str recipient =>
      if recipient = SLASH_SENTINEL then applySlash config block state tx
      else do
        let ledger ← Mindees.applyTx config block justifiedParent state.ledger (tx.named recipient)
        pure { state with ledger }
  | _ => do
      let after ← applyPayment block state tx
      enforceVesting config tx.sender block.index after.ledger
      pure after

/-- The checks every transaction of a block passes first, and its effect. -/
def applyNext
    (config : Config)
    (block : Mindees.Block)
    (justifiedParent : Finset Str)
    (progress : List Str × State)
    (tx : Transaction) : Except Error (List Str × State) := do
  let (seen, state) := progress
  rejectIf (tx.txid ∈ seen) "duplicate transaction in block"
  let valid ← tx.isValid
  let checked ← require valid
    (.validation s!"invalid signature/shape for tx {text tx.txid}")
  let expected := state.ledger.nonces.getD checked.sender 0
  rejectIf (expected ≠ checked.nonce)
    s!"bad nonce for {text checked.sender}: expected {expected}, got {checked.nonce}"
  let after ← applyTx config block justifiedParent state checked
  pure (tx.txid :: seen, after)

/-! ## Blocks -/

/-- The proposer is the elected one and sealed the block.  Returns what the
transactions read of the block. -/
def checkProposer (stakes : Dict Str Int) (block : Block) : Except Error Mindees.Block := do
  let decoded ← block.previousHash.fromHex
  let parent ← require decoded .valueError
  let index ← require block.index.integer .attributeError
  let height ← toBytes8 index
  let expected ← electValidator stakes (sha256 (parent ++ height))
  rejectIf (block.validator.eq (.str expected) = false)
    s!"wrong proposer: expected {text expected}, got {text (canonicalText block.validator)}"
  rejectIf (block.proposerPubkey.truthy = false ∨ block.validatorSig.truthy = false)
    "missing validator block signature"
  let publicKey ← hexBytes block.proposerPubkey
  rejectIf (block.validator.eq (.str (addressFromPublicKey publicKey)) = false)
    "proposer pubkey does not match validator address"
  let message ← require (fromHex block.hash) .valueError
  let signature ← hexBytes block.validatorSig
  rejectIf (verifySignature publicKey message signature = false)
    "invalid validator block signature"
  pure { index, previousHash := [], timestamp := 0, transactions := [], validator := expected }

/-- Build a block and have the proposer sign its hash. -/
def sealBlock
    (previousHash : Str)
    (index : Int)
    (wallet : Wallet)
    (transactions : List Transaction)
    (timestamp nonce : Int)
    (randomness : Nat) : Except Error Block := do
  let block := Block.postInit
    { index := .int index, previousHash := .str previousHash, timestamp := .int timestamp,
      transactions, validator := .str wallet.address, nonce := .int nonce, merkleRoot := .str [],
      proposerPubkey := .str [], validatorSig := .str [] }
  let message ← require (fromHex block.hash) .valueError
  pure { block with
    proposerPubkey := .str wallet.publicKeyHex
    validatorSig := .str (hex (wallet.sign randomness message)) }

/-- The hook that runs once before the transactions of a block. -/
def applyBlockPre (config : Config) (hash : Str) (height : Int) (state : State) : State :=
  let ledger := matureUnbonding height state.ledger
  { state with
    ledger :=
      if height % config.epoch = 0 then
        { ledger with
          ffgStake := ledger.ffgStake.set hash ledger.stakes
          ffgHeight := ledger.ffgHeight.set hash height }
      else ledger }

/-- A chain with its current state. -/
structure Chain where
  config : Config
  state : State
  /-- The blocks, genesis first. -/
  chain : List Block
  /-- The genesis block is always there. -/
  nonempty : chain ≠ []

namespace Chain

/-- A chain of blocks whose fields have the declared types. -/
def ofTyped (chain : ProofOfStakeChain) : Chain where
  config := chain.config
  state := .ofTyped chain.state
  chain := chain.chain.map .ofTyped
  nonempty := by simp [chain.nonempty]

/-- The newest block. -/
def head (chain : Chain) : Block := chain.chain.getLast chain.nonempty

/-- The index that the next block has; `none` if the head's is no integer. -/
def nextIndex (chain : Chain) : Option Int := chain.head.index.integer.map (· + 1)

/-- The address that is allowed to produce the next block. -/
def nextValidator (chain : Chain) : Except Error Str := do
  let next ← require chain.nextIndex .typeError
  elect chain.state.ledger.stakes chain.head.hash next

/-- Every check of a block except the supply check, and the state it leads to. -/
def applyChecked (chain : Chain) (block : Block) : Except Error State := do
  rejectIf (block.previousHash.eq (.str chain.head.hash) = false) "previous_hash mismatch"
  let next ← require chain.nextIndex .typeError
  rejectIf (block.index.eq (.int next) = false) "non-sequential block index"
  rejectIf
    (block.merkleRoot.eq (.str (merkleRoot (block.transactions.map Transaction.txid))) = false)
    "merkle root mismatch"
  let sealedBlock ← checkProposer chain.state.ledger.stakes block
  let (_, after) ← block.transactions.foldlM
    (applyNext chain.config sealedBlock chain.state.ledger.justified)
    ([], applyBlockPre chain.config block.hash sealedBlock.index chain.state)
  pure after

/-- Validate and append a block. -/
def submitBlock (chain : Chain) (block : Block) : Except Error Chain := do
  let state ← chain.applyChecked block
  rejectIf (state.totalSupply ≠ MAX_SUPPLY_UNITS) "supply conservation violated"
  pure { chain with state, chain := chain.chain ++ [block], nonempty := by simp }

/-- `submit_block(decode_block(data))`. -/
def receive (chain : Chain) (data : Json) : Except Error Chain := do
  let block ← decodeBlock data
  chain.submitBlock block

/-- Chains that the constructor and accepted blocks of any kind lead to. -/
inductive Reachable (args : GenesisArgs) : Chain → Prop
  | genesis {chain : ProofOfStakeChain} :
      ProofOfStakeChain.init args = .ok chain → Reachable args (ofTyped chain)
  | block {before after : Chain} {block : Block} :
      Reachable args before → before.submitBlock block = .ok after → Reachable args after

end Chain

end Untyped

end Mindees
