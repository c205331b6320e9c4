import Mathlib.Algebra.BigOperators.Group.Finset.Basic
import Mathlib.Data.Finset.SDiff
import Mindees.Consensus.Evidence

/-!
# Applying blocks

The effect of a block on the state: maturing coins and the checkpoint snapshot
first, then every transaction in order, then the supply check.  All of it works
on a copy that is committed at the end.
-/

namespace Mindees

open Library

/-! ## Before the transactions -/

/-- Release one entry of a queue, or keep it. -/
def matureEntry
    (height : Int)
    (address : Str)
    (progress : Dict Str Int × List Unbonding)
    (entry : Unbonding) : Dict Str Int × List Unbonding :=
  if entry.releaseHeight ≤ height then (credit progress.1 address entry.amount, progress.2)
  else (progress.1, progress.2 ++ [entry])

/-- Release what has matured in the queue of one address. -/
def matureAddress
    (height : Int)
    (progress : Dict Str Int × Dict Str (List Unbonding))
    (address : Str) : Dict Str Int × Dict Str (List Unbonding) :=
  let (balances, remaining) :=
    (progress.2.getD address []).foldl (matureEntry height address) (progress.1, [])
  (balances,
    if remaining ≠ [] then progress.2.set address remaining
    else progress.2.erase address)

/-- Move unbonding coins whose release height has arrived to the balances. -/
def matureUnbonding (height : Int) (state : LedgerState) : LedgerState :=
  let (balances, unbonding) :=
    state.unbonding.keys.foldl (matureAddress height) (state.balances, state.unbonding)
  { state with balances, unbonding }

section

variable [Primitives]

/-- Record the stakes when the block is a checkpoint. -/
def snapshotCheckpoint (config : Config) (block : Block) (state : LedgerState) : LedgerState :=
  if block.index % config.epoch = 0 then
    { state with
      ffgStake := state.ffgStake.set block.hash state.stakes
      ffgHeight := state.ffgHeight.set block.hash block.index }
  else state

/-- The hook that runs once before the transactions of a block. -/
def applyBlockPre (config : Config) (block : Block) (state : LedgerState) : LedgerState :=
  snapshotCheckpoint config block (matureUnbonding block.index state)

/-! ## Payments, stakes and unstakes -/

/-- A payment. -/
def applyPayment (block : Block) (state : LedgerState) (tx : Transaction) :
    Except Error LedgerState := do
  let cost := tx.amount + tx.fee
  rejectIf (state.balances.getD tx.sender 0 < cost) s!"insufficient funds for {text tx.sender}"
  let balances := credit state.balances tx.sender (-cost)
  let balances := credit balances tx.recipient tx.amount
  let balances := credit balances block.validator tx.fee
  let nonces := state.nonces.set tx.sender (tx.nonce + 1)
  let nonces := nonces.setDefault tx.recipient (nonces.getD tx.recipient 0)
  pure { state with balances, nonces }

/-- Move liquid coins into stake. -/
def applyStake (block : Block) (state : LedgerState) (tx : Transaction) :
    Except Error LedgerState := do
  let cost := tx.amount + tx.fee
  rejectIf (state.balances.getD tx.sender 0 < cost)
    s!"insufficient funds to stake for {text tx.sender}"
  let balances ← addItem state.balances tx.sender (-cost)
  let stakes := credit state.stakes tx.sender tx.amount
  let balances := credit balances block.validator tx.fee
  let nonces := state.nonces.set tx.sender (tx.nonce + 1)
  pure { state with balances, stakes, nonces }

/-- Take an amount out of a stake.  An emptied stake is deleted, unless it is
the last one: that would leave no electable proposer. -/
def withdrawStake (stakes : Dict Str Int) (sender : Str) (amount : Int) :
    Except Error (Dict Str Int) := do
  let stakes ← addItem stakes sender (-amount)
  let emptied := stakes.getD sender 0 = 0
  rejectIf (emptied ∧ stakes.size ≤ 1) "cannot unstake the last active validator"
  pure (if emptied then stakes.erase sender else stakes)

/-- Withdraw stake: into the unbonding queue, or at once when the chain has no
unbonding period. -/
def applyUnstake (config : Config) (block : Block) (state : LedgerState) (tx : Transaction) :
    Except Error LedgerState := do
  rejectIf (state.balances.getD tx.sender 0 < tx.fee)
    s!"insufficient funds for unstake fee for {text tx.sender}"
  rejectIf (state.stakes.getD tx.sender 0 < tx.amount)
    s!"insufficient stake to withdraw for {text tx.sender}"
  let balances ← addItem state.balances tx.sender (-tx.fee)
  let stakes ← withdrawStake state.stakes tx.sender tx.amount
  let delayed := 0 < config.unbondingBlocks
  let queue := state.unbonding.getD tx.sender []
  let entry : Unbonding := ⟨tx.amount, block.index, block.index + config.unbondingBlocks⟩
  let unbonding :=
    if delayed then state.unbonding.set tx.sender (queue ++ [entry]) else state.unbonding
  let balances := if delayed then balances else credit balances tx.sender tx.amount
  let balances := credit balances block.validator tx.fee
  let nonces := state.nonces.set tx.sender (tx.nonce + 1)
  pure { state with balances, stakes, unbonding, nonces }

/-! ## Finality votes -/

/-- The rules of a vote that do not concern its fee. -/
def checkVote
    (config : Config)
    (justifiedParent : Finset Str)
    (state : LedgerState)
    (voter : Str)
    (link : Link) : Except Error Unit := do
  let ⟨s, sh, t, th⟩ := link
  rejectIf (sh % config.epoch ≠ 0 ∨ th % config.epoch ≠ 0 ∨ th ≤ sh)
    "vote: source/target are not ordered epoch boundaries"
  rejectIf (state.ffgStake.contains s = false ∨ state.ffgStake.contains t = false)
    "vote: source/target is not a checkpoint on this branch"
  let sourceHeight ← require (state.ffgHeight.get? s) .keyError
  rejectIf (sourceHeight ≠ sh) "vote: link heights do not match the checkpoints"
  let targetHeight ← require (state.ffgHeight.get? t) .keyError
  rejectIf (targetHeight ≠ th) "vote: link heights do not match the checkpoints"
  rejectIf (s ∉ justifiedParent) "vote: source checkpoint is not justified"
  rejectIf (voter ∈ state.slashedAddrs) "vote: slashed validators cannot vote"
  let snapshot ← require (state.ffgStake.get? s) .keyError
  rejectIf (snapshot.getD voter 0 ≤ 0) "vote: voter has no stake at the source checkpoint"
  rejectIf (state.ffgSeenTarget.getD (voter, th) (s, t) ≠ (s, t))
    "vote: conflicting vote already cast for this target height"

/-- The stake of a snapshot that is not slashed. -/
def activeStake (snapshot : Dict Str Int) (slashedAddrs : Finset Str) : Int :=
  snapshot.sumBy fun address amount => if address ∈ slashedAddrs then 0 else amount

/-- The stake of the voters that are not slashed. -/
def votedStake
    (snapshot : Dict Str Int)
    (voters slashedAddrs : Finset Str) : Int :=
  (voters \ slashedAddrs).sum fun voter => snapshot.getD voter 0

/-- The numerator of the supermajority threshold. -/
def FFG_NUM : Int := 2

/-- The denominator of the supermajority threshold. -/
def FFG_DEN : Int := 3

/-- At least two thirds of a positive total. -/
def isSupermajority (voted total : Int) : Bool :=
  0 < total && FFG_NUM * total ≤ FFG_DEN * voted

/-- Record a vote. -/
def recordVote (state : LedgerState) (voter : Str) (link : Link) : LedgerState :=
  let edge := (link.source, link.target)
  { state with
    ffgVotes := state.ffgVotes.set edge (insert voter (state.ffgVotes.getD edge ∅))
    ffgSeenTarget := state.ffgSeenTarget.set (voter, link.targetHeight) edge }

/-- Justify the target of a link that has a supermajority, and finalize the
source when the target is its direct epoch child. -/
def tallyLink (config : Config) (state : LedgerState) (link : Link) : LedgerState :=
  let snapshot := state.ffgStake.getD link.source Dict.empty
  let voters := state.ffgVotes.getD (link.source, link.target) ∅
  if isSupermajority (votedStake snapshot voters state.slashedAddrs)
      (activeStake snapshot state.slashedAddrs) then
    { state with
      justified := insert link.target state.justified
      finalized :=
        if link.targetHeight = link.sourceHeight + config.epoch ∧
            state.finalized.2 < link.sourceHeight then
          (link.source, link.sourceHeight)
        else state.finalized }
  else state

/-- Take a fee from the sender for the proposer and advance the nonce. -/
def payFee (block : Block) (state : LedgerState) (tx : Transaction) :
    Except Error LedgerState := do
  let balances ← addItem state.balances tx.sender (-tx.fee)
  let balances := credit balances block.validator tx.fee
  pure { state with balances, nonces := state.nonces.set tx.sender (tx.nonce + 1) }

/-- A finality vote. -/
def applyVote
    (config : Config)
    (block : Block)
    (justifiedParent : Finset Str)
    (state : LedgerState)
    (tx : Transaction) : Except Error LedgerState := do
  let link ← voteLink tx.evidence
  checkVote config justifiedParent state tx.sender link
  rejectIf (state.balances.getD tx.sender 0 < tx.fee)
    s!"vote: insufficient funds for fee for {text tx.sender}"
  let paid ← payFee block state tx
  pure (tallyLink config (recordVote paid tx.sender link) link)

/-! ## Slashing -/

/-- The reporter's share of a confiscated amount, in basis points. -/
def REPORTER_BPS : Int := 500

/-- Take everything an offender has bonded. -/
def confiscate (state : LedgerState) (offender : Str) : LedgerState :=
  { state with
    stakes := state.stakes.erase offender
    unbonding := state.unbonding.erase offender
    slashedAddrs := insert offender state.slashedAddrs }

/-- Share a confiscated amount between reporter and treasury.  An offender who
reports itself gets nothing. -/
def redistribute
    (treasury reporter offender : Str)
    (bonded : Int)
    (balances : Dict Str Int) : Dict Str Int :=
  let reporterShare := bonded * REPORTER_BPS / 10000
  let treasuryShare := bonded - reporterShare
  let beneficiary := if reporter ≠ offender then reporter else treasury
  credit (credit balances beneficiary reporterShare) treasury treasuryShare

/-- A slash. -/
def applySlash (config : Config) (block : Block) (state : LedgerState) (tx : Transaction) :
    Except Error LedgerState := do
  rejectIf (tx.evidence = []) "slash tx carries no evidence"
  let treasury ← require config.treasuryAddress
    (.validation "chain has no treasury address for slashing")
  let (offender, offense) ← slashOffense tx.evidence
  rejectIf (offense ∈ state.slashed) "offense already slashed"
  rejectIf (state.balances.getD tx.sender 0 < tx.fee)
    s!"insufficient funds for slash fee for {text tx.sender}"
  let paid ← payFee block state tx
  let taken := confiscate paid offender
  let balances :=
    redistribute treasury tx.sender offender (paid.bondedOf offender) taken.balances
  pure { taken with balances, slashed := insert offense taken.slashed }

/-! ## The vesting rule -/

/-- The sender of a transaction keeps what is still locked. -/
def enforceVesting (config : Config) (address : Str) (height : Int) (state : LedgerState) :
    Except Error Unit :=
  match config.vesting.get? address with
  | none => .ok ()
  | some grant =>
      let lock := grant.lockedAt height
      let holding := state.holding address
      rejectIf (0 < lock ∧ holding < lock)
        s!"vesting: {text address} must retain >= {lock} units until vested (would leave {holding})"

/-! ## Whole blocks -/

/-- Apply one transaction, by the kind its recipient names. -/
def applyTx
    (config : Config)
    (block : Block)
    (justifiedParent : Finset Str)
    (state : LedgerState)
    (tx : Transaction) : Except Error LedgerState :=
  if tx.recipient = STAKE_SENTINEL then do
    let after ← applyStake block state tx
    enforceVesting config tx.sender block.index after
    pure after
  else if tx.recipient = UNSTAKE_SENTINEL then do
    let after ← applyUnstake config block state tx
    enforceVesting config tx.sender block.index after
    pure after
  else if tx.recipient = SLASH_SENTINEL then applySlash config block state tx
  else if tx.recipient = VOTE_SENTINEL then applyVote config block justifiedParent state tx
  else do
    let after ← applyPayment block state tx
    enforceVesting config tx.sender block.index after
    pure after

/-- The checks every transaction of a block passes first, and its effect.  The
progress holds the identifiers seen so far and the working state. -/
def applyNext
    (config : Config)
    (block : Block)
    (justifiedParent : Finset Str)
    (progress : List Str × LedgerState)
    (tx : Transaction) : Except Error (List Str × LedgerState) := do
  let (seen, state) := progress
  rejectIf (tx.txid ∈ seen) "duplicate transaction in block"
  rejectIf (tx.isValid = false) s!"invalid signature/shape for tx {text tx.txid}"
  let expected := state.nonces.getD tx.sender 0
  rejectIf (expected ≠ tx.nonce)
    s!"bad nonce for {text tx.sender}: expected {expected}, got {tx.nonce}"
  let after ← applyTx config block justifiedParent state tx
  pure (tx.txid :: seen, after)

/-- Apply the transactions of a block in order. -/
def applyTxs
    (config : Config)
    (block : Block)
    (justifiedParent : Finset Str)
    (state : LedgerState)
    (transactions : List Transaction) : Except Error LedgerState := do
  let (_, after) ← transactions.foldlM (applyNext config block justifiedParent) ([], state)
  pure after

/-- A block moves money, it never creates or destroys it. -/
def checkSupply (state : LedgerState) : Except Error Unit :=
  rejectIf (state.totalSupply ≠ MAX_SUPPLY_UNITS) "supply conservation violated"

namespace ProofOfStakeChain

/-- Every check of a block except the supply check, and the state it leads to. -/
def applyChecked (chain : ProofOfStakeChain) (block : Block) : Except Error LedgerState := do
  rejectIf (block.previousHash ≠ chain.head.hash) "previous_hash mismatch"
  rejectIf (block.index ≠ chain.head.index + 1) "non-sequential block index"
  rejectIf (block.merkleRoot ≠ merkleRoot (block.transactions.map Transaction.txid))
    "merkle root mismatch"
  checkProposer chain.state.stakes block
  applyTxs chain.config block chain.state.justified
    (applyBlockPre chain.config block chain.state) block.transactions

/-- Validate a block and compute the state to commit. -/
def apply (chain : ProofOfStakeChain) (block : Block) : Except Error LedgerState := do
  let after ← chain.applyChecked block
  checkSupply after
  pure after

/-- Validate and append a block. -/
def submitBlock (chain : ProofOfStakeChain) (block : Block) :
    Except Error ProofOfStakeChain := do
  let state ← chain.apply block
  pure { chain with state, chain := chain.chain ++ [block], nonempty := by simp }

end ProofOfStakeChain

end

end Mindees
