import Mindees.Consensus.Effects
import Mindees.Core.Symbolic

/-!
# Producing blocks

The constructors of staking, slashing and payment transactions, the block
production of a chain, and runs in which the elected member of a keyring
produces every block.
-/

namespace Mindees

open Library

section

variable [Primitives]

/-- Build a signed payment. -/
def paymentTx
    (wallet : Wallet)
    (recipient : Str)
    (amount fee nonce : Int)
    (randomness : Nat) : Except Error Transaction :=
  Transaction.sign { sender := wallet.address, recipient, amount, fee, nonce }
    wallet randomness

/-- Build a signed stake transaction. -/
def stakeTx
    (wallet : Wallet)
    (amount fee nonce : Int)
    (randomness : Nat) : Except Error Transaction :=
  paymentTx wallet STAKE_SENTINEL amount fee nonce randomness

/-- Build a signed unstake transaction. -/
def unstakeTx
    (wallet : Wallet)
    (amount fee nonce : Int)
    (randomness : Nat) : Except Error Transaction :=
  paymentTx wallet UNSTAKE_SENTINEL amount fee nonce randomness

/-- Build a signed slash that carries two blocks. -/
def slashTx
    (reporter : Wallet)
    (b1 b2 : Block)
    (nonce fee : Int)
    (randomness : Nat) : Except Error Transaction :=
  Transaction.sign
    { sender := reporter.address, recipient := SLASH_SENTINEL, amount := 0, fee, nonce,
      evidence := canonicalText (.obj
        [(Key.kind, .str Key.block), (Key.a, b1.encodeBlock), (Key.b, b2.encodeBlock)]) }
    reporter randomness

/-- Build a signed slash that carries two votes. -/
def voteSlashTx
    (reporter : Wallet)
    (voteA voteB : Transaction)
    (nonce fee : Int)
    (randomness : Nat) : Except Error Transaction :=
  Transaction.sign
    { sender := reporter.address, recipient := SLASH_SENTINEL, amount := 0, fee, nonce,
      evidence := canonicalText (.obj
        [(Key.kind, .str Key.vote), (Key.a, voteA.encodeTx), (Key.b, voteB.encodeTx)]) }
    reporter randomness

namespace ProofOfStakeChain

/-- Seal a block on the head and submit it. -/
def addBlock
    (chain : ProofOfStakeChain)
    (transactions : List Transaction)
    (validatorWallet : Wallet)
    (timestamp nonce : Int)
    (randomness : Nat) : Except Error ProofOfStakeChain := do
  let block ← sealBlock chain.head.hash (chain.head.index + 1) validatorWallet transactions
    timestamp nonce randomness
  chain.submitBlock block

end ProofOfStakeChain

/-! ## Runs by a keyring -/

/-- What a wallet of a keyring is about to sign, by position in the keyring;
a vote names its checkpoints by height. -/
inductive Draft
  | pay (sender recipient : Nat) (amount fee : Int)
  | stake (sender : Nat) (amount fee : Int)
  | unstake (sender : Nat) (amount fee : Int)
  | vote (sender source target : Nat) (fee : Int)
  | slash (sender : Nat) (voteA voteB : Transaction) (fee : Int)

/-- Sign a draft with the next nonce of its sender. -/
def Draft.sign
    (keyring : List Wallet)
    (chain : ProofOfStakeChain)
    (draft : Draft) : Except Error Transaction := do
  let walletAt := fun position => require keyring[position]? Error.indexError
  let nonceOf := fun (wallet : Wallet) => chain.state.nonces.getD wallet.address 0
  let hashOf := fun position => require (chain.hashAt position) Error.indexError
  match draft with
  | .pay sender recipient amount fee =>
      let wallet ← walletAt sender
      let payee ← walletAt recipient
      paymentTx wallet payee.address amount fee (nonceOf wallet) 0
  | .stake sender amount fee =>
      let wallet ← walletAt sender
      stakeTx wallet amount fee (nonceOf wallet) 0
  | .unstake sender amount fee =>
      let wallet ← walletAt sender
      unstakeTx wallet amount fee (nonceOf wallet) 0
  | .vote sender source target fee =>
      let wallet ← walletAt sender
      let sourceHash ← hashOf source
      let targetHash ← hashOf target
      voteTx wallet ⟨sourceHash, source, targetHash, target⟩ (nonceOf wallet) fee 0
  | .slash sender voteA voteB fee =>
      let wallet ← walletAt sender
      voteSlashTx wallet voteA voteB (nonceOf wallet) fee 0

/-- The elected wallet of the keyring puts the drafts into the next block. -/
def ProofOfStakeChain.addRound
    (keyring : List Wallet)
    (chain : ProofOfStakeChain)
    (drafts : List Draft) : Except Error ProofOfStakeChain := do
  let elected ← chain.nextValidator
  let wallet ← require (keyring.find? fun wallet => wallet.address = elected) .indexError
  let transactions ← drafts.mapM (Draft.sign keyring chain)
  chain.addBlock transactions wallet (chain.head.timestamp + 1) 0 0

/-- One round after the other from genesis. -/
def ProofOfStakeChain.play
    (keyring : List Wallet)
    (args : GenesisArgs)
    (rounds : List (List Draft)) : Except Error ProofOfStakeChain := do
  let start ← init args
  rounds.foldlM (addRound keyring) start

/-- A round submits the block that its result ends with, and that block holds
the signed drafts. -/
theorem ProofOfStakeChain.addRound_submits
    {keyring : List Wallet}
    {chain after : ProofOfStakeChain}
    {drafts : List Draft}
    (ran : addRound keyring chain drafts = .ok after) :
    chain.submitBlock after.head = .ok after ∧
      drafts.mapM (Draft.sign keyring chain) = .ok after.head.transactions := by
  simp only [addRound, addBlock, sealBlock, bind_eq_ok, pure_eq_ok] at ran
  obtain ⟨_, _, wallet, _, transactions, signed, block, ⟨message, _, sealing⟩, submitted⟩ := ran
  have newest : after.head = block := head_submitBlock submitted
  have content : block.transactions = transactions := by
    rw [← sealing]
    simp only [Block.postInit]
    split <;> rfl
  rw [newest, content]
  exact ⟨submitted, signed⟩

/-- Rounds lead to reachable chains. -/
theorem ProofOfStakeChain.play_reachable
    {keyring : List Wallet}
    {args : GenesisArgs}
    {rounds : List (List Draft)}
    {chain : ProofOfStakeChain}
    (played : play keyring args rounds = .ok chain) :
    Reachable args chain := by
  simp only [play, bind_eq_ok] at played
  obtain ⟨start, initialised, ran⟩ := played
  refine foldlM_invariant (Reachable args) ?_ (.genesis initialised) ran
  intro drafts _ before after reachable stepped
  exact reachable.block (addRound_submits stepped).1

/-- Rounds whose blocks all meet a condition. -/
def ProofOfStakeChain.playWhen
    (condition : ProofOfStakeChain → Block → Bool)
    (keyring : List Wallet)
    (args : GenesisArgs)
    (rounds : List (List Draft)) : Except Error ProofOfStakeChain := do
  let start ← init args
  rounds.foldlM
    (fun chain drafts => do
      let after ← addRound keyring chain drafts
      raiseIf (condition chain after.head = false) Error.valueError
      pure after)
    start

theorem ProofOfStakeChain.playWhen_reachableBy
    {condition : ProofOfStakeChain → Block → Bool}
    {keyring : List Wallet}
    {args : GenesisArgs}
    {rounds : List (List Draft)}
    {chain : ProofOfStakeChain}
    (played : playWhen condition keyring args rounds = .ok chain) :
    ReachableBy args (fun before block => condition before block = true) chain := by
  simp only [playWhen, bind_eq_ok] at played
  obtain ⟨start, initialised, ran⟩ := played
  refine foldlM_invariant (ReachableBy args fun before block => condition before block = true)
    ?_ (.genesis initialised) ran
  intro drafts _ before after reached stepped
  simp only [bind_eq_ok, raiseIf_eq_ok, pure_eq_ok, exists_unit, Bool.not_eq_false] at stepped
  obtain ⟨_, added, meets, rfl⟩ := stepped
  exact reached.block meets (addRound_submits added).1

end

end Mindees
