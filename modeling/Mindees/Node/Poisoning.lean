import Mindees.ForkChoice.Lineage
import Mindees.Node.Production
import Mindees.Node.Proposals

/-!
# Poisoned pools

An elected node seals what it selects from a pool whose transactions hold whatever JSON
values their senders chose.  The block is accepted exactly when the trusted checkpoint
allows it and every selected transaction fits the books of those before it.
-/

namespace Mindees

open Library

namespace Untyped

section

variable [Primitives]

/-! ## Sealed blocks -/

/-- What a sealed block carries. -/
structure SealedBy
    (wallet : Wallet)
    (previousHash : Str)
    (index : Int)
    (transactions : List Transaction)
    (block : Block) : Prop where
  previous : block.previousHash = .str previousHash
  index_eq : block.index = .int index
  transactions_eq : block.transactions = transactions
  validator : block.validator = .str wallet.address
  root : block.merkleRoot = .str (merkleRoot (transactions.map Transaction.txid))
  pubkey : block.proposerPubkey = .str wallet.publicKeyHex
  signed : ∃ message randomness, fromHex block.hash = some message ∧
    block.validatorSig = .str (hex (wallet.sign randomness message))

/-- Sealing succeeds and fills in every field. -/
theorem exists_sealBlock
    (previousHash : Str)
    (index : Int)
    (wallet : Wallet)
    (transactions : List Transaction)
    (timestamp nonce : Int)
    (randomness : Nat) :
    ∃ block, sealBlock previousHash index wallet transactions timestamp nonce randomness =
      .ok block ∧ SealedBy wallet previousHash index transactions block := by
  let draft : Block := Block.postInit
    { index := .int index, previousHash := .str previousHash, timestamp := .int timestamp,
      transactions, validator := .str wallet.address, nonce := .int nonce, merkleRoot := .str [],
      proposerPubkey := .str [], validatorSig := .str [] }
  have message : fromHex draft.hash = some (sha256 (canonical draft.header)) := fromHex_hex _
  refine ⟨{ draft with
    proposerPubkey := .str wallet.publicKeyHex
    validatorSig := .str (hex (wallet.sign randomness (sha256 (canonical draft.header)))) }, ?_, ?_⟩
  · simp only [sealBlock, bind_eq_ok, require_eq_ok, pure_eq_ok]
    exact ⟨_, message, rfl⟩
  · exact ⟨rfl, rfl, rfl, rfl, rfl, rfl, _, randomness, message, rfl⟩

namespace SealedBy

variable {wallet : Wallet} {previousHash : Str} {index : Int} {transactions : List Transaction}
  {block : Block}

/-- A sound elected wallet passes the proposer check. -/
theorem checkProposer
    {stakes : Dict Str Int}
    (sealedBy : SealedBy wallet previousHash index transactions block)
    (sound : wallet.Sound)
    (elected : elect stakes previousHash index = .ok wallet.address) :
    ∃ view, checkProposer stakes block = .ok view ∧ view.index = index ∧
      view.validator = wallet.address := by
  obtain ⟨message, randomness, hashed, signed⟩ := sealedBy.signed
  simp only [elect, seed, bind_eq_ok, require_eq_ok, pure_eq_ok] at elected
  obtain ⟨_, ⟨parent, parsed, height, bytes, rfl⟩, drawn⟩ := elected
  have key : wallet.publicKeyHex ≠ [] := hex_ne_nil sound.publicKey_ne_nil
  have signature : hex (wallet.sign randomness message) ≠ [] :=
    hex_ne_nil (sound.sign_ne_nil randomness message)
  have previous : (Json.str previousHash).fromHex = .ok (some parent) :=
    congrArg Except.ok parsed
  have owner : addressFromPublicKey wallet.publicKeyBytes = wallet.address := rfl
  have read : ∀ bytes, hexBytes (.str (hex bytes)) = .ok bytes := by
    intro bytes
    rw [hexBytes_str, Mindees.hexBytes, fromHex_hex]
    rfl
  simp only [Untyped.checkProposer, rejectIf, bind_eq_ok, raiseIf_eq_ok, exists_unit,
    require_eq_ok, pure_eq_ok, sealedBy.previous, sealedBy.index_eq, sealedBy.validator,
    sealedBy.pubkey, signed]
  refine ⟨_, ⟨_, previous, parent, rfl, index, rfl, height, bytes, _, drawn, ?_, ?_,
    wallet.publicKeyBytes, read _, ?_, message, hashed, _, read _, ?_, rfl⟩, rfl, rfl⟩
  · simp
  · simp [key, signature]
  · simp [owner]
  · simp [sound.verifies]

end SealedBy

/-! ## A block on the head -/

namespace Chain

variable {args : GenesisArgs} {chain : Chain} {mempool : Mempool} {maxCount : Nat}
  {wallet : Wallet} {block : Block}

/-- A sealed block on the head is accepted by the chain exactly when the selection fits. -/
theorem submitBlock_sealed_iff
    (sealedBy : SealedBy wallet chain.head.hash ((chain.top : Int) + 1)
      ((mempool.select chain maxCount).map Pooled.tx) block)
    (reached : Reachable args chain)
    (poolSound : mempool.Sound)
    (sound : wallet.Sound)
    (elected : chain.nextValidator = .ok wallet.address) :
    (∃ after, chain.submitBlock block = .ok after) ↔
      chain.SelectionFits block.hash ((chain.top : Int) + 1) wallet.address
        (mempool.select chain maxCount) := by
  have standing := reached.standing
  have keyed := reached.sound.keyed
  have next := standing.nextIndex_eq
  rw [nextValidator, next] at elected
  obtain ⟨view, proposer, index, validator⟩ := sealedBy.checkProposer sound elected
  rw [← index, ← validator, ← progress_select_iff poolSound standing.healthy keyed index]
  constructor
  · rintro ⟨after, submitted⟩
    simp only [submitBlock, bind_eq_ok] at submitted
    obtain ⟨state, applied, _⟩ := submitted
    obtain ⟨_, other, checked, seen, ran⟩ := (applyChecked_eq_ok _ _ _).mp applied
    obtain rfl := Except.ok.inj (proposer.symm.trans checked)
    rw [sealedBy.transactions_eq] at ran
    exact ⟨_, ran⟩
  · rintro ⟨⟨seen, state⟩, ran⟩
    have valid : ∀ pooled ∈ mempool.select chain maxCount,
        pooled.tx.isValid = .ok (some pooled.fields) :=
      fun pooled inside => Mempool.select_valid poolSound inside
    obtain ⟨_, tracks⟩ := tracks_of_progress standing.healthy keyed index valid ran
    have supply : state.totalSupply = MAX_SUPPLY_UNITS := by
      rw [tracks.booked.supply, totalSupply_applyBlockPre, standing.supply]
    have follows : chain.Follows block := by
      refine ⟨sealedBy.previous, ⟨(chain.top : Int) + 1, next, ?_⟩, ?_⟩
      · rw [sealedBy.index_eq, eq_int, decide_eq_true_iff]
      · rw [sealedBy.root, sealedBy.transactions_eq]
    rw [← sealedBy.transactions_eq] at ran
    have applied := (applyChecked_eq_ok chain block state).mpr ⟨follows, view, proposer, seen, ran⟩
    simp only [submitBlock, applied, rejectIf, bind_eq_ok, raiseIf_eq_ok, exists_unit, pure_eq_ok,
      Except.ok.injEq, exists_eq_left', not_not, ne_eq]
    exact ⟨_, supply, rfl⟩

end Chain

namespace BlockTree

variable {tree : BlockTree} {validator : Str} {block : Block}

/-- The trusted checkpoint allows a block at a height. -/
def trusts (tree : BlockTree) (newHeight : Int) (hash : Str) : Prop :=
  ∀ checkpoint ∈ tree.wsCheckpoint, newHeight = checkpoint.2 → hash = checkpoint.1

/-- The checks of a block on the head. -/
theorem Invariant.guard_onHead
    (invariant : tree.Invariant)
    (onHead : block.previousHash = .str tree.headHash)
    (result : Str × Int) :
    tree.guard block = .ok result ↔
      result = (tree.headHash, (tree.canonical.top : Int) + 1) ∧
        tree.trusts (tree.canonical.top + 1) block.hash := by
  obtain ⟨stored, height, _⟩ := invariant.rooted.recorded invariant.head
  have known : tree.knows (.str tree.headHash) = .ok true := congrArg Except.ok stored
  have descends : tree.descendsFromFinalized tree.headHash = .ok true := by
    rw [invariant.descendsFromFinalized_eq invariant.head, decide_eq_true invariant.head_passes]
  have above : tree.finalizedHeight ≤ tree.canonical.top :=
    Chain.le_top_of_passes invariant.head_passes
  have higher : tree.finalizedHeight < (tree.canonical.top : Int) + 1 := by omega
  have trusted : (¬∃ checkpoint ∈ tree.wsCheckpoint,
      (tree.canonical.top : Int) + 1 = checkpoint.2 ∧ block.hash ≠ checkpoint.1) ↔
        tree.trusts (tree.canonical.top + 1) block.hash := by
    simp only [trusts, not_exists, not_and, not_not, ne_eq]
  simp only [guard, known, onHead, height, descends, if_pos higher, require, rejectIf, bind_eq_ok,
    raiseIf_eq_ok, exists_unit, pure_eq_ok, Except.ok.injEq, exists_eq_left', not_le.mpr higher,
    false_and, not_false_eq_true, true_and, Bool.true_eq_false, trusted]
  constructor
  · rintro ⟨trust, rfl⟩
    exact ⟨rfl, trust⟩
  · rintro ⟨rfl, trust⟩
    exact ⟨trust, rfl⟩

/-- A new block is accepted or refused with an exception. -/
theorem Invariant.succeeded_addBlock_iff
    (invariant : tree.Invariant)
    (new : tree.weight.contains block.hash = false) :
    succeeded (tree.addBlock block).1 = true ↔ (tree.addBlock block).1 = .ok true := by
  cases examined : tree.examine block with
  | error error =>
      have unknown : ¬tree.weight.contains block.hash = true := by
        rw [new]
        exact Bool.false_ne_true
      have refused : tree.addBlock block = (.error error, tree) := by
        rw [BlockTree.addBlock, if_neg unknown, examined]
      simp [refused, succeeded]
  | ok admission =>
      have accepted := (invariant.addBlock_of_examine new examined).1
      simp [accepted, succeeded]

/-- A new block on the head is accepted exactly when the trusted checkpoint allows it and
the canonical chain accepts it. -/
theorem Invariant.addBlock_onHead_iff
    (invariant : tree.Invariant)
    (onHead : block.previousHash = .str tree.headHash)
    (proposer : block.validator = .str validator)
    (new : tree.weight.contains block.hash = false) :
    (tree.addBlock block).1 = .ok true ↔
      tree.trusts (tree.canonical.top + 1) block.hash ∧
        ∃ after, tree.canonical.submitBlock block = .ok after := by
  obtain ⟨weight, recorded⟩ :=
    (Dict.contains_iff _ _).mp (invariant.rooted.recorded invariant.head).1
  have examined : ∀ admission, tree.examine block = .ok admission ↔
      tree.trusts (tree.canonical.top + 1) block.hash ∧
        ∃ after, tree.canonical.submitBlock block = .ok after ∧
          { previousHash := tree.headHash, newHeight := tree.canonical.top + 1, validated := after,
            newWeight := weight + tree.canonical.state.ledger.stakes.getD validator 0 } =
              admission := by
    intro admission
    simp only [examine, bind_eq_ok, Prod.exists, invariant.guard_onHead onHead, Prod.mk.injEq,
      pure_eq_ok, require_eq_ok]
    constructor
    · rintro ⟨_, _, ⟨⟨rfl, rfl⟩, trust⟩, before, state, stake, staked, after, submitted, _, found,
        rfl⟩
      have same : tree.parentState tree.headHash = .ok tree.canonical := if_pos rfl
      obtain rfl := Except.ok.inj (same.symm.trans state)
      rw [proposer] at staked
      cases staked
      obtain rfl := Option.some.inj (recorded.symm.trans found)
      exact ⟨trust, after, submitted, rfl⟩
    · rintro ⟨trust, after, submitted, rfl⟩
      refine ⟨_, _, ⟨⟨rfl, rfl⟩, trust⟩, tree.canonical, if_pos rfl, _, ?_, after, submitted,
        weight, recorded, rfl⟩
      rw [proposer]
      rfl
  constructor
  · intro accepted
    cases result : tree.examine block with
    | error error =>
        exact absurd accepted (addBlock_of_refused (congrArg succeeded result)).1
    | ok admission =>
        obtain ⟨trust, after, submitted, _⟩ := (examined admission).mp result
        exact ⟨trust, after, submitted⟩
  · rintro ⟨trust, after, submitted⟩
    exact (invariant.addBlock_of_examine new
      ((examined _).mpr ⟨trust, after, submitted, rfl⟩)).1

end BlockTree

/-! ## Production -/

namespace NodeService

/-- The canonical chain. -/
def chain (service : NodeService) : Chain := service.tree.canonical

/-- The key of this node is the elected one. -/
def isOurTurn (service : NodeService) (wallet : Wallet) : Except Error Bool := do
  let elected ← service.chain.nextValidator
  pure (elected = wallet.address)

/-- The selection of the pool, sealed on the current head. -/
def nextBlock
    (service : NodeService)
    (wallet : Wallet)
    (timestamp : Int)
    (randomness : Nat) : Except Error Block := do
  let index ← require service.chain.nextIndex .typeError
  sealBlock service.chain.head.hash index wallet
    ((service.mempool.select service.chain).map Pooled.tx) timestamp 0 randomness

/-- Keep an accepted block on disk and drop what it consumed from the pool. -/
def commit (service : NodeService) (tree : BlockTree) (block : Block) : NodeService where
  tree
  store := service.store ++ [block]
  mempool := service.mempool.update tree.canonical

/-- Produce the next block with the key that the node is configured with, if any.  The
timestamp is the caller's or the clock's. -/
def produceBlock
    (service : NodeService)
    (validator : Option Wallet)
    (timestamp : Int)
    (randomness : Nat) : Except Error Json × NodeService :=
  match validator with
  | none => (.error (.validation "node is not configured as a validator"), service)
  | some wallet =>
      match service.isOurTurn wallet with
      | .error error => (.error error, service)
      | .ok false =>
          match service.chain.nextValidator with
          | .error error => (.error error, service)
          | .ok elected =>
              (.error (.validation s!"not this node's turn (elected {text elected})"), service)
      | .ok true =>
          match service.nextBlock wallet timestamp randomness with
          | .error error => (.error error, service)
          | .ok block =>
              match service.tree.addBlock block with
              | (.error error, tree) => (.error error, { service with tree })
              | (.ok _, tree) => (.ok block.encodeBlock, service.commit tree block)

variable {args : GenesisArgs} {checkpoint : Option Checkpoint} {service : NodeService}
  {wallet : Wallet} {block : Block} {timestamp : Int} {randomness : Nat}

/-- Production succeeds exactly when the tree does not refuse the block. -/
theorem produceBlock_ok_iff
    (elected : service.chain.nextValidator = .ok wallet.address)
    (built : service.nextBlock wallet timestamp randomness = .ok block) :
    succeeded (service.produceBlock (some wallet) timestamp randomness).1 = true ↔
      succeeded (service.tree.addBlock block).1 = true := by
  have turn : service.isOurTurn wallet = .ok true := by
    simp only [isOurTurn, bind_eq_ok, pure_eq_ok]
    exact ⟨_, elected, decide_eq_true rfl⟩
  unfold produceBlock
  simp only [turn, built]
  cases service.tree.addBlock block with
  | mk result tree => cases result <;> rfl

/-- The trusted checkpoint allows the next block, and every transaction that selection takes
from the pool fits. -/
def Unpoisoned (service : NodeService) (wallet : Wallet) (hash : Str) : Prop :=
  service.tree.trusts (service.chain.top + 1) hash ∧
    service.chain.SelectionFits hash (service.chain.top + 1) wallet.address
      (service.mempool.select service.chain)

/-- The block that a node seals. -/
theorem exists_nextBlock
    (reached : BlockTree.Reachable args checkpoint service.tree)
    (wallet : Wallet)
    (timestamp : Int)
    (randomness : Nat) :
    ∃ block, service.nextBlock wallet timestamp randomness = .ok block ∧
      SealedBy wallet service.chain.head.hash (service.chain.top + 1)
        ((service.mempool.select service.chain).map Pooled.tx) block := by
  have next : service.chain.nextIndex = some ((service.chain.top : Int) + 1) :=
    reached.invariant.head.reachable.standing.nextIndex_eq
  obtain ⟨block, built, sealedBy⟩ := exists_sealBlock service.chain.head.hash
    (service.chain.top + 1) wallet ((service.mempool.select service.chain).map Pooled.tx) timestamp
    0 randomness
  refine ⟨block, ?_, sealedBy⟩
  simp only [nextBlock, next, require, bind_eq_ok, Except.ok.injEq, exists_eq_left']
  exact built

/-- An elected node always seals a block.  Production succeeds exactly when the block is
known already or the pool has not poisoned it, and the tree accepts it as a new one exactly
when it is unknown and the pool has not: whatever blocks the tree has been given, and
whatever was offered to the pool. -/
theorem produceBlock_iff
    (reached : BlockTree.Reachable args checkpoint service.tree)
    (pool : service.mempool.Built)
    (sound : wallet.Sound)
    (elected : service.chain.nextValidator = .ok wallet.address)
    (timestamp : Int)
    (randomness : Nat) :
    ∃ block, service.nextBlock wallet timestamp randomness = .ok block ∧
      (succeeded (service.produceBlock (some wallet) timestamp randomness).1 = true ↔
        service.tree.weight.contains block.hash = true ∨
          service.Unpoisoned wallet block.hash) ∧
      ((service.tree.addBlock block).1 = .ok true ↔
        service.tree.weight.contains block.hash = false ∧
          service.Unpoisoned wallet block.hash) := by
  have invariant := reached.invariant
  obtain ⟨block, built, sealedBy⟩ := exists_nextBlock reached wallet timestamp randomness
  have onHead : block.previousHash = .str service.tree.headHash := by
    rw [sealedBy.previous]
    exact congrArg Json.str invariant.head.head_hash
  have fits := Chain.submitBlock_sealed_iff sealedBy invariant.head.reachable pool.sound sound
    elected
  refine ⟨block, built, ?_⟩
  rw [produceBlock_ok_iff elected built]
  cases known : service.tree.weight.contains block.hash with
  | true =>
      have stale : service.tree.addBlock block = (.ok false, service.tree) := by
        rw [BlockTree.addBlock, if_pos known]
      rw [stale]
      simp [succeeded]
  | false =>
      have added := invariant.addBlock_onHead_iff onHead sealedBy.validator known
      have unpoisoned : (service.tree.addBlock block).1 = .ok true ↔
          service.Unpoisoned wallet block.hash := added.trans (and_congr Iff.rfl fits)
      rw [invariant.succeeded_addBlock_iff known, unpoisoned]
      simp

end NodeService

end

end Untyped

/-! ## Harmless and harmful pools -/

namespace PoisoningSample

open Untyped

attribute [local instance] Symbolic.primitives

theorem treeBuilt : succeeded (Untyped.BlockTree.init ProductionSample.args) = true := by
  decide +kernel

/-- The tree of the validator, with genesis alone. -/
def tree : Untyped.BlockTree := outcome (Untyped.BlockTree.init ProductionSample.args) treeBuilt

theorem reached : Untyped.BlockTree.Reachable ProductionSample.args none tree :=
  .init (eq_ok_outcome _ treeBuilt)

/-- What the client signs for a recipient. -/
def signed (recipient : Json) (amount fee : Int) : Untyped.Transaction :=
  let client := Symbolic.wallet 2
  let draft : Untyped.Transaction :=
    { sender := .str client.address, recipient, amount := .int amount, fee := .int fee,
      nonce := .int 0, publicKey := .str client.publicKeyHex, signature := .str [],
      evidence := .str [] }
  { draft with signature := .str (hex (client.sign 0 draft.signingPayload)) }

/-- The pool after the client has offered it. -/
def offered (recipient : Json) (amount fee : Int) : Except Error Untyped.Mempool := do
  let (_, mempool) ← Untyped.Mempool.init.add (signed recipient amount fee) tree.canonical
  pure mempool

theorem built_of_offered
    {recipient : Json}
    {amount fee : Int}
    {mempool : Untyped.Mempool}
    (made : offered recipient amount fee = .ok mempool) :
    mempool.Built := by
  simp only [offered, bind_eq_ok, pure_eq_ok, Prod.exists] at made
  obtain ⟨_, _, added, rfl⟩ := made
  exact .add .init added

/-- The client pays the validator. -/
def payment : Except Error Untyped.Mempool := offered (.str (Symbolic.wallet 1).address) 5 1

/-- The client withdraws stake that it does not have. -/
def overdraft : Except Error Untyped.Mempool := offered (.str UNSTAKE_SENTINEL) 1 0

/-- The client pays to a list. -/
def listed : Except Error Untyped.Mempool := offered (.arr []) 5 1

/-- The node of the validator. -/
def node (mempool : Untyped.Mempool) : Untyped.NodeService where
  tree := tree
  mempool := mempool
  store := []

theorem runs :
    (node .init).chain.nextValidator = .ok (Symbolic.wallet 1).address ∧
      succeeded payment = true ∧ succeeded overdraft = true ∧ succeeded listed = true := by
  decide +kernel

theorem payment_offered : succeeded payment = true := runs.2.1

theorem overdraft_offered : succeeded overdraft = true := runs.2.2.1

@[irreducible] def paidPool : Untyped.Mempool := outcome payment payment_offered

@[irreducible] def poisonedPool : Untyped.Mempool := outcome overdraft overdraft_offered

theorem paidPool_built : (node paidPool).mempool.Built := by
  have made : payment = .ok paidPool := by
    unfold paidPool
    exact eq_ok_outcome _ payment_offered
  have built : paidPool.Built := built_of_offered made
  exact built

theorem poisonedPool_built : (node poisonedPool).mempool.Built := by
  have made : overdraft = .ok poisonedPool := by
    unfold poisonedPool
    exact eq_ok_outcome _ overdraft_offered
  have built : poisonedPool.Built := built_of_offered made
  exact built

theorem node_elects
    (mempool : Untyped.Mempool) :
    (node mempool).chain.nextValidator = .ok (Symbolic.wallet 1).address := runs.1

theorem builds :
    succeeded ((node paidPool).nextBlock (Symbolic.wallet 1) 1700000010 0) = true ∧
      succeeded ((node poisonedPool).produceBlock (some (Symbolic.wallet 1)) 1700000010 0).1 =
        false := by
  decide +kernel

/-- The block sealed on the pending payment. -/
@[irreducible] def paidBlock : Untyped.Block :=
  outcome ((node paidPool).nextBlock (Symbolic.wallet 1) 1700000010 0) builds.1

theorem nextBlock_paid :
    (node paidPool).nextBlock (Symbolic.wallet 1) 1700000010 0 = .ok paidBlock := by
  unfold paidBlock
  exact eq_ok_outcome _ builds.1

theorem paid_accepted : ((node paidPool).tree.addBlock paidBlock).1 = .ok true := by
  decide +kernel

/-- A payment that the sender can afford does not poison the pool. -/
theorem produceBlock_iff_payment :
    (node paidPool).Unpoisoned (Symbolic.wallet 1) paidBlock.hash := by
  have service : Untyped.BlockTree.Reachable ProductionSample.args none (node paidPool).tree :=
    reached
  obtain ⟨block, built, _, accepted⟩ :=
    Untyped.NodeService.produceBlock_iff service paidPool_built (Symbolic.wallet_sound 1)
      (node_elects paidPool) 1700000010 0
  obtain rfl := Except.ok.inj (nextBlock_paid.symm.trans built)
  exact (accepted.mp paid_accepted).2

/-- A withdrawal of stake that its sender does not have passes the pool, and the block that
selects it is refused. -/
theorem peer_poisons_production :
    ¬∀ (args : GenesisArgs) (checkpoint : Option Checkpoint) (service : Untyped.NodeService)
      (wallet : Wallet) (timestamp : Int) (randomness : Nat),
      Untyped.BlockTree.Reachable args checkpoint service.tree →
      service.mempool.Built →
      wallet.Sound →
      service.chain.nextValidator = .ok wallet.address →
      succeeded (service.produceBlock (some wallet) timestamp randomness).1 = true := by
  intro claim
  have produced := claim _ none (node poisonedPool) (Symbolic.wallet 1) 1700000010 0 reached
    poisonedPool_built (Symbolic.wallet_sound 1) (node_elects poisonedPool)
  rw [builds.2] at produced
  cases produced

/-- So does a payment to a list, which cannot be a key of the balances. -/
example :
    ((node (outcome listed runs.2.2.2)).produceBlock (some (Symbolic.wallet 1)) 1700000010
      0).1.map (fun _ => ()) = .error .typeError := by
  decide +kernel

end PoisoningSample

end Mindees
