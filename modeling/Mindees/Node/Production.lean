import Mindees.Node.Service

/-!
# Block production

The block that an elected node seals on its head is accepted exactly when the
trusted checkpoint allows it and every selected transaction meets the rules that
selection does not model.
-/

namespace Mindees

open Library ProofOfStakeChain

section

variable [Primitives]

/-! ## Sealed blocks -/

/-- What a sealed block carries. -/
structure SealedBy
    (wallet : Wallet)
    (previousHash : Str)
    (index : Int)
    (transactions : List Transaction)
    (block : Block) : Prop where
  previous : block.previousHash = previousHash
  index_eq : block.index = index
  transactions_eq : block.transactions = transactions
  validator : block.validator = wallet.address
  root : block.merkleRoot = merkleRoot (transactions.map Transaction.txid)
  pubkey : block.proposerPubkey = wallet.publicKeyHex
  signed : ∃ message randomness, fromHex block.hash = some message ∧
    block.validatorSig = hex (wallet.sign randomness message)

/-- Sealing succeeds and fills in every field. -/
theorem sealBlock_spec
    (previousHash : Str)
    (index : Int)
    (wallet : Wallet)
    (transactions : List Transaction)
    (timestamp nonce : Int)
    (randomness : Nat) :
    ∃ block, sealBlock previousHash index wallet transactions timestamp nonce randomness =
      .ok block ∧ SealedBy wallet previousHash index transactions block := by
  let draft : Block := Block.postInit
    { index, previousHash, timestamp, transactions, validator := wallet.address, nonce }
  have message : fromHex draft.hash = some (sha256 (canonical draft.header)) := fromHex_hex _
  refine ⟨{ draft with
    proposerPubkey := wallet.publicKeyHex
    validatorSig := hex (wallet.sign randomness (sha256 (canonical draft.header))) }, ?_, ?_⟩
  · simp only [sealBlock, bind_eq_ok, require_eq_ok, pure_eq_ok]
    exact ⟨_, message, rfl⟩
  · exact ⟨rfl, rfl, rfl, rfl, rfl, rfl, _, randomness, message, rfl⟩

/-- A sealed block has its Merkle root. -/
theorem SealedBy.postInit_eq
    {wallet : Wallet}
    {previousHash : Str}
    {index : Int}
    {transactions : List Transaction}
    {block : Block}
    (sealedBy : SealedBy wallet previousHash index transactions block) :
    block.postInit = block := by
  have root : Mindees.merkleRoot (block.transactions.map Transaction.txid) = block.merkleRoot := by
    rw [sealedBy.root, sealedBy.transactions_eq]
  unfold Block.postInit
  rw [root, ite_self]

/-- A sound elected wallet passes the proposer check. -/
theorem SealedBy.checkProposer
    {wallet : Wallet}
    {previousHash : Str}
    {index : Int}
    {transactions : List Transaction}
    {block : Block}
    {stakes : Dict Str Int}
    (sealedBy : SealedBy wallet previousHash index transactions block)
    (sound : wallet.Sound)
    (elected : elect stakes previousHash index = .ok wallet.address) :
    checkProposer stakes block = .ok () := by
  obtain ⟨message, randomness, hashed, signed⟩ := sealedBy.signed
  have key : block.proposerPubkey ≠ [] := by
    rw [sealedBy.pubkey]
    exact hex_ne_nil sound.publicKey_ne_nil
  have signature : block.validatorSig ≠ [] := by
    rw [signed]
    exact hex_ne_nil (sound.sign_ne_nil randomness message)
  have present : ¬(block.proposerPubkey = [] ∨ block.validatorSig = []) :=
    not_or.mpr ⟨key, signature⟩
  simp only [Mindees.checkProposer, rejectIf, bind_eq_ok, raiseIf_eq_ok, exists_unit,
    require_eq_ok, hexBytes]
  rw [sealedBy.previous, sealedBy.index_eq, sealedBy.validator, sealedBy.pubkey, hashed, signed]
  refine ⟨_, elected, not_not.mpr rfl, ?_, _, fromHex_hex _, not_not.mpr rfl, _, rfl, _,
    fromHex_hex _, ?_⟩
  · rw [← sealedBy.pubkey, ← signed]
    exact present
  · rw [sound.verifies]
    exact Bool.false_ne_true.symm

/-! ## A block on the head -/

namespace BlockTree

variable {tree : BlockTree} {block : Block}

/-- The hash of the block is not that of genesis, nor of a stored block with
another parent. -/
def Collides (tree : BlockTree) (block : Block) : Prop :=
  block.hash = tree.genesisHash ∨
    ∃ stored, tree.blocks.get? block.hash = some stored ∧
      stored.previousHash ≠ block.previousHash

/-- An unknown block collides with nothing. -/
theorem Invariant.distinct_of_new
    (invariant : tree.Invariant)
    (new : tree.weight.contains block.hash = false) :
    ¬tree.Collides block := by
  rintro (same | ⟨stored, found, _⟩)
  · rw [same, invariant.store.genesis_known] at new
    cases new
  · rw [(invariant.store.block_sound _ _ found).2.2.2] at new
    cases new

/-- A child of the head is not stored yet. -/
theorem Invariant.new_of_onHead
    (invariant : tree.Invariant)
    (onHead : block.previousHash = tree.headHash)
    (distinct : ¬tree.Collides block) :
    tree.weight.contains block.hash = false := by
  cases known : tree.weight.contains block.hash with
  | false => rfl
  | true =>
      exfalso
      obtain ⟨notGenesis, sameParent⟩ := not_or.mp distinct
      obtain ⟨weight, found⟩ := (Dict.contains_iff _ _).mp known
      obtain ⟨chain, branch, _⟩ := invariant.store.branch _ weight found
      obtain ⟨headWeight, headBranch⟩ := invariant.head
      have headFound := (invariant.store.recorded headBranch).1
      generalize sameHash : block.hash = hash at branch found
      cases branch with
      | genesis _ => exact notGenesis (sameHash.trans invariant.store.genesisHash_eq.symm)
      | @extend previous before _ stored parentWeight earlier kept fresh parent submitted =>
          rw [sameHash] at sameParent
          have parentHead : previous = tree.headHash := by
            rw [← parent, ← onHead]
            by_contra other
            exact sameParent ⟨stored, kept, other⟩
          subst parentHead
          obtain ⟨rfl, rfl⟩ := earlier.unique headBranch
          have branch := Branch.extend headBranch kept fresh parent submitted
          have positive : 0 < tree.canonical.stakeOf stored.validator :=
            checkProposer_pos (submitted_of_submitBlock submitted).proposer
          -- a stored child would outweigh the head
          have passes := invariant.head_passes.submitBlock submitted
          rcases invariant.head_best _ _ _ branch passes with same | beaten
          · rw [same, headFound] at found
            have equal := Option.some.inj found
            omega
          · simp only [beats, Dict.getD_eq_of_get? headFound, Dict.getD_eq_of_get? found] at beaten
            split_ifs at beaten with differ
            · have lighter := of_decide_eq_true beaten
              omega
            · have equal := not_not.mp differ
              omega

/-- A new child of the head is accepted exactly when the trusted checkpoint
allows it and the canonical chain accepts it. -/
theorem Invariant.addBlock_onHead_iff
    (invariant : tree.Invariant)
    (onHead : block.previousHash = tree.headHash)
    (distinct : ¬tree.Collides block) :
    (tree.addBlock block).1 = .ok true ↔
      tree.trusts (tree.canonical.head.index + 1) block.hash ∧
        ∃ after, tree.canonical.submitBlock block = .ok after := by
  have new := invariant.new_of_onHead onHead distinct
  obtain ⟨headWeight, headBranch⟩ := invariant.head
  rcases invariant.addBlock_cases block with
    ⟨known, _⟩ | ⟨_, refused, error, result⟩ | ⟨_, admission, before, weight, child, _, trust, accepted, _⟩
  · rw [new] at known
    cases known
  · rw [result]
    constructor
    · intro impossible
      cases impossible
    · rintro ⟨trust, after, submitted⟩
      let admission : Admission :=
        ⟨tree.canonical.head.index + 1, after,
          headWeight + tree.canonical.stakeOf block.validator⟩
      have admitted : tree.examine block = .ok admission :=
        (invariant.examine_eq_ok new admission).mpr
          ⟨tree.canonical, headWeight, ⟨onHead ▸ headBranch, submitted, rfl, rfl⟩,
            invariant.head_passes, trust⟩
      exact absurd admitted (refused admission)
  · have parent := child.parent
    rw [onHead] at parent
    obtain ⟨rfl, _⟩ := parent.unique headBranch
    exact ⟨fun _ => ⟨trust, admission.validated, child.submitted⟩, fun _ => accepted⟩

end BlockTree

/-- A sealed block on the head is accepted by the chain exactly when its
transactions are. -/
theorem SealedBy.submitBlock_iff
    {args : GenesisArgs}
    {chain : ProofOfStakeChain}
    {wallet : Wallet}
    {transactions : List Transaction}
    {block : Block}
    (sealedBy : SealedBy wallet chain.head.hash (chain.head.index + 1) transactions block)
    (reachable : ProofOfStakeChain.Reachable args chain)
    (sound : wallet.Sound)
    (elected : chain.nextValidator = .ok wallet.address) :
    (∃ after, chain.submitBlock block = .ok after) ↔
      ∃ state, chain.applyPart block transactions = .ok state := by
  have proposer := sealedBy.checkProposer sound elected
  have checkedIff : ∀ state, chain.applyChecked block = .ok state ↔
      chain.applyPart block transactions = .ok state := by
    intro state
    rw [applyChecked_eq_ok, applyPart, ProofOfStakeChain.stateBefore, sealedBy.root, sealedBy.transactions_eq]
    exact ⟨fun checked => checked.2.2.2.2,
      fun ran => ⟨sealedBy.previous, sealedBy.index_eq, rfl, proposer, ran⟩⟩
  constructor
  · rintro ⟨after, submitted⟩
    exact ⟨after.state, (checkedIff after.state).mp (submitted_of_submitBlock submitted).checked⟩
  · rintro ⟨state, ran⟩
    have checked := (checkedIff state).mpr ran
    have supply : state.totalSupply = MAX_SUPPLY_UNITS := by
      rw [applyChecked_totalSupply checked, reachable.totalSupply_eq]
    let after : ProofOfStakeChain :=
      { chain with state, chain := chain.chain ++ [block], nonempty := by simp }
    exact ⟨after, (submitBlock_eq_ok _ _ _).mpr
      ⟨(apply_eq_ok _ _ _).mpr ⟨checked, supply⟩, rfl, rfl⟩⟩

namespace NodeService

variable {args : GenesisArgs} {checkpoint : Option Checkpoint} {service : NodeService}
  {wallet : Wallet} {block : Block}

/-- Production succeeds exactly when the tree does not refuse the block. -/
theorem produceBlock_ok_iff
    {timestamp : Int}
    {randomness : Nat}
    (configured : service.validator = some wallet)
    (elected : service.chain.nextValidator = .ok wallet.address)
    (built : service.nextBlock wallet timestamp randomness = .ok block) :
    succeeded (service.produceBlock timestamp randomness).1 = true ↔
      succeeded (service.tree.addBlock block).1 = true := by
  have turn : service.isOurTurn = .ok true := by
    simp only [isOurTurn, configured, bind_eq_ok, pure_eq_ok]
    exact ⟨_, elected, decide_eq_true rfl⟩
  unfold produceBlock
  rw [configured, turn]
  simp only [built]
  cases service.tree.addBlock block with
  | mk result tree => cases result <;> rfl

/-- The tree accepts the block of an elected node exactly when the trusted checkpoint
allows it and the selection meets the rules. -/
theorem Reachable.addBlock_nextBlock_iff
    {timestamp : Int}
    {randomness : Nat}
    (reachable : Reachable args checkpoint service)
    (sound : wallet.Sound)
    (elected : service.chain.nextValidator = .ok wallet.address)
    (built : service.nextBlock wallet timestamp randomness = .ok block)
    (distinct : ¬service.tree.Collides block) :
    (service.tree.addBlock block).1 = .ok true ↔
      service.tree.trusts (service.chain.head.index + 1) block.hash ∧
        service.chain.SelectionMeetsRules block (service.mempool.select service.chain) := by
  obtain ⟨treeReachable, poolSound⟩ := reachable.consistent
  have invariant := treeReachable.invariant
  obtain ⟨headWeight, headBranch⟩ := invariant.head
  have chainReachable := headBranch.reachable
  obtain ⟨made, sealedOk, sealedBy⟩ := sealBlock_spec service.tree.canonical.head.hash
    (service.tree.canonical.head.index + 1) wallet (service.mempool.select service.chain)
    timestamp 0 randomness
  obtain rfl := Except.ok.inj (built.symm.trans sealedOk)
  have onHead : block.previousHash = service.tree.headHash := by
    rw [sealedBy.previous, headBranch.head_hash]
  have applied :
      (∃ after, service.chain.applyPart block (service.mempool.select service.chain) =
        .ok after) ↔
        service.chain.SelectionMeetsRules block (service.mempool.select service.chain) :=
    applyPart_select_iff poolSound chainReachable.healthy sealedBy.index_eq
  rw [invariant.addBlock_onHead_iff onHead distinct,
    sealedBy.submitBlock_iff chainReachable sound elected]
  exact and_congr Iff.rfl applied

/-- Production succeeds when the trusted checkpoint allows the block and the selection
meets the rules, also if the block is known already. -/
theorem Reachable.produces
    {timestamp : Int}
    {randomness : Nat}
    (reachable : Reachable args checkpoint service)
    (configured : service.validator = some wallet)
    (sound : wallet.Sound)
    (elected : service.chain.nextValidator = .ok wallet.address)
    (built : service.nextBlock wallet timestamp randomness = .ok block)
    (trust : service.tree.trusts (service.chain.head.index + 1) block.hash)
    (meets : service.chain.SelectionMeetsRules block (service.mempool.select service.chain)) :
    succeeded (service.produceBlock timestamp randomness).1 = true := by
  apply (produceBlock_ok_iff configured elected built).mpr
  cases known : service.tree.weight.contains block.hash with
  | true =>
      rw [BlockTree.addBlock, if_pos known]
      rfl
  | false =>
      have distinct := reachable.consistent.tree.invariant.distinct_of_new known
      rw [(reachable.addBlock_nextBlock_iff sound elected built distinct).mpr ⟨trust, meets⟩]
      rfl

end NodeService

end

/-! ## A small network -/

namespace ProductionSample

attribute [local instance] Symbolic.primitives

/-- One validator, and a client without stake. -/
def args : GenesisArgs where
  allocations :=
    (Dict.empty.set (Symbolic.wallet 1).address (MAX_SUPPLY_UNITS - 1000)).set
      (Symbolic.wallet 2).address 1000
  initialStakes := Dict.empty.set (Symbolic.wallet 1).address 500

end ProductionSample

end Mindees
