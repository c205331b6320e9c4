import Mindees.Consensus.Finality
import Mindees.ForkChoice.BlockTree

/-!
# Branches of the tree

The chain that the stored blocks spell out for a hash, with its weight.  The
walks of the tree, which only follow parent pointers, compute with it.
-/

namespace Mindees

open Library

variable [Primitives]

/-! ## Checkpoints on a chain -/

namespace ProofOfStakeChain

/-- The chain has the block of a checkpoint at its height. -/
def Passes (chain : ProofOfStakeChain) (checkpoint : Checkpoint) : Prop :=
  0 ≤ checkpoint.2 ∧ chain.hashAt checkpoint.2.toNat = some checkpoint.1

instance (chain : ProofOfStakeChain) (checkpoint : Checkpoint) :
    Decidable (chain.Passes checkpoint) :=
  inferInstanceAs (Decidable (_ ∧ _))

variable {args : GenesisArgs} {chain before after : ProofOfStakeChain} {block : Block}
  {checkpoint : Checkpoint}

/-- The head of a new chain is the genesis block. -/
theorem head_init
    (initialised : init args = .ok chain) :
    chain.head.hash = genesisHash args := by
  obtain ⟨_, _, _, _, _, _, _, _, blocks⟩ := (init_eq_ok args chain).mp initialised
  simp only [head, blocks, List.getLast_singleton]
  rfl

theorem index_init
    (initialised : init args = .ok chain) :
    chain.head.index = 0 := by
  obtain ⟨_, _, _, _, _, _, _, _, first⟩ := (init_eq_ok args chain).mp initialised
  simp [head, first, genesisBlock, Block.postInit]

/-- A chain passes its own finalized checkpoint. -/
theorem Reachable.passes_finalized
    (reachable : Reachable args chain) :
    chain.Passes chain.finalizedCheckpoint := by
  obtain ⟨position, height, here⟩ := reachable.bookkeeping.finalized_position
  have finalHeight : chain.state.finalized.2 = position := height
  refine ⟨?_, ?_⟩
  · rw [finalizedCheckpoint, finalHeight]
    exact Int.natCast_nonneg position
  · rw [finalizedCheckpoint, finalHeight, Int.toNat_natCast, hashAt, ← List.getElem?_map]
    exact here

/-- The head is the block at the last position. -/
theorem Reachable.hashAt_head
    (reachable : Reachable args chain) :
    chain.Passes (chain.head.hash, chain.head.index) := by
  have length := reachable.length_eq
  have nonempty := List.length_pos_of_ne_nil chain.nonempty
  refine ⟨by simp only []; omega, ?_⟩
  have last : chain.head.index.toNat = chain.chain.length - 1 := by omega
  change chain.chain[chain.head.index.toNat]?.map Block.hash = some chain.head.hash
  rw [last, ← List.getLast?_eq_getElem?, List.getLast?_eq_some_getLast chain.nonempty]
  rfl

/-- A chain that passes a checkpoint is as high as it. -/
theorem Reachable.height_le_of_passes
    (reachable : Reachable args chain)
    (passes : chain.Passes checkpoint) :
    checkpoint.2 ≤ chain.head.index := by
  obtain ⟨nonneg, here⟩ := passes
  rw [hashAt, Option.map_eq_some_iff] at here
  obtain ⟨block, found, _⟩ := here
  have inside := (List.getElem?_eq_some_iff.mp found).1
  have length := reachable.length_eq
  omega

/-- What a chain passes, its extensions pass. -/
theorem Passes.submitBlock
    (passes : before.Passes checkpoint)
    (submitted : before.submitBlock block = .ok after) :
    after.Passes checkpoint := by
  obtain ⟨nonneg, here⟩ := passes
  refine ⟨nonneg, ?_⟩
  rw [hashAt, Option.map_eq_some_iff] at here ⊢
  obtain ⟨found, inside, same⟩ := here
  refine ⟨found, ?_, same⟩
  rw [(submitted_of_submitBlock submitted).blocks,
    List.getElem?_append_left (List.getElem?_eq_some_iff.mp inside).1, inside]

/-- What an extension passes up to the old head, the chain passes. -/
theorem Passes.of_submitBlock
    (reachable : Reachable args before)
    (passes : after.Passes checkpoint)
    (submitted : before.submitBlock block = .ok after)
    (old : checkpoint.2 ≤ before.head.index) :
    before.Passes checkpoint := by
  obtain ⟨nonneg, here⟩ := passes
  refine ⟨nonneg, ?_⟩
  have length := reachable.length_eq
  rw [hashAt, Option.map_eq_some_iff] at here ⊢
  obtain ⟨found, inside, same⟩ := here
  refine ⟨found, ?_, same⟩
  rwa [(submitted_of_submitBlock submitted).blocks,
    List.getElem?_append_left (by omega)] at inside

/-- A chain passes through each of its blocks. -/
theorem passes_of_present
    {hash : Str}
    (present : hash ∈ chain.chain.map Block.hash) :
    ∃ position : Nat, chain.Passes (hash, (position : Int)) := by
  obtain ⟨position, inside, there⟩ := List.mem_iff_getElem.mp present
  refine ⟨position, Int.natCast_nonneg position, ?_⟩
  rw [hashAt, ← List.getElem?_map]
  exact (List.getElem?_eq_getElem inside).trans (congrArg some there)

end ProofOfStakeChain

/-! ## Branches -/

open ProofOfStakeChain

/-- The chain and the weight that stored blocks spell out for a hash. -/
inductive Branch (args : GenesisArgs) (blocks : Dict Str Block) :
    Str → ProofOfStakeChain → Int → Prop
  | genesis {chain : ProofOfStakeChain} :
      ProofOfStakeChain.init args = .ok chain → Branch args blocks (genesisHash args) chain 0
  | extend {previous : Str} {before after : ProofOfStakeChain} {block : Block} {weight : Int} :
      Branch args blocks previous before weight →
      blocks.get? block.hash = some block → block.hash ≠ genesisHash args →
      block.previousHash = previous → before.submitBlock block = .ok after →
      Branch args blocks block.hash after
        (weight + before.stakeOf block.validator)

namespace Branch

variable {args : GenesisArgs} {hash : Str} {blocks : Dict Str Block}
  {chain : ProofOfStakeChain} {weight : Int}

theorem reachable
    (branch : Branch args blocks hash chain weight) :
    ProofOfStakeChain.Reachable args chain := by
  induction branch with
  | genesis initialised => exact .genesis initialised
  | extend _ _ _ _ submitted inductionHypothesis => exact .block inductionHypothesis submitted

/-- More stored blocks keep every branch. -/
theorem mono
    {more : Dict Str Block}
    (branch : Branch args blocks hash chain weight)
    (longer : ∀ hash block, blocks.get? hash = some block → more.get? hash = some block) :
    Branch args more hash chain weight := by
  induction branch with
  | genesis initialised => exact .genesis initialised
  | extend _ stored fresh previous submitted inductionHypothesis =>
      exact .extend inductionHypothesis (longer _ _ stored) fresh previous submitted

/-- A hash has one branch. -/
theorem unique
    {other : ProofOfStakeChain}
    {otherWeight : Int}
    (branch : Branch args blocks hash chain weight)
    (again : Branch args blocks hash other otherWeight) :
    chain = other ∧ weight = otherWeight := by
  induction branch generalizing other otherWeight with
  | genesis initialised =>
      generalize sameHash : genesisHash args = hash at again
      cases again with
      | genesis initialisedAgain =>
          exact ⟨Except.ok.inj (initialised.symm.trans initialisedAgain), rfl⟩
      | extend _ _ fresh _ _ => exact absurd sameHash.symm fresh
  | @extend previous before after block weight _ stored fresh parent submitted
      inductionHypothesis =>
      generalize sameHash : block.hash = hash at again stored fresh
      cases again with
      | genesis _ => exact absurd rfl fresh
      | extend earlier storedAgain _ parentAgain submittedAgain =>
          obtain rfl := Option.some.inj (stored.symm.trans storedAgain)
          subst parent
          subst parentAgain
          obtain ⟨rfl, rfl⟩ := inductionHypothesis earlier
          exact ⟨Except.ok.inj (submitted.symm.trans submittedAgain), rfl⟩

/-- The head of a branch carries its hash. -/
theorem head_hash
    (branch : Branch args blocks hash chain weight) :
    chain.head.hash = hash := by
  cases branch with
  | genesis initialised => exact head_init initialised
  | extend _ _ _ _ submitted => rw [head_submitBlock submitted]

/-- A branch ends at the position of its head. -/
theorem passes_head
    (branch : Branch args blocks hash chain weight) :
    chain.Passes (hash, chain.head.index) := by
  have here := branch.reachable.hashAt_head
  rwa [branch.head_hash] at here

/-- A branch passes one block at the height of its head: the head. -/
theorem eq_of_passes_head
    {checkpoint : Checkpoint}
    (branch : Branch args blocks hash chain weight)
    (passes : chain.Passes checkpoint)
    (top : checkpoint.2 = chain.head.index) :
    checkpoint.1 = hash := by
  have here := branch.passes_head.2
  rw [← top] at here
  exact Option.some.inj (passes.2.symm.trans here)

/-- A branch is its own lower part up to its head. -/
theorem ancestor_of_top
    {checkpoint : Checkpoint}
    (branch : Branch args blocks hash chain weight)
    (passes : chain.Passes checkpoint)
    (top : checkpoint.2 = chain.head.index) :
    ∃ lower lowerWeight, Branch args blocks checkpoint.1 lower lowerWeight ∧
      lower.head.index = checkpoint.2 ∧
      lower.chain = chain.chain.take (checkpoint.2.toNat + 1) := by
  have length := branch.reachable.length_eq
  refine ⟨chain, weight, branch.eq_of_passes_head passes top ▸ branch, top.symm, ?_⟩
  rw [List.take_of_length_le (by omega)]

/-- Every checkpoint that a branch passes has a branch of its own: the lower
part of the long one. -/
theorem ancestor
    {checkpoint : Checkpoint}
    (branch : Branch args blocks hash chain weight)
    (passes : chain.Passes checkpoint) :
    ∃ lower lowerWeight, Branch args blocks checkpoint.1 lower lowerWeight ∧
      lower.head.index = checkpoint.2 ∧
      lower.chain = chain.chain.take (checkpoint.2.toNat + 1) := by
  induction branch with
  | @genesis chain initialised =>
      have low := index_init initialised
      have start : Branch args blocks (genesisHash args) chain 0 := .genesis initialised
      have below := start.reachable.height_le_of_passes passes
      exact start.ancestor_of_top passes (le_antisymm below (low ▸ passes.1))
  | @extend previous before after block weight earlier stored fresh parent submitted
      inductionHypothesis =>
      have branch := Branch.extend earlier stored fresh parent submitted
      have accepted := submitted_of_submitBlock submitted
      have next := accepted.index
      rw [← accepted.newest] at next
      have below := branch.reachable.height_le_of_passes passes
      by_cases old : checkpoint.2 ≤ before.head.index
      · have passesBefore := passes.of_submitBlock earlier.reachable submitted old
        obtain ⟨lower, lowerWeight, lowerBranch, height, prefixed⟩ :=
          inductionHypothesis passesBefore
        refine ⟨lower, lowerWeight, lowerBranch, height, ?_⟩
        have length := earlier.reachable.length_eq
        have nonneg := passes.1
        rw [prefixed, accepted.blocks, List.take_append_of_le_length (by omega)]
      · exact branch.ancestor_of_top passes (by omega)

/-- Branches that pass one checkpoint agree up to it. -/
theorem take_eq_take
    {otherHash : Str}
    {other : ProofOfStakeChain}
    {otherWeight : Int}
    {checkpoint : Checkpoint}
    (branch : Branch args blocks hash chain weight)
    (passes : chain.Passes checkpoint)
    (otherBranch : Branch args blocks otherHash other otherWeight)
    (otherPasses : other.Passes checkpoint) :
    chain.chain.take (checkpoint.2.toNat + 1) = other.chain.take (checkpoint.2.toNat + 1) := by
  obtain ⟨lower, _, lowerBranch, _, below⟩ := branch.ancestor passes
  obtain ⟨otherLower, _, otherLowerBranch, _, otherBelow⟩ := otherBranch.ancestor otherPasses
  obtain ⟨rfl, _⟩ := lowerBranch.unique otherLowerBranch
  rw [← below, ← otherBelow]

/-- What one branch passes below a common checkpoint, the other one passes. -/
theorem passes_of_common
    {otherHash : Str}
    {other : ProofOfStakeChain}
    {otherWeight : Int}
    {checkpoint lower : Checkpoint}
    (branch : Branch args blocks hash chain weight)
    (passes : chain.Passes checkpoint)
    (otherBranch : Branch args blocks otherHash other otherWeight)
    (otherPasses : other.Passes checkpoint)
    (passesLower : chain.Passes lower)
    (below : lower.2 ≤ checkpoint.2) :
    other.Passes lower := by
  have same := branch.take_eq_take passes otherBranch otherPasses
  obtain ⟨nonneg, here⟩ := passesLower
  have inside : lower.2.toNat < checkpoint.2.toNat + 1 := by omega
  refine ⟨nonneg, ?_⟩
  rw [hashAt, ← List.getElem?_take_of_lt inside] at here ⊢
  rw [← same, here]

/-- A block that one branch passes has the same height on every branch. -/
theorem passes_of_mem
    {otherHash : Str}
    {other : ProofOfStakeChain}
    {otherWeight : Int}
    {checkpoint : Checkpoint}
    (branch : Branch args blocks hash chain weight)
    (passes : chain.Passes checkpoint)
    (otherBranch : Branch args blocks otherHash other otherWeight)
    (present : checkpoint.1 ∈ other.chain.map Block.hash) :
    other.Passes checkpoint := by
  obtain ⟨position, passesThere⟩ := passes_of_present present
  obtain ⟨lower, _, lowerBranch, height, _⟩ := branch.ancestor passes
  obtain ⟨otherLower, _, otherLowerBranch, otherHeight, _⟩ := otherBranch.ancestor passesThere
  obtain ⟨rfl, _⟩ := lowerBranch.unique otherLowerBranch
  have level : checkpoint.2 = (position : Int) := height.symm.trans otherHeight
  rw [← level] at passesThere
  exact passesThere

end Branch

end Mindees
