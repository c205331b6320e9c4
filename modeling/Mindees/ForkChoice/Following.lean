import Mindees.Core.Codec
import Mindees.ForkChoice.Conflicts

/-!
# Following a chain

What a tree knows of a chain of the same genesis is a first part of it, and the
tree accepts the next block of the chain unless a guard refuses it.
-/

namespace Mindees

open Library ProofOfStakeChain

variable [Primitives] {args : GenesisArgs}

namespace ProofOfStakeChain

/-- A reachable chain is replayed from its genesis by its other blocks. -/
theorem Reachable.replay
    {chain : ProofOfStakeChain}
    (reachable : Reachable args chain) :
    ∃ start, init args = .ok start ∧ start.submitBlocks chain.chain.tail = .ok chain := by
  induction reachable with
  | genesis initialised =>
      refine ⟨_, initialised, ?_⟩
      obtain ⟨_, _, _, _, _, _, _, _, blocks⟩ := (init_eq_ok _ _).mp initialised
      rw [blocks]
      rfl
  | @block before after block _ submitted inductionHypothesis =>
      obtain ⟨start, initialised, replayed⟩ := inductionHypothesis
      refine ⟨start, initialised, ?_⟩
      rw [(submitted_of_submitBlock submitted).blocks, List.tail_append_of_ne_nil before.nonempty,
        submitBlocks, foldlM_concat_eq_ok]
      exact ⟨before, replayed, submitted⟩

/-- A chain starts with genesis. -/
theorem Reachable.first_hash
    {chain : ProofOfStakeChain}
    (reachable : Reachable args chain) :
    ∃ first rest, chain.chain = first :: rest ∧ first.hash = genesisHash args := by
  induction reachable with
  | genesis initialised =>
      obtain ⟨_, _, _, _, _, _, _, _, blocks⟩ := (init_eq_ok _ _).mp initialised
      exact ⟨_, [], blocks, rfl⟩
  | @block before after block _ submitted inductionHypothesis =>
      obtain ⟨first, rest, blocks, hashed⟩ := inductionHypothesis
      refine ⟨first, rest ++ [block], ?_, hashed⟩
      rw [(submitted_of_submitBlock submitted).blocks, blocks, List.cons_append]

/-- An accepted block has its Merkle root filled in. -/
theorem postInit_of_submitBlock
    {before after : ProofOfStakeChain}
    {block : Block}
    (submitted : before.submitBlock block = .ok after) :
    block.postInit = block := by
  obtain ⟨_, _, root, _⟩ :=
    (applyChecked_eq_ok _ _ _).mp (submitted_of_submitBlock submitted).checked
  rw [Block.postInit]
  split_ifs
  · rw [← root]
  · rfl

/-- A Merkle root left out of a block of a chain is the one of its transactions. -/
theorem Reachable.postInit_eq
    {chain : ProofOfStakeChain}
    {block : Block}
    (reachable : Reachable args chain)
    (inside : block ∈ chain.chain) :
    block.postInit = block := by
  induction reachable with
  | genesis initialised =>
      obtain ⟨_, _, _, _, _, _, _, _, blocks⟩ := (init_eq_ok _ _).mp initialised
      rw [blocks, List.mem_singleton] at inside
      rw [inside]
      exact Block.postInit_postInit _
  | @block before after newest _ submitted inductionHypothesis =>
      have accepted := submitted_of_submitBlock submitted
      rw [accepted.blocks] at inside
      rcases List.mem_append.mp inside with older | last
      · exact inductionHypothesis older
      · rw [List.mem_singleton.mp last]
        exact postInit_of_submitBlock submitted

end ProofOfStakeChain

namespace BlockTree

variable {tree : BlockTree} {start left next : ProofOfStakeChain} {blocks : List Block}
  {block : Block}

/-- The newest known block of a chain ends a branch of the tree, and the blocks
before it are known as well. -/
theorem Invariant.branch_of_known
    (invariant : tree.Invariant)
    (initialised : ProofOfStakeChain.init tree.genesisArgs = .ok start)
    (tells : tree.TellsApart blocks)
    (replayed : start.submitBlocks blocks = .ok left)
    (known : tree.weight.contains left.head.hash = true) :
    (∃ kept weight, tree.HasBranch left.head.hash kept weight ∧ left.bare = kept.bare) ∧
      ∀ block ∈ blocks, tree.weight.contains block.hash = true := by
  induction blocks using List.reverseRecOn generalizing left with
  | nil =>
      cases replayed
      refine ⟨⟨start, 0, ?_, rfl⟩, fun block inside => absurd inside List.not_mem_nil⟩
      rw [head_init initialised]
      exact .genesis initialised
  | append_singleton blocks block inductionHypothesis =>
      obtain ⟨before, earlier, submitted⟩ := (foldlM_concat_eq_ok _ _ _ _).mp replayed
      have accepted := submitted_of_submitBlock submitted
      have tellsBlock := tells block (by simp)
      rw [accepted.newest] at known ⊢
      obtain ⟨_, _, _, _, _, parentBranch, _⟩ := invariant.store.stored_of_known tellsBlock known
      rw [accepted.previous] at parentBranch
      have parentKnown : tree.weight.contains before.head.hash = true :=
        (Dict.contains_iff _ _).mpr ⟨_, (invariant.store.recorded parentBranch).1⟩
      obtain ⟨⟨kept, weight, branch, same⟩, others⟩ := inductionHypothesis
        (fun other inside => tells other (List.mem_append_left _ inside)) earlier parentKnown
      refine ⟨invariant.store.extends_known branch same submitted tellsBlock known, ?_⟩
      intro other inside
      rcases List.mem_append.mp inside with older | newest
      · exact others other older
      · rw [List.mem_singleton.mp newest]
        exact known

/-- The tree accepts the next block of a chain if no guard refuses it. -/
theorem Invariant.accepts_next
    {kept : ProofOfStakeChain}
    {weight : Int}
    (invariant : tree.Invariant)
    (branch : tree.HasBranch left.head.hash kept weight)
    (same : left.bare = kept.bare)
    (submitted : left.submitBlock block = .ok next)
    (new : tree.weight.contains block.hash = false)
    (unrefused : succeeded (tree.guard block) = true) :
    (tree.addBlock block).1 = .ok true := by
  obtain ⟨height, guarded⟩ := (succeeded_iff _).mp unrefused
  obtain ⟨before, parentWeight, parentBranch, passes, trust, _⟩ :=
    (invariant.guard_eq_ok new height).mp guarded
  rw [(submitted_of_submitBlock submitted).previous] at parentBranch
  obtain ⟨rfl, rfl⟩ := parentBranch.unique branch
  obtain ⟨after, again, _⟩ := submitBlock_of_bare same submitted
  rw [← (submitted_of_submitBlock submitted).previous] at branch
  have examined := (invariant.examine_eq_ok new ⟨_, after, _⟩).mpr
    ⟨before, parentWeight, ⟨branch, again, rfl, rfl⟩, passes, trust⟩
  exact (invariant.addBlock_of_examine new examined).2

end BlockTree

end Mindees
