import Mindees.ForkChoice.Irreversible

/-!
# Unforked trees

A tree that holds one branch only is the chain of that branch: a block on the
head is accepted exactly when the chain accepts it, and the frontier is what the
chain finalized.
-/

namespace Mindees

open Library ProofOfStakeChain

variable [Primitives]

namespace BlockTree

/-- The block that a tree takes on its head, and the tree it leaves. -/
structure Extends (tree : BlockTree) (block : Block) (after : ProofOfStakeChain) : Prop where
  accepted : (tree.addBlock block).1 = .ok true
  canonical : (tree.addBlock block).2.canonical = after
  frontier : (tree.addBlock block).2.frontier = tree.advanced after
  checkpoint : (tree.addBlock block).2.wsCheckpoint = tree.wsCheckpoint
  known : ∀ hash, (tree.addBlock block).2.weight.contains hash = true →
    hash = block.hash ∨ tree.weight.contains hash = true
  invariant : (tree.addBlock block).2.Invariant

variable {tree : BlockTree} {block : Block} {after : ProofOfStakeChain}

/-- A new block that the canonical chain accepts is stored without a replay. -/
theorem Invariant.extends
    (invariant : tree.Invariant)
    (new : tree.weight.contains block.hash = false)
    (trust : tree.trusts (tree.canonical.head.index + 1) block.hash)
    (submitted : tree.canonical.submitBlock block = .ok after) :
    tree.Extends block after := by
  obtain ⟨headWeight, headBranch⟩ := invariant.head
  have parent : block.previousHash = tree.headHash := by
    rw [(submitted_of_submitBlock submitted).previous, headBranch.head_hash]
  have onHead : tree.extendsHead block = true := decide_eq_true parent
  let admission : Admission :=
    ⟨tree.canonical.head.index + 1, after,
      headWeight + tree.canonical.stakeOf block.validator⟩
  have child : tree.Child block admission tree.canonical headWeight :=
    ⟨parent ▸ headBranch, submitted, rfl, rfl⟩
  have admitted : tree.examine block = .ok admission :=
    (invariant.examine_eq_ok new admission).mpr
      ⟨tree.canonical, headWeight, child, invariant.head_passes, trust⟩
  have passes : admission.validated.Passes (tree.store block admission).frontier :=
    (validated_passes child invariant.head_passes).1
  have result : tree.addBlock block =
      (.ok true, { tree.settled block admission with headHash := block.hash }) := by
    simp only [BlockTree.addBlock, new, Bool.false_eq_true, if_false, admitted,
      advanceFrontier_eq passes, onHead, if_true]
    rfl
  obtain ⟨accepted, grows, invariant⟩ :=
    invariant.addBlock_head new admitted child invariant.head_passes onHead
  refine ⟨accepted, ?_, grows.frontier, grows.checkpoint, ?_, invariant⟩
  · rw [result]
    exact if_pos onHead
  · intro hash known
    rw [grows.weight, Dict.contains_set, Bool.or_eq_true, decide_eq_true_iff] at known
    exact known.imp_left Eq.symm

/-- Each block of the canonical chain ends a branch of its own. -/
theorem Invariant.branch_at
    (invariant : tree.Invariant)
    {position : Nat}
    {hash : Str}
    (here : tree.canonical.hashAt position = some hash) :
    ∃ chain weight, tree.HasBranch hash chain weight ∧ chain.head.index = position := by
  obtain ⟨_, branch⟩ := invariant.head
  have passes : tree.canonical.Passes (hash, (position : Int)) :=
    ⟨Int.natCast_nonneg position, here⟩
  obtain ⟨lower, weight, lowerBranch, top, _⟩ := branch.ancestor passes
  exact ⟨lower, weight, lowerBranch, top⟩

/-- The blocks of the canonical chain are known. -/
theorem Invariant.known_of_present
    (invariant : tree.Invariant)
    {hash : Str}
    (present : hash ∈ tree.canonical.chain.map Block.hash) :
    tree.weight.contains hash = true := by
  obtain ⟨position, passes⟩ := passes_of_present present
  obtain ⟨_, weight, branch, _⟩ := invariant.branch_at passes.2
  exact (Dict.contains_iff _ _).mpr ⟨weight, (invariant.store.recorded branch).1⟩

/-- No hash occurs twice on the canonical chain. -/
theorem Invariant.nodup_hashes
    (invariant : tree.Invariant) :
    (tree.canonical.chain.map Block.hash).Nodup := by
  apply List.nodup_iff_getElem?_ne_getElem?.mpr
  intro lower higher below inside same
  have there := List.getElem?_eq_getElem inside
  have here := same.trans there
  rw [List.getElem?_map] at here there
  obtain ⟨low, lowWeight, lowBranch, lowTop⟩ := invariant.branch_at here
  obtain ⟨high, highWeight, highBranch, highTop⟩ := invariant.branch_at there
  obtain ⟨rfl, _⟩ := lowBranch.unique highBranch
  rw [lowTop] at highTop
  exact absurd (Int.ofNat_inj.mp highTop) below.ne

/-- Every stored block is on the canonical chain, and the frontier is what that
chain finalized. -/
structure Linear (tree : BlockTree) : Prop where
  invariant : tree.Invariant
  stored : ∀ hash, tree.weight.contains hash = true →
    hash ∈ tree.canonical.chain.map Block.hash
  frontier_eq : tree.frontier = tree.canonical.finalizedCheckpoint
  untrusted : tree.wsCheckpoint = none

namespace Linear

/-- A fresh tree is unforked. -/
theorem init
    {args : GenesisArgs}
    (initialised : BlockTree.init args = .ok tree) :
    tree.Linear := by
  have invariant := invariant_init initialised
  obtain ⟨chain, started, rfl⟩ := (init_eq_ok _ _ _).mp initialised
  refine ⟨invariant, ?_, (finalizedCheckpoint_init started).symm, rfl⟩
  intro hash known
  have genesis : chain.head.hash = hash := by
    rw [Dict.contains_set, Bool.or_eq_true, decide_eq_true_iff] at known
    exact known.resolve_right Bool.false_ne_true
  rw [← genesis]
  exact List.mem_map_of_mem (List.getLast_mem chain.nonempty)

/-- What is not on the chain is not in the tree. -/
theorem new
    (linear : tree.Linear)
    (absent : block.hash ∉ tree.canonical.chain.map Block.hash) :
    tree.weight.contains block.hash = false := by
  apply Bool.eq_false_of_not_eq_true
  intro known
  exact absent (linear.stored _ known)

/-- Nothing is refused for the sake of a trusted checkpoint. -/
theorem trusts
    (linear : tree.Linear)
    (height : Int)
    (hash : Str) :
    tree.trusts height hash := by
  intro checkpoint configured
  rw [linear.untrusted] at configured
  cases configured

/-- The frontier follows the chain. -/
theorem advanced_eq
    (linear : tree.Linear)
    (submitted : tree.canonical.submitBlock block = .ok after) :
    tree.advanced after = after.finalizedCheckpoint := by
  obtain ⟨_, branch⟩ := linear.invariant.head
  have rises := branch.reachable.finalized_mono submitted
  have height : tree.finalizedHeight = tree.canonical.finalizedCheckpoint.2 :=
    congrArg Prod.snd linear.frontier_eq
  unfold advanced
  split_ifs with higher
  · rfl
  · have level : tree.canonical.finalizedCheckpoint.2 = after.finalizedCheckpoint.2 :=
      le_antisymm rises (height ▸ not_lt.mp higher)
    have old := branch.reachable.passes_finalized.submitBlock submitted
    have now := (Reachable.block branch.reachable submitted).passes_finalized
    have same : tree.canonical.finalizedCheckpoint.1 = after.finalizedCheckpoint.1 := by
      apply Option.some.inj
      rw [← old.2, ← now.2, level]
    rw [linear.frontier_eq]
    exact Prod.ext same level

/-- A new block that the chain accepts extends the tree. -/
theorem addBlock
    (linear : tree.Linear)
    (absent : block.hash ∉ tree.canonical.chain.map Block.hash)
    (submitted : tree.canonical.submitBlock block = .ok after) :
    (tree.addBlock block).1 = .ok true ∧ (tree.addBlock block).2.canonical = after ∧
      (tree.addBlock block).2.Linear := by
  have extended := linear.invariant.extends (linear.new absent) (linear.trusts _ _) submitted
  refine ⟨extended.accepted, extended.canonical, extended.invariant, ?_, ?_, ?_⟩
  · intro hash known
    rw [extended.canonical, (submitted_of_submitBlock submitted).blocks, List.map_append]
    rcases extended.known hash known with rfl | old
    · exact List.mem_append_right _ List.mem_cons_self
    · exact List.mem_append_left _ (linear.stored hash old)
  · rw [extended.frontier, extended.canonical, linear.advanced_eq submitted]
  · rw [extended.checkpoint, linear.untrusted]

/-- A new block whose parent is the head is accepted only if the chain accepts it. -/
theorem submitted_of_accepted
    (linear : tree.Linear)
    (absent : block.hash ∉ tree.canonical.chain.map Block.hash)
    (onHead : block.previousHash = tree.canonical.head.hash)
    {accepted : Bool}
    (added : (tree.addBlock block).1 = .ok accepted) :
    ∃ after, tree.canonical.submitBlock block = .ok after := by
  have new := linear.new absent
  obtain ⟨_, headBranch⟩ := linear.invariant.head
  rcases linear.invariant.addBlock_cases block with
    ⟨known, _⟩ | ⟨_, _, error, refused⟩ | ⟨_, admission, before, _, child, _⟩
  · rw [new] at known
    cases known
  · rw [refused] at added
    cases added
  · have parent := child.parent
    rw [onHead, headBranch.head_hash] at parent
    obtain ⟨rfl, _⟩ := parent.unique headBranch
    exact ⟨admission.validated, child.submitted⟩

end Linear

end BlockTree

end Mindees
