import Mindees.ForkChoice.Invariant

/-!
# Growing the tree

A call either leaves the tree as it is or stores one valid child of a branch that
passes the frontier.  The frontier then follows the new branch if that finalized
a higher checkpoint, and the head is chosen under the new frontier.
-/

namespace Mindees

open Library ProofOfStakeChain

variable [Primitives]

namespace BlockTree

/-! ## The frontier -/

/-- The frontier after a branch is stored. -/
def advanced (tree : BlockTree) (chain : ProofOfStakeChain) : Checkpoint :=
  if tree.finalizedHeight < chain.finalizedCheckpoint.2 then chain.finalizedCheckpoint
  else tree.frontier

section

variable {tree : BlockTree} {chain : ProofOfStakeChain}

omit [Primitives] in
theorem advanced_mono
    (tree : BlockTree)
    (chain : ProofOfStakeChain) :
    tree.finalizedHeight ≤ (tree.advanced chain).2 := by
  unfold advanced
  split_ifs with higher
  · exact higher.le
  · exact le_refl _

/-- A branch that passes the frontier passes the next one. -/
theorem passes_advanced
    (reachable : ProofOfStakeChain.Reachable tree.genesisArgs chain)
    (passes : chain.Passes tree.frontier) :
    chain.Passes (tree.advanced chain) := by
  unfold advanced
  split_ifs
  · exact reachable.passes_finalized
  · exact passes

/-- On a branch that passes the frontier the safety stop is never reached. -/
theorem advanceFrontier_eq
    (passes : chain.Passes tree.frontier) :
    tree.advanceFrontier chain =
      .ok { tree with
        finalizedHash := (tree.advanced chain).1
        finalizedHeight := (tree.advanced chain).2 } := by
  have agrees : tree.frontierOn chain = true := by
    obtain ⟨_, here⟩ := passes
    rw [hashAt, Option.map_eq_some_iff] at here
    obtain ⟨block, found, same⟩ := here
    have position : chain.chain[tree.finalizedHeight.toNat]? = some block := found
    unfold frontierOn
    rw [position]
    exact decide_eq_true same
  unfold advanceFrontier advanced
  by_cases moves : tree.finalizedHeight < chain.finalizedCheckpoint.2
  · simp only [if_pos moves, agrees, Bool.true_eq_false, raiseIf, if_false]
    rfl
  · simp only [if_neg moves]
    rfl

end

/-! ## One call -/

/-- The parts of a grown tree that its new block determines. -/
structure Grows
    (tree : BlockTree)
    (block : Block)
    (admission : Admission)
    (grown : BlockTree) : Prop where
  args : grown.genesisArgs = tree.genesisArgs
  genesisHash : grown.genesisHash = tree.genesisHash
  checkpoint : grown.wsCheckpoint = tree.wsCheckpoint
  blocks : grown.blocks = tree.blocks.set block.hash block
  parent : grown.parent = tree.parent.set block.hash block.previousHash
  height : grown.height = tree.height.set block.hash admission.newHeight
  weight : grown.weight = tree.weight.set block.hash admission.newWeight
  frontier : grown.frontier = tree.advanced admission.validated

namespace Grows

variable {tree grown : BlockTree} {block : Block} {admission : Admission}
  {before chain : ProofOfStakeChain} {hash : Str} {weight parentWeight : Int}

/-- The branches of a grown tree are those of the grown store. -/
theorem hasBranch_iff
    (grows : tree.Grows block admission grown) :
    grown.HasBranch hash chain weight ↔
      (tree.store block admission).HasBranch hash chain weight := by
  rw [HasBranch, HasBranch, grows.args, grows.blocks]
  rfl

theorem store
    (grows : tree.Grows block admission grown)
    (consistent : tree.Store)
    (new : tree.weight.contains block.hash = false)
    (child : tree.Child block admission before parentWeight) :
    grown.Store := by
  exact (consistent.add new child).congr grows.args grows.genesisHash grows.blocks grows.parent
    grows.weight grows.height

theorem old_branch
    (grows : tree.Grows block admission grown)
    (consistent : tree.Store)
    (new : tree.weight.contains block.hash = false)
    (child : tree.Child block admission before parentWeight)
    (branch : tree.HasBranch hash chain weight) :
    grown.HasBranch hash chain weight := by
  exact grows.hasBranch_iff.mpr ((consistent.store_branch new child).1 _ _ _ branch)

theorem new_branch
    (grows : tree.Grows block admission grown)
    (consistent : tree.Store)
    (new : tree.weight.contains block.hash = false)
    (child : tree.Child block admission before parentWeight) :
    grown.HasBranch block.hash admission.validated admission.newWeight := by
  exact grows.hasBranch_iff.mpr (consistent.store_branch new child).2

theorem branch_cases
    (grows : tree.Grows block admission grown)
    (consistent : tree.Store)
    (new : tree.weight.contains block.hash = false)
    (child : tree.Child block admission before parentWeight)
    (branch : grown.HasBranch hash chain weight) :
    tree.HasBranch hash chain weight ∨
      (hash = block.hash ∧ chain = admission.validated ∧ weight = admission.newWeight) := by
  exact consistent.branch_cases new child (grows.hasBranch_iff.mp branch)

end Grows

/-- The tree of an admitted block before its head is chosen. -/
def settled (tree : BlockTree) (block : Block) (admission : Admission) : BlockTree :=
  { tree.store block admission with
    finalizedHash := (tree.advanced admission.validated).1
    finalizedHeight := (tree.advanced admission.validated).2 }

theorem grows_settled
    (tree : BlockTree)
    (block : Block)
    (admission : Admission) :
    tree.Grows block admission (tree.settled block admission) :=
  ⟨rfl, rfl, rfl, rfl, rfl, rfl, rfl, rfl⟩

namespace Invariant

variable {tree grown : BlockTree} {block : Block} {admission : Admission}
  {before chain : ProofOfStakeChain} {hash : Str} {weight parentWeight : Int}

/-- The new branch passes the old frontier and the new one. -/
theorem validated_passes
    (child : tree.Child block admission before parentWeight)
    (passes : before.Passes tree.frontier) :
    admission.validated.Passes tree.frontier ∧
      admission.validated.Passes (tree.advanced admission.validated) := by
  have extended := passes.submitBlock child.submitted
  have reachable := child.parent.reachable.block child.submitted
  exact ⟨extended, passes_advanced reachable extended⟩

/-- What passes the new frontier of a grown tree passes the old one. -/
theorem passes_old_frontier
    (invariant : tree.Invariant)
    (new : tree.weight.contains block.hash = false)
    (child : tree.Child block admission before parentWeight)
    (passes : before.Passes tree.frontier)
    (grows : tree.Grows block admission grown)
    (branch : grown.HasBranch hash chain weight)
    (above : chain.Passes grown.frontier) :
    chain.Passes tree.frontier := by
  obtain ⟨passesOld, passesNew⟩ := validated_passes child passes
  have newest := grows.new_branch invariant.store new child
  rw [grows.frontier] at above
  exact newest.passes_of_common passesNew branch above passesOld
    (tree.advanced_mono admission.validated)

/-- The frontier of a grown tree is the highest finalized checkpoint. -/
theorem grown_frontier
    (invariant : tree.Invariant)
    (new : tree.weight.contains block.hash = false)
    (child : tree.Child block admission before parentWeight)
    (passes : before.Passes tree.frontier)
    (grows : tree.Grows block admission grown) :
    (∃ hash chain weight, grown.HasBranch hash chain weight ∧
        chain.finalizedCheckpoint = grown.frontier) ∧
      ∀ hash chain weight, grown.HasBranch hash chain weight →
        chain.finalizedCheckpoint = grown.frontier ∨
          chain.finalizedCheckpoint.2 < grown.finalizedHeight := by
  have newest := grows.new_branch invariant.store new child
  have height : grown.finalizedHeight = (tree.advanced admission.validated).2 :=
    congrArg Prod.snd grows.frontier
  rw [height, grows.frontier]
  by_cases moves : tree.finalizedHeight < admission.validated.finalizedCheckpoint.2
  · rw [advanced, if_pos moves]
    refine ⟨⟨_, _, _, newest, rfl⟩, fun hash chain weight branch => ?_⟩
    rcases grows.branch_cases invariant.store new child branch with old | ⟨_, rfl, _⟩
    · right
      rcases invariant.frontier_highest hash chain weight old with same | lower
      · rw [same]
        exact moves
      · exact lower.trans moves
    · exact .inl rfl
  · rw [advanced, if_neg moves]
    obtain ⟨hash, chain, weight, branch, finalized⟩ := invariant.frontier_finalized
    have kept := grows.old_branch invariant.store new child branch
    refine ⟨⟨hash, chain, weight, kept, finalized⟩, fun hash chain weight branch => ?_⟩
    rcases grows.branch_cases invariant.store new child branch with old | ⟨_, rfl, _⟩
    · exact invariant.frontier_highest hash chain weight old
    · -- a checkpoint of the new branch at the old height is the old one
      rcases lt_or_eq_of_le (not_lt.mp moves) with lower | level
      · exact .inr lower
      · left
        have finalizedHere := newest.reachable.passes_finalized.2
        have frontierHere := (validated_passes child passes).1.2
        rw [level] at finalizedHere
        exact Prod.ext (Option.some.inj (finalizedHere.symm.trans frontierHere)) level

/-- A block on the head beats whatever the head beat. -/
theorem beats_of_extends_head
    (invariant : tree.Invariant)
    (new : tree.weight.contains block.hash = false)
    (child : tree.Child block admission before parentWeight)
    (passes : before.Passes tree.frontier)
    (grows : tree.Grows block admission grown)
    (onHead : block.previousHash = tree.headHash)
    (branch : grown.HasBranch hash chain weight)
    (above : chain.Passes grown.frontier) :
    hash = block.hash ∨ grown.beats block.hash hash = true := by
  have known := passes_old_frontier invariant new child passes grows branch above
  have parentRecorded := (invariant.store.recorded child.parent).1
  rw [onHead] at parentRecorded
  have positive : 0 < before.stakeOf block.validator :=
    checkProposer_pos (submitted_of_submitBlock child.submitted).proposer
  have heavier : parentWeight < admission.newWeight := by
    rw [child.newWeight]
    omega
  rcases grows.branch_cases invariant.store new child branch with old | ⟨same, _, _⟩
  · right
    have recorded := (invariant.store.recorded old).1
    have other : block.hash ≠ hash := by
      rintro rfl
      rw [Dict.contains, recorded] at new
      cases new
    have atMost : weight ≤ parentWeight := by
      rcases invariant.head_best hash chain weight old known with rfl | beaten
      · exact (Option.some.inj (recorded.symm.trans parentRecorded)).le
      · simp only [beats, Dict.getD_eq_of_get? recorded, Dict.getD_eq_of_get? parentRecorded]
          at beaten
        split_ifs at beaten with differ
        · exact (of_decide_eq_true beaten).le
        · exact (not_not.mp differ).ge
    have newRecorded : grown.weight.get? block.hash = some admission.newWeight := by
      rw [grows.weight, Dict.get?_set, if_pos rfl]
    have oldRecorded : grown.weight.get? hash = some weight := by
      rw [grows.weight, Dict.get?_set, if_neg other, recorded]
    have lighter : weight < admission.newWeight := atMost.trans_lt heavier
    simp only [beats, Dict.getD_eq_of_get? newRecorded, Dict.getD_eq_of_get? oldRecorded]
    rw [if_pos (ne_of_gt lighter)]
    exact decide_eq_true lighter
  · exact .inl same

/-- Choosing the best leaf completes the invariant of a grown tree. -/
theorem of_grows
    (invariant : tree.Invariant)
    (new : tree.weight.contains block.hash = false)
    (child : tree.Child block admission before parentWeight)
    (passes : before.Passes tree.frontier)
    (grows : tree.Grows block admission grown)
    (head : grown.HasBranch grown.headHash grown.canonical weight)
    (headPasses : grown.canonical.Passes grown.frontier)
    (headBest : ∀ hash chain weight, grown.HasBranch hash chain weight →
      chain.Passes grown.frontier → hash = grown.headHash ∨
        grown.beats grown.headHash hash = true) :
    grown.Invariant := by
  obtain ⟨finalized, highest⟩ := invariant.grown_frontier new child passes grows
  exact ⟨grows.store invariant.store new child, ⟨weight, head⟩, headPasses, finalized, highest,
    headBest⟩

/-- A block on the head becomes the head. -/
theorem addBlock_head
    (invariant : tree.Invariant)
    (new : tree.weight.contains block.hash = false)
    (admitted : tree.examine block = .ok admission)
    (child : tree.Child block admission before parentWeight)
    (passes : before.Passes tree.frontier)
    (onHead : tree.extendsHead block = true) :
    (tree.addBlock block).1 = .ok true ∧
      tree.Grows block admission (tree.addBlock block).2 ∧
      (tree.addBlock block).2.Invariant := by
  have passesOld : admission.validated.Passes (tree.store block admission).frontier :=
    (validated_passes child passes).1
  have result : tree.addBlock block =
      (.ok true, { tree.settled block admission with headHash := block.hash }) := by
    simp only [addBlock, new, Bool.false_eq_true, if_false, admitted,
      advanceFrontier_eq passesOld, onHead, if_true]
    rfl
  rw [result]
  have grows : tree.Grows block admission
      { tree.settled block admission with headHash := block.hash } :=
    ⟨rfl, rfl, rfl, rfl, rfl, rfl, rfl, rfl⟩
  have canonical : (tree.settled block admission).canonical = admission.validated := if_pos onHead
  have newest := grows.new_branch invariant.store new child
  have above := (validated_passes child passes).2
  rw [← canonical] at newest
  refine ⟨rfl, grows, invariant.of_grows new child passes grows newest ?_ ?_⟩
  · rw [grows.frontier]
    exact canonical ▸ above
  · intro hash chain weight branch higher
    exact invariant.beats_of_extends_head new child passes grows (of_decide_eq_true onHead) branch
      higher

/-- After a block on a fork the best leaf becomes the head. -/
theorem addBlock_fork
    (invariant : tree.Invariant)
    (new : tree.weight.contains block.hash = false)
    (admitted : tree.examine block = .ok admission)
    (child : tree.Child block admission before parentWeight)
    (passes : before.Passes tree.frontier)
    (offHead : tree.extendsHead block ≠ true) :
    (tree.addBlock block).1 = .ok true ∧
      tree.Grows block admission (tree.addBlock block).2 ∧
      (tree.addBlock block).2.Invariant := by
  obtain ⟨passesOld, passesNew⟩ := validated_passes child passes
  have settled := tree.grows_settled block admission
  have newest := settled.new_branch invariant.store new child
  have canonical : (tree.settled block admission).canonical = tree.canonical := if_neg offHead
  obtain ⟨headWeight, headBranch⟩ := invariant.head
  have headKept := settled.old_branch invariant.store new child headBranch
  obtain ⟨lower, lowerWeight, lowerBranch, top, _⟩ := newest.ancestor passesNew
  obtain ⟨best, chain, weight, branch, above, bestOf, moved⟩ :=
    updateHead_spec (settled.store invariant.store new child)
      ⟨lower, lowerWeight, lowerBranch, top⟩ ⟨headWeight, canonical ▸ headKept⟩
  have passesStored : admission.validated.Passes (tree.store block admission).frontier := passesOld
  have result : tree.addBlock block =
      (.ok true, { tree.settled block admission with headHash := best, canonical := chain }) := by
    have choice : updateHead { tree.store block admission with
        finalizedHash := ((tree.store block admission).advanced admission.validated).1
        finalizedHeight := ((tree.store block admission).advanced admission.validated).2 } =
      (.ok (), { tree.settled block admission with headHash := best, canonical := chain }) := moved
    simp only [addBlock, new, Bool.false_eq_true, if_false, admitted,
      advanceFrontier_eq passesStored, offHead, choice]
  rw [result]
  have grows : tree.Grows block admission
      { tree.settled block admission with headHash := best, canonical := chain } :=
    ⟨rfl, rfl, rfl, rfl, rfl, rfl, rfl, rfl⟩
  exact ⟨rfl, grows, invariant.of_grows new child passes grows branch above bestOf⟩

/-- What a call does to a tree: nothing, when the block is known or not
admitted, and otherwise the growth of the tree by the block. -/
theorem addBlock_cases
    (invariant : tree.Invariant)
    (block : Block) :
    (tree.weight.contains block.hash = true ∧ tree.addBlock block = (.ok false, tree)) ∨
    (tree.weight.contains block.hash = false ∧ (∀ admission, tree.examine block ≠ .ok admission) ∧
      ∃ error, tree.addBlock block = (.error error, tree)) ∨
    (tree.weight.contains block.hash = false ∧
      ∃ admission before weight, tree.Child block admission before weight ∧
        before.Passes tree.frontier ∧ tree.trusts (before.head.index + 1) block.hash ∧
        (tree.addBlock block).1 = .ok true ∧
        tree.Grows block admission (tree.addBlock block).2 ∧
        (tree.addBlock block).2.Invariant) := by
  cases known : tree.weight.contains block.hash with
  | true =>
      left
      exact ⟨rfl, by rw [addBlock, if_pos known]⟩
  | false =>
      right
      cases admitted : tree.examine block with
      | error error =>
          left
          refine ⟨rfl, fun admission accepted => ?_, error, ?_⟩
          · cases accepted
          · simp only [addBlock, known, Bool.false_eq_true, if_false, admitted]
      | ok admission =>
          right
          obtain ⟨before, weight, child, passes, trust⟩ :=
            (invariant.examine_eq_ok known admission).mp admitted
          refine ⟨rfl, admission, before, weight, child, passes, trust, ?_⟩
          by_cases onHead : tree.extendsHead block = true
          · exact invariant.addBlock_head known admitted child passes onHead
          · exact invariant.addBlock_fork known admitted child passes onHead

/-- A known hash stays known. -/
theorem known_addBlock
    (invariant : tree.Invariant)
    (block : Block)
    (known : tree.weight.contains hash = true) :
    (tree.addBlock block).2.weight.contains hash = true := by
  rcases invariant.addBlock_cases block with ⟨_, unchanged⟩ | ⟨_, _, _, unchanged⟩ |
    ⟨_, _, _, _, _, _, _, _, grows, _⟩
  · rw [unchanged]
    exact known
  · rw [unchanged]
    exact known
  · rw [grows.weight, Dict.contains_set, known]
    simp

/-- What is known after a call was known, or is the hash of the block. -/
theorem known_of_addBlock
    {block : Block}
    (invariant : tree.Invariant)
    (known : (tree.addBlock block).2.weight.contains hash = true) :
    block.hash = hash ∨ tree.weight.contains hash = true := by
  rcases invariant.addBlock_cases block with ⟨_, unchanged⟩ | ⟨_, _, _, unchanged⟩ |
    ⟨_, _, _, _, _, _, _, _, grows, _⟩
  · rw [unchanged] at known
    exact .inr known
  · rw [unchanged] at known
    exact .inr known
  · rw [grows.weight, Dict.contains_set, Bool.or_eq_true, decide_eq_true_iff] at known
    exact known

/-- An accepted block was unknown, its parent was known, and it is stored. -/
theorem of_accepted
    {block : Block}
    (invariant : tree.Invariant)
    (accepted : (tree.addBlock block).1 = .ok true) :
    tree.weight.contains block.hash = false ∧
      tree.weight.contains block.previousHash = true ∧
      (tree.addBlock block).2.blocks.get? block.hash = some block := by
  rcases invariant.addBlock_cases block with ⟨_, known⟩ | ⟨_, _, _, refused⟩ |
    ⟨new, _, _, _, child, _, _, _, grows, _⟩
  · rw [known] at accepted
    cases accepted
  · rw [refused] at accepted
    cases accepted
  · obtain ⟨found, _⟩ := invariant.store.recorded child.parent
    refine ⟨new, (Dict.contains_iff _ _).mpr ⟨_, found⟩, ?_⟩
    rw [grows.blocks, Dict.get?_set, if_pos rfl]

/-- A call that accepts nothing changes nothing. -/
theorem unchanged
    {block : Block}
    (invariant : tree.Invariant)
    (notAccepted : (tree.addBlock block).1 ≠ .ok true) :
    (tree.addBlock block).2 = tree := by
  rcases invariant.addBlock_cases block with ⟨_, known⟩ | ⟨_, _, _, refused⟩ |
    ⟨_, _, _, _, _, _, _, accepted, _⟩
  · rw [known]
  · rw [refused]
  · exact absurd accepted notAccepted

end Invariant

end BlockTree

end Mindees
