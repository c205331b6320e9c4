import Mindees.ForkChoice.Convergence

/-!
# Trees that hear of each other's blocks

A tree may refuse what another one holds, if it is off the branch that the tree has
finalized.  Two trees that hold whatever of the other one's blocks they could still choose
agree, although neither may have all blocks of the other.
-/

namespace Mindees

open Library ProofOfStakeChain

namespace BlockTree

variable [Primitives] {args : GenesisArgs} {blocks : Finset Block} {store : Dict Str Block}
  {left middle right : BlockTree} {chain : ProofOfStakeChain} {hash : Str} {weight : Int}

/-- The right tree has the blocks of the left one that lie on a path to a checkpoint
which is finalized at least as high as its frontier. -/
def Spreads
    (args : GenesisArgs)
    (store : Dict Str Block)
    (left right : BlockTree) : Prop :=
  ∀ forkHash fork forkWeight, Branch args store forkHash fork forkWeight →
    right.finalizedHeight ≤ fork.finalizedCheckpoint.2 →
    ∀ hash, left.weight.contains hash = true → OnPath args store fork hash →
      right.weight.contains hash = true

theorem Spreads.refl
    (args : GenesisArgs)
    (store : Dict Str Block)
    (tree : BlockTree) :
    Spreads args store tree tree :=
  fun _ _ _ _ _ _ known _ => known

/-- A known hash has a branch. -/
theorem Draws.branch_of_known
    (draws : Draws args blocks left)
    (known : left.weight.contains hash = true) :
    ∃ chain weight, left.HasBranch hash chain weight := by
  obtain ⟨weight, found⟩ := (Dict.contains_iff _ _).mp known
  obtain ⟨chain, branch, _⟩ := draws.invariant.store.branch hash weight found
  exact ⟨chain, weight, branch⟩

/-- A branch is known. -/
theorem Draws.known_of_branch
    (draws : Draws args blocks left)
    (branch : left.HasBranch hash chain weight) :
    left.weight.contains hash = true :=
  (Dict.contains_iff _ _).mpr ⟨_, (draws.invariant.store.recorded branch).1⟩

/-- Blocks spread over a tree that has not finalized more. -/
theorem Spreads.trans
    (first : Spreads args store left middle)
    (second : Spreads args store middle right)
    (lower : middle.finalizedHeight ≤ right.finalizedHeight) :
    Spreads args store left right := by
  intro forkHash fork forkWeight forkBranch low hash known onPath
  have there := first _ _ _ forkBranch (lower.trans low) hash known onPath
  exact second _ _ _ forkBranch low hash there onPath

/-! ## Agreement -/

/-- The blocks that one of two trees holds. -/
noncomputable def heldBy (blocks : Finset Block) (left right : BlockTree) : Finset Block :=
  open Classical in
  blocks.filter fun block =>
    left.blocks.get? block.hash = some block ∨ right.blocks.get? block.hash = some block

theorem mem_heldBy
    {block : Block} :
    block ∈ heldBy blocks left right ↔ block ∈ blocks ∧
      (left.blocks.get? block.hash = some block ∨
        right.blocks.get? block.hash = some block) := by
  rw [heldBy, Finset.mem_filter]

theorem Draws.heldBy_left
    (draws : Draws args blocks left)
    (right : BlockTree) :
    Draws args (heldBy blocks left right) left := by
  refine ⟨draws.invariant, draws.args_eq, draws.untrusting, fun hash block found => ?_⟩
  refine mem_heldBy.mpr ⟨draws.drawn hash block found, .inl ?_⟩
  rw [(draws.invariant.store.block_sound hash block found).1]
  exact found

theorem Draws.heldBy_right
    (draws : Draws args blocks right)
    (left : BlockTree) :
    Draws args (heldBy blocks left right) right := by
  refine ⟨draws.invariant, draws.args_eq, draws.untrusting, fun hash block found => ?_⟩
  refine mem_heldBy.mpr ⟨draws.drawn hash block found, .inr ?_⟩
  rw [(draws.invariant.store.block_sound hash block found).1]
  exact found

/-- A stored block is valid on a branch of stored blocks. -/
theorem Draws.valid
    {block : Block}
    (draws : Draws args blocks left)
    (stored : left.blocks.get? block.hash = some block) :
    ∃ before after, Inside args blocks before ∧ before.submitBlock block = .ok after := by
  have known := (draws.invariant.store.block_sound _ _ stored).2.2.2
  obtain ⟨chain, weight, branch⟩ := draws.branch_of_known known
  have fresh := (draws.invariant.store.block_sound _ _ stored).2.1
  rw [draws.invariant.store.genesisHash_eq, draws.args_eq] at fresh
  rw [HasBranch, draws.args_eq] at branch
  generalize sameHash : block.hash = hash at branch
  cases branch with
  | genesis _ => exact absurd sameHash fresh
  | extend earlier found _ _ submitted =>
      rw [← sameHash] at found
      rw [Option.some.inj (stored.symm.trans found)]
      exact ⟨_, _, inside_of_branch draws.drawn earlier, submitted⟩

/-- What trees hold can be delivered. -/
theorem Draws.deliverable_heldBy
    (leftDraws : Draws args blocks left)
    (rightDraws : Draws args blocks right)
    (deliverable : Deliverable args blocks) :
    Deliverable args (heldBy blocks left right) := by
  have inside : ∀ {chain : ProofOfStakeChain}, Inside args (heldBy blocks left right) chain →
      Inside args blocks chain := by
    intro chain inside
    exact inside.mono fun _ block held => (mem_heldBy.mp held).1
  refine ⟨fun block held => ?_, ?_, ?_, ?_⟩
  · rcases (mem_heldBy.mp held).2 with here | there
    · exact (leftDraws.heldBy_left right).valid here
    · exact (rightDraws.heldBy_right left).valid there
  · exact fun one other insideOne insideOther =>
      deliverable.agree one other (inside insideOne) (inside insideOther)
  · exact fun one heldOne other heldOther =>
      deliverable.distinct one (mem_heldBy.mp heldOne).1 other (mem_heldBy.mp heldOther).1
  · exact fun block held => deliverable.fresh block (mem_heldBy.mp held).1

/-- A tree that blocks spread to has what could be chosen of both. -/
theorem Spreads.covers
    {held : Dict Str Block}
    (spreads : Spreads args store left right)
    (rightDraws : Draws args blocks right)
    (deliverable : Deliverable args blocks)
    (reference : Reference blocks store)
    (stored : ∀ hash block, held.get? hash = some block → block ∈ blocks ∧
      (left.weight.contains hash = true ∨ right.weight.contains hash = true)) :
    Covers args held right := by
  have drawn : ∀ hash block, held.get? hash = some block → block ∈ blocks :=
    fun hash block found => (stored hash block found).1
  intro forkHash fork forkWeight forkBranch low hash chain weight branch passes
  obtain ⟨forkCopy, forkReference, forkBare⟩ :=
    deliverable.reference_of_branch reference drawn forkBranch
  obtain ⟨copy, copyReference, copyBare⟩ :=
    deliverable.reference_of_branch reference drawn branch
  have finalized : forkCopy.finalizedCheckpoint = fork.finalizedCheckpoint := by
    rw [finalizedCheckpoint, finalizedCheckpoint, state_eq_of_bare forkBare]
  have known : right.weight.contains hash = true := by
    cases branch with
    | genesis _ =>
        have known := rightDraws.invariant.store.genesis_known
        rwa [rightDraws.invariant.store.genesisHash_eq, rightDraws.args_eq] at known
    | extend _ found _ _ _ =>
        rcases (stored _ _ found).2 with here | there
        · have passesCopy : copy.Passes forkCopy.finalizedCheckpoint := by
            rw [finalized]
            exact passes_of_bare copyBare passes
          exact spreads _ _ _ forkReference (finalized ▸ low) _ here
            ⟨_, _, _, _, _, copyReference, passesCopy, copyReference, copyReference.passes_head⟩
        · exact there
  obtain ⟨kept, keptWeight, keptBranch⟩ := rightDraws.branch_of_known known
  obtain ⟨there, bare⟩ :=
    rightDraws.branch_of_reference deliverable reference keptBranch copyReference
  exact ⟨kept, there, bare.trans copyBare.symm⟩

/-- Trees whose blocks spread to each other agree. -/
theorem Spreads.agree
    (there : Spreads args store left right)
    (back : Spreads args store right left)
    (leftDraws : Draws args blocks left)
    (rightDraws : Draws args blocks right)
    (deliverable : Deliverable args blocks)
    (reference : Reference blocks store) :
    left.finalizedHash = right.finalizedHash ∧
      left.finalizedHeight = right.finalizedHeight ∧
      left.headHash = right.headHash ∧
      left.canonical.state = right.canonical.state ∧
      left.canonical.chain.map Block.unsealed = right.canonical.chain.map Block.unsealed := by
  obtain ⟨held, heldReference⟩ := exists_reference (heldBy blocks left right)
  have stored : ∀ hash block, held.get? hash = some block → block ∈ blocks ∧
      (left.weight.contains hash = true ∨ right.weight.contains hash = true) := by
    intro hash block found
    obtain ⟨inside, rfl⟩ := heldReference.sound hash block found
    obtain ⟨member, either⟩ := mem_heldBy.mp inside
    refine ⟨member, either.imp (fun here => ?_) fun there => ?_⟩
    · exact (leftDraws.invariant.store.block_sound _ _ here).2.2.2
    · exact (rightDraws.invariant.store.block_sound _ _ there).2.2.2
  have leftCovers := back.covers leftDraws deliverable reference
    fun hash block found => (stored hash block found).imp_right Or.symm
  have rightCovers := there.covers rightDraws deliverable reference stored
  exact leftCovers.converge rightCovers (leftDraws.heldBy_left right)
    (rightDraws.heldBy_right left) (leftDraws.deliverable_heldBy rightDraws deliverable)
    heldReference

end BlockTree

end Mindees
