import Mindees.Consensus.AccountableSafety
import Mindees.ForkChoice.HeadChoice
import Mindees.ForkChoice.Seals

/-!
# Convergence

Trees that receive the same blocks, each in an order that puts parents first,
agree on the frontier, the head and the canonical state.  What one tree refuses
and another one keeps lies on branches that neither can choose.
-/

namespace Mindees

open Library ProofOfStakeChain

section

variable [Primitives]

/-! ## Sets of blocks -/

/-- The branches inside a set of blocks. -/
abbrev Inside
    (args : GenesisArgs)
    (blocks : Finset Block)
    (chain : ProofOfStakeChain) : Prop :=
  ReachableBy args (fun _ block => block ∈ blocks) chain

/-- Blocks that are each valid in the replayed state of their parent, whose
branches do not finalize apart, and whose hashes do not collide. -/
structure Deliverable (args : GenesisArgs) (blocks : Finset Block) : Prop where
  valid : ∀ block ∈ blocks, ∃ before after, Inside args blocks before ∧
    before.submitBlock block = .ok after
  agree : ∀ left right, Inside args blocks left → Inside args blocks right →
    ¬Conflict left right
  /-- Hashes tell blocks apart, up to the proposer's seal. -/
  distinct : ∀ left ∈ blocks, ∀ right ∈ blocks, left.hash = right.hash →
    left.unsealed = right.unsealed
  fresh : ∀ block ∈ blocks, block.hash ≠ genesisHash args

/-- An order in which every parent comes before its children. -/
def ParentsFirst (args : GenesisArgs) (order : List Block) : Prop :=
  ∀ position, (inside : position < order.length) →
    order[position].previousHash = genesisHash args ∨
      ∃ parent ∈ order.take position, parent.hash = order[position].previousHash

instance (args : GenesisArgs) (order : List Block) : Decidable (ParentsFirst args order) :=
  inferInstanceAs (Decidable (∀ position, (inside : position < order.length) → _))

theorem ParentsFirst.of_split
    {args : GenesisArgs}
    {order earlier later : List Block}
    {block : Block}
    (parentsFirst : ParentsFirst args order)
    (split : order = earlier ++ block :: later) :
    block.previousHash = genesisHash args ∨
      ∃ parent ∈ earlier, parent.hash = block.previousHash := by
  subst split
  have inside : earlier.length < (earlier ++ block :: later).length := by simp
  have first := parentsFirst earlier.length inside
  rw [List.getElem_append_right (le_refl _), List.take_left] at first
  simp only [Nat.sub_self, List.getElem_cons_zero] at first
  exact first

/-- A store with one block of the set for each hash. -/
structure Reference (blocks : Finset Block) (store : Dict Str Block) : Prop where
  sound : ∀ hash block, store.get? hash = some block → block ∈ blocks ∧ block.hash = hash
  complete : ∀ block ∈ blocks, store.contains block.hash = true

theorem exists_reference (blocks : Finset Block) : ∃ store, Reference blocks store := by
  induction blocks using Finset.induction_on with
  | empty =>
      refine ⟨Dict.empty, fun hash block found => ?_, fun block inside => ?_⟩
      · cases found
      · exact absurd inside (Finset.notMem_empty block)
  | insert block rest _ inductionHypothesis =>
      obtain ⟨store, sound, complete⟩ := inductionHypothesis
      refine ⟨store.set block.hash block, fun hash other found => ?_, fun other inside => ?_⟩
      · rw [Dict.get?_set] at found
        split_ifs at found with same
        · cases found
          exact ⟨Finset.mem_insert_self _ _, same⟩
        · obtain ⟨inside, equal⟩ := sound hash other found
          exact ⟨Finset.mem_insert_of_mem inside, equal⟩
      · rw [Dict.contains_set, Bool.or_eq_true]
        rcases Finset.mem_insert.mp inside with rfl | inside
        · exact .inl (decide_eq_true rfl)
        · exact .inr (complete other inside)

section

variable {args : GenesisArgs} {blocks : Finset Block} {store kept : Dict Str Block}
  {left right before after chain : ProofOfStakeChain} {block : Block} {hash : Str} {weight : Int}

/-- The branches of one head inside the set differ in seals only. -/
theorem Deliverable.bare_unique
    (deliverable : Deliverable args blocks)
    (inside : Inside args blocks left)
    (insideToo : Inside args blocks right)
    (sameHead : left.head.hash = right.head.hash) :
    left.bare = right.bare := by
  induction inside generalizing right with
  | genesis initialised =>
      rw [head_init initialised] at sameHead
      cases insideToo with
      | genesis again => rw [Except.ok.inj (initialised.symm.trans again)]
      | block _ member submitted =>
          rw [head_submitBlock submitted] at sameHead
          exact absurd sameHead.symm (deliverable.fresh _ member)
  | @block before after block earlier member submitted inductionHypothesis =>
      rw [head_submitBlock submitted] at sameHead
      cases insideToo with
      | genesis initialised =>
          rw [head_init initialised] at sameHead
          exact absurd sameHead (deliverable.fresh _ member)
      | @block beforeToo _ _ earlierToo memberToo submittedToo =>
          rw [head_submitBlock submittedToo] at sameHead
          have unsealed := deliverable.distinct _ member _ memberToo sameHead
          have parents : before.head.hash = beforeToo.head.hash := by
            rw [← (submitted_of_submitBlock submitted).previous,
              ← (submitted_of_submitBlock submittedToo).previous]
            exact Block.previousHash_eq_of_unsealed unsealed
          exact bare_submitBlock (inductionHypothesis earlierToo parents) unsealed submitted
            submittedToo

/-- Stored branches of blocks of the set lie inside it. -/
theorem inside_of_branch
    (drawn : ∀ hash block, kept.get? hash = some block → block ∈ blocks)
    (branch : Branch args kept hash chain weight) :
    Inside args blocks chain := by
  induction branch with
  | genesis initialised => exact .genesis initialised
  | extend _ stored _ _ submitted inductionHypothesis =>
      exact .block inductionHypothesis (drawn _ _ stored) submitted

/-- A block of the set extends the reference branch of its parent. -/
theorem Deliverable.reference_extend
    (deliverable : Deliverable args blocks)
    (reference : Reference blocks store)
    (inside : Inside args blocks before)
    (branch : Branch args store before.head.hash left weight)
    (bare : before.bare = left.bare)
    (member : block ∈ blocks)
    (submitted : before.submitBlock block = .ok after) :
    ∃ right, Branch args store block.hash right (weight + before.stakeOf block.validator) ∧
      after.bare = right.bare := by
  obtain ⟨variant, found⟩ := (Dict.contains_iff _ _).mp (reference.complete block member)
  obtain ⟨variantMember, sameHash⟩ := reference.sound _ _ found
  have unsealed := deliverable.distinct _ member _ variantMember sameHash.symm
  -- the variant is valid in some replay of the parent, and so in the reference one
  obtain ⟨parent, extended, parentInside, accepted⟩ := deliverable.valid variant variantMember
  have previous : variant.previousHash = before.head.hash := by
    rw [← (submitted_of_submitBlock submitted).previous]
    exact (Block.previousHash_eq_of_unsealed unsealed).symm
  have parentBare : parent.bare = left.bare := by
    rw [← bare]
    refine deliverable.bare_unique parentInside inside ?_
    rw [← previous, (submitted_of_submitBlock accepted).previous]
  obtain ⟨right, acceptedThere, _⟩ := submitBlock_of_bare parentBare accepted
  have stakes : before.stakeOf block.validator = left.stakeOf variant.validator := by
    rw [stakeOf, stakeOf, state_eq_of_bare bare, Block.validator_eq_of_unsealed unsealed]
  rw [← sameHash] at found ⊢
  refine ⟨right, ?_, bare_submitBlock bare unsealed submitted acceptedThere⟩
  rw [stakes]
  exact .extend branch found (deliverable.fresh _ variantMember) previous acceptedThere

/-- The reference branch of a stored branch has the same weight. -/
theorem Deliverable.reference_of_branch
    (deliverable : Deliverable args blocks)
    (reference : Reference blocks store)
    (drawn : ∀ hash block, kept.get? hash = some block → block ∈ blocks)
    (branch : Branch args kept hash chain weight) :
    ∃ left, Branch args store hash left weight ∧ chain.bare = left.bare := by
  induction branch with
  | genesis initialised => exact ⟨_, .genesis initialised, rfl⟩
  | extend earlier stored _ previous submitted inductionHypothesis =>
      obtain ⟨left, branch, bare⟩ := inductionHypothesis
      rw [← earlier.head_hash] at branch
      exact deliverable.reference_extend reference (inside_of_branch drawn earlier) branch bare
        (drawn _ _ stored) submitted

/-- The reference branch of a block goes through that of its parent. -/
theorem Deliverable.reference_parent
    (deliverable : Deliverable args blocks)
    (reference : Reference blocks store)
    (member : block ∈ blocks)
    (branch : Branch args store block.hash chain weight) :
    ∃ parent parentWeight, Branch args store block.previousHash parent parentWeight ∧
      chain.Passes (block.previousHash, parent.head.index) ∧
      chain.head.index = parent.head.index + 1 := by
  generalize sameHash : block.hash = hash at branch
  cases branch with
  | genesis _ => exact absurd sameHash (deliverable.fresh block member)
  | @extend _ parent _ variant parentWeight earlier stored _ previous submitted =>
      have unsealed :=
        deliverable.distinct _ member _ (reference.sound _ _ stored).1 sameHash
      have accepted := submitted_of_submitBlock submitted
      rw [Block.previousHash_eq_of_unsealed unsealed, previous]
      refine ⟨parent, parentWeight, earlier, earlier.passes_head.submitBlock submitted, ?_⟩
      rw [accepted.newest, accepted.index]

/-- A reference branch passes what another one finalizes lower. -/
theorem Deliverable.passes_lower_finalized
    {leftHash rightHash : Str}
    {leftWeight rightWeight : Int}
    (deliverable : Deliverable args blocks)
    (reference : Reference blocks store)
    (leftBranch : Branch args store leftHash left leftWeight)
    (rightBranch : Branch args store rightHash right rightWeight)
    (lower : left.finalizedCheckpoint.2 ≤ right.finalizedCheckpoint.2) :
    right.Passes left.finalizedCheckpoint := by
  have drawn : ∀ hash block, store.get? hash = some block → block ∈ blocks :=
    fun hash block found => (reference.sound hash block found).1
  have leftPasses := leftBranch.reachable.passes_finalized
  have rightPasses := rightBranch.reachable.passes_finalized
  have agree := deliverable.agree left right (inside_of_branch drawn leftBranch)
    (inside_of_branch drawn rightBranch)
  rw [Conflict, not_and_or, not_not, not_not] at agree
  rcases agree with onRight | onLeft
  · exact leftBranch.passes_of_mem leftPasses rightBranch onRight
  · have common := rightBranch.passes_of_mem rightPasses leftBranch onLeft
    exact leftBranch.passes_of_common common rightBranch rightPasses leftPasses lower

end

/-! ## Trees that draw from the set -/

namespace BlockTree

/-- A tree that trusts no checkpoint and holds blocks of the set only. -/
structure Draws (args : GenesisArgs) (blocks : Finset Block) (tree : BlockTree) : Prop where
  invariant : tree.Invariant
  args_eq : tree.genesisArgs = args
  untrusting : tree.wsCheckpoint = none
  drawn : ∀ hash block, tree.blocks.get? hash = some block → block ∈ blocks

section

variable {args : GenesisArgs} {blocks : Finset Block} {store : Dict Str Block}
  {tree start : BlockTree} {top chain fork : ProofOfStakeChain} {block : Block}
  {hash topHash forkHash : Str} {weight topWeight forkWeight : Int}

theorem draws_init
    (initialised : init args none = .ok start) :
    Draws args blocks start := by
  have invariant := invariant_init initialised
  obtain ⟨chain, _, rfl⟩ := (init_eq_ok args none start).mp initialised
  refine ⟨invariant, rfl, rfl, fun hash block stored => ?_⟩
  cases stored

theorem Draws.addBlock
    (draws : Draws args blocks tree)
    (member : block ∈ blocks) :
    Draws args blocks (tree.addBlock block).2 := by
  rcases draws.invariant.addBlock_cases block with
    ⟨_, same⟩ | ⟨_, _, _, same⟩ | ⟨_, _, _, _, _, _, _, _, grows, grown⟩
  · rwa [same]
  · rwa [same]
  · refine ⟨grown, grows.args.trans draws.args_eq, grows.checkpoint.trans draws.untrusting, ?_⟩
    intro hash other found
    rw [grows.blocks, Dict.get?_set] at found
    split_ifs at found
    · cases found
      exact member
    · exact draws.drawn hash other found

theorem Draws.deliver
    (draws : Draws args blocks tree)
    {order : List Block}
    (members : ∀ block ∈ order, block ∈ blocks) :
    Draws args blocks (tree.deliver order) := by
  induction order generalizing tree with
  | nil => exact draws
  | cons block rest inductionHypothesis =>
      have step := draws.addBlock (members block List.mem_cons_self)
      exact inductionHypothesis step fun other inside =>
        members other (List.mem_cons_of_mem block inside)

/-- The reference branch of a stored block. -/
theorem Draws.reference
    (draws : Draws args blocks tree)
    (deliverable : Deliverable args blocks)
    (reference : Reference blocks store)
    (branch : tree.HasBranch hash chain weight) :
    ∃ left, Branch args store hash left weight ∧ chain.bare = left.bare := by
  rw [HasBranch, draws.args_eq] at branch
  exact deliverable.reference_of_branch reference draws.drawn branch

/-- A stored block's reference branch is what the tree replays for it. -/
theorem Draws.branch_of_reference
    {other : ProofOfStakeChain}
    {otherWeight : Int}
    (draws : Draws args blocks tree)
    (deliverable : Deliverable args blocks)
    (reference : Reference blocks store)
    (branch : tree.HasBranch hash other otherWeight)
    (referenceBranch : Branch args store hash chain weight) :
    tree.HasBranch hash other weight ∧ other.bare = chain.bare := by
  obtain ⟨left, leftBranch, bare⟩ := draws.reference deliverable reference branch
  obtain ⟨rfl, rfl⟩ := leftBranch.unique referenceBranch
  exact ⟨branch, bare⟩

/-- A reference branch that finalizes at least as high as the tree passes the
frontier of the tree. -/
theorem Draws.passes_frontier
    (draws : Draws args blocks tree)
    (deliverable : Deliverable args blocks)
    (reference : Reference blocks store)
    (forkBranch : Branch args store forkHash fork forkWeight)
    (low : tree.finalizedHeight ≤ fork.finalizedCheckpoint.2) :
    fork.Passes tree.frontier := by
  obtain ⟨hash, chain, weight, branch, finalized⟩ := draws.invariant.frontier_finalized
  obtain ⟨left, leftBranch, bare⟩ := draws.reference deliverable reference branch
  have frontier : left.finalizedCheckpoint = tree.frontier := by
    rw [← finalized, finalizedCheckpoint, finalizedCheckpoint, state_eq_of_bare bare]
  have lower : left.finalizedCheckpoint.2 ≤ fork.finalizedCheckpoint.2 := by
    rw [frontier]
    exact low
  rw [← frontier]
  exact deliverable.passes_lower_finalized reference leftBranch forkBranch lower

/-- What the tree's frontier branch passes is stored. -/
theorem Draws.stored_below_frontier
    {height : Int}
    (draws : Draws args blocks tree)
    (deliverable : Deliverable args blocks)
    (reference : Reference blocks store)
    (topBranch : Branch args store topHash top topWeight)
    (topFrontier : top.Passes tree.frontier)
    (onTop : top.Passes (hash, height))
    (below : height ≤ tree.finalizedHeight) :
    ∃ kept keptWeight, tree.HasBranch hash kept keptWeight := by
  obtain ⟨lower, lowerWeight, lowerBranch, _⟩ := draws.invariant.frontier_branch
  have lowerFrontier := draws.invariant.frontier_passes lowerBranch
  obtain ⟨left, leftBranch, bare⟩ := draws.reference deliverable reference lowerBranch
  have passes : left.Passes (hash, height) :=
    topBranch.passes_of_common topFrontier leftBranch (passes_of_bare bare lowerFrontier) onTop
      below
  obtain ⟨kept, keptWeight, keptBranch, _⟩ :=
    lowerBranch.ancestor (passes_of_bare bare.symm passes)
  exact ⟨kept, keptWeight, keptBranch⟩

/-- A valid block on a stored branch that passes the frontier is stored. -/
theorem Draws.accepts
    {before after : ProofOfStakeChain}
    {parentWeight : Int}
    (draws : Draws args blocks tree)
    (parentBranch : tree.HasBranch block.previousHash before parentWeight)
    (passes : before.Passes tree.frontier)
    (submitted : before.submitBlock block = .ok after) :
    ∃ kept keptWeight, (tree.addBlock block).2.HasBranch block.hash kept keptWeight := by
  have invariant := draws.invariant
  rcases invariant.addBlock_cases block with
    ⟨known, same⟩ | ⟨new, refused, _⟩ | ⟨new, _, _, _, child, _, _, _, grows, _⟩
  · obtain ⟨weight, found⟩ := (Dict.contains_iff _ _).mp known
    obtain ⟨chain, branch, _⟩ := invariant.store.branch _ weight found
    rw [same]
    exact ⟨chain, weight, branch⟩
  · have trust : tree.trusts (before.head.index + 1) block.hash := by
      intro checkpoint trusted
      rw [draws.untrusting] at trusted
      cases trusted
    let admission : Admission :=
      ⟨before.head.index + 1, after, parentWeight + before.stakeOf block.validator⟩
    have admitted : tree.examine block = .ok admission :=
      (invariant.examine_eq_ok new admission).mpr
        ⟨before, parentWeight, ⟨parentBranch, submitted, rfl, rfl⟩, passes, trust⟩
    exact absurd admitted (refused admission)
  · exact ⟨_, _, grows.new_branch invariant.store new child⟩

/-- The block lies on a reference branch that passes what another one
finalizes. -/
def OnPath
    (args : GenesisArgs)
    (store : Dict Str Block)
    (fork : ProofOfStakeChain)
    (hash : Str) : Prop :=
  ∃ topHash top topWeight chain weight, Branch args store topHash top topWeight ∧
    top.Passes fork.finalizedCheckpoint ∧ Branch args store hash chain weight ∧
    top.Passes (hash, chain.head.index)

/-- The parents of a path lie on it. -/
theorem OnPath.parent
    (deliverable : Deliverable args blocks)
    (reference : Reference blocks store)
    (member : block ∈ blocks)
    (onPath : OnPath args store fork block.hash) :
    OnPath args store fork block.previousHash := by
  obtain ⟨topHash, top, topWeight, chain, weight, topBranch, topPasses, branch, onTop⟩ := onPath
  obtain ⟨parent, parentWeight, parentBranch, passes, next⟩ :=
    deliverable.reference_parent reference member branch
  have below : parent.head.index ≤ chain.head.index := by omega
  exact ⟨topHash, top, topWeight, parent, parentWeight, topBranch, topPasses, parentBranch,
    branch.passes_of_common branch.passes_head topBranch onTop passes below⟩

/-- A block on a path to a checkpoint at least as high as the frontier is stored
once its parent is. -/
theorem Draws.stores
    {before : ProofOfStakeChain}
    {parentWeight : Int}
    (draws : Draws args blocks tree)
    (deliverable : Deliverable args blocks)
    (reference : Reference blocks store)
    (forkBranch : Branch args store forkHash fork forkWeight)
    (low : tree.finalizedHeight ≤ fork.finalizedCheckpoint.2)
    (member : block ∈ blocks)
    (onPath : OnPath args store fork block.hash)
    (parentBranch : tree.HasBranch block.previousHash before parentWeight) :
    ∃ kept keptWeight, (tree.addBlock block).2.HasBranch block.hash kept keptWeight := by
  obtain ⟨topHash, top, topWeight, chain, weight, topBranch, topPasses, branch, onTop⟩ := onPath
  have invariant := draws.invariant
  have topFrontier : top.Passes tree.frontier :=
    forkBranch.passes_of_common forkBranch.reachable.passes_finalized topBranch topPasses
      (draws.passes_frontier deliverable reference forkBranch low) low
  obtain ⟨beforeReference, beforeBranch, bare⟩ :=
    draws.reference deliverable reference parentBranch
  have parentInside : Inside args blocks before := by
    have branch := parentBranch
    rw [HasBranch, draws.args_eq] at branch
    exact inside_of_branch draws.drawn branch
  -- the block is valid on the tree's replay of its parent
  obtain ⟨replayed, _, replayedInside, accepted⟩ := deliverable.valid block member
  have sameParent : replayed.bare = before.bare := by
    refine deliverable.bare_unique replayedInside parentInside ?_
    rw [← (submitted_of_submitBlock accepted).previous, parentBranch.head_hash]
  obtain ⟨after, submitted, _⟩ := submitBlock_of_bare sameParent accepted
  obtain ⟨parent, _, parentReference, passesParent, next⟩ :=
    deliverable.reference_parent reference member branch
  obtain ⟨rfl, _⟩ := parentReference.unique beforeBranch
  rcases le_or_gt tree.finalizedHeight parent.head.index with reached | above
  · have topParent : top.Passes (block.previousHash, parent.head.index) :=
      branch.passes_of_common branch.passes_head topBranch onTop passesParent (by simp only; omega)
    have parentFrontier : parent.Passes tree.frontier :=
      topBranch.passes_of_common topParent parentReference parentReference.passes_head
        topFrontier reached
    exact draws.accepts parentBranch (passes_of_bare bare.symm parentFrontier) submitted
  · obtain ⟨kept, keptWeight, keptBranch⟩ :=
      draws.stored_below_frontier deliverable reference topBranch topFrontier onTop (by omega)
    exact ⟨kept, keptWeight, (invariant.leadsTo_addBlock block).branches _ _ _ keptBranch⟩

/-- Every block of the path that has been delivered is stored. -/
theorem Draws.stores_delivered
    (draws : Draws args blocks start)
    (deliverable : Deliverable args blocks)
    (reference : Reference blocks store)
    (forkBranch : Branch args store forkHash fork forkWeight)
    {order : List Block}
    (members : ∀ block ∈ order, block ∈ blocks)
    (parentsFirst : ParentsFirst args order)
    (low : (start.deliver order).finalizedHeight ≤ fork.finalizedCheckpoint.2)
    {delivered rest : List Block}
    (split : order = delivered ++ rest)
    {block : Block}
    (inside : block ∈ delivered)
    (onPath : OnPath args store fork block.hash) :
    ∃ kept keptWeight, (start.deliver delivered).HasBranch block.hash kept keptWeight := by
  induction delivered using List.reverseRecOn generalizing rest block with
  | nil => exact absurd inside List.not_mem_nil
  | append_singleton earlier last inductionHypothesis =>
      have earlierSplit : order = earlier ++ ([last] ++ rest) := by
        rw [split, List.append_assoc]
      have earlierMembers : ∀ block ∈ earlier, block ∈ blocks := fun block inside =>
        members block (earlierSplit ▸ List.mem_append_left _ inside)
      have earlierDraws := draws.deliver earlierMembers
      rw [deliver_append]
      rcases List.mem_append.mp inside with before | newest
      · obtain ⟨kept, keptWeight, branch⟩ := inductionHypothesis earlierSplit before onPath
        exact ⟨kept, keptWeight,
          (earlierDraws.invariant.leadsTo_addBlock last).branches _ _ _ branch⟩
      · obtain rfl := List.mem_singleton.mp newest
        have member : block ∈ blocks :=
          members block (earlierSplit ▸ List.mem_append_right _ List.mem_cons_self)
        have lower : (start.deliver earlier).finalizedHeight ≤ fork.finalizedCheckpoint.2 := by
          have leads := earlierDraws.invariant.leadsTo_deliver ([block] ++ rest)
          rw [← deliver_append, ← earlierSplit] at leads
          exact leads.height.trans low
        obtain ⟨before, parentWeight, parentBranch⟩ : ∃ before parentWeight,
            (start.deliver earlier).HasBranch block.previousHash before parentWeight := by
          rcases parentsFirst.of_split earlierSplit with first | ⟨parent, found, same⟩
          · have store := earlierDraws.invariant.store
            refine (store.stored_iff _).mp (.inl ?_)
            rw [first, store.genesisHash_eq, earlierDraws.args_eq]
          · rw [← same]
            exact inductionHypothesis earlierSplit found
              (same ▸ onPath.parent deliverable reference member)
        exact earlierDraws.stores deliverable reference forkBranch lower member onPath parentBranch

/-! ## Two deliveries -/

/-- The tree stores every reference branch that passes a checkpoint which is
finalized at least as high as its frontier. -/
def Covers (args : GenesisArgs) (store : Dict Str Block) (tree : BlockTree) : Prop :=
  ∀ forkHash fork forkWeight, Branch args store forkHash fork forkWeight →
    tree.finalizedHeight ≤ fork.finalizedCheckpoint.2 →
    ∀ hash chain weight, Branch args store hash chain weight →
      chain.Passes fork.finalizedCheckpoint →
      ∃ kept, tree.HasBranch hash kept weight ∧ kept.bare = chain.bare

theorem Draws.covers
    (draws : Draws args blocks start)
    (deliverable : Deliverable args blocks)
    (reference : Reference blocks store)
    {order : List Block}
    (members : ∀ block, block ∈ order ↔ block ∈ blocks)
    (parentsFirst : ParentsFirst args order) :
    Covers args store (start.deliver order) := by
  intro forkHash fork forkWeight forkBranch low hash chain weight branch passes
  have final := draws.deliver fun block inside => (members block).mp inside
  obtain ⟨kept, keptWeight, keptBranch⟩ : ∃ kept keptWeight,
      (start.deliver order).HasBranch hash kept keptWeight := by
    cases branch with
    | genesis _ =>
        have consistent := final.invariant.store
        refine (consistent.stored_iff _).mp (.inl ?_)
        rw [consistent.genesisHash_eq, final.args_eq]
    | extend earlier stored fresh previous submitted =>
        have branch := Branch.extend earlier stored fresh previous submitted
        have onPath : OnPath args store fork _ :=
          ⟨_, _, _, _, _, branch, passes, branch, branch.passes_head⟩
        exact draws.stores_delivered deliverable reference forkBranch
          (fun block inside => (members block).mp inside) parentsFirst low
          (List.append_nil order).symm ((members _).mpr (reference.sound _ _ stored).1) onPath
  obtain ⟨kept', bare⟩ := final.branch_of_reference deliverable reference keptBranch branch
  exact ⟨kept, kept', bare⟩

section

variable {left right : BlockTree}

/-- The tree with the lower frontier has the higher one. -/
theorem Covers.frontier_eq
    (covers : Covers args store left)
    (leftDraws : Draws args blocks left)
    (rightDraws : Draws args blocks right)
    (deliverable : Deliverable args blocks)
    (reference : Reference blocks store)
    (lower : left.finalizedHeight ≤ right.finalizedHeight) :
    left.frontier = right.frontier := by
  obtain ⟨hash, chain, weight, branch, finalized⟩ := rightDraws.invariant.frontier_finalized
  obtain ⟨fork, forkBranch, forkBare⟩ := rightDraws.reference deliverable reference branch
  have forkFinal : fork.finalizedCheckpoint = right.frontier := by
    rw [← finalized, finalizedCheckpoint, finalizedCheckpoint, state_eq_of_bare forkBare]
  have reached : left.finalizedHeight ≤ fork.finalizedCheckpoint.2 := by
    rw [forkFinal]
    exact lower
  obtain ⟨kept, keptBranch, keptBare⟩ := covers _ _ _ forkBranch reached _ _ _ forkBranch
    forkBranch.reachable.passes_finalized
  have keptFinal : kept.finalizedCheckpoint = right.frontier := by
    rw [← forkFinal, finalizedCheckpoint, finalizedCheckpoint, state_eq_of_bare keptBare]
  rcases leftDraws.invariant.frontier_highest _ _ _ keptBranch with same | below
  · rw [← same, keptFinal]
  · rw [keptFinal] at below
    exact absurd below (not_lt.mpr lower)

/-- What can be the head of one tree is stored in the other. -/
theorem Covers.transfer
    (covers : Covers args store right)
    (leftDraws : Draws args blocks left)
    (deliverable : Deliverable args blocks)
    (reference : Reference blocks store)
    (sameFrontier : left.frontier = right.frontier)
    (branch : left.HasBranch hash chain weight)
    (passes : chain.Passes left.frontier) :
    ∃ kept, right.HasBranch hash kept weight ∧ kept.bare = chain.bare ∧
      kept.Passes right.frontier := by
  obtain ⟨_, final, _, finalBranch, finalized⟩ := leftDraws.invariant.frontier_finalized
  obtain ⟨fork, forkBranch, forkBare⟩ := leftDraws.reference deliverable reference finalBranch
  obtain ⟨copy, copyBranch, copyBare⟩ := leftDraws.reference deliverable reference branch
  have forkFinal : fork.finalizedCheckpoint = left.frontier := by
    rw [← finalized, finalizedCheckpoint, finalizedCheckpoint, state_eq_of_bare forkBare]
  have reached : right.finalizedHeight ≤ fork.finalizedCheckpoint.2 := by
    rw [forkFinal, sameFrontier]
    exact le_refl _
  have copyPasses : copy.Passes fork.finalizedCheckpoint := by
    rw [forkFinal]
    exact passes_of_bare copyBare passes
  obtain ⟨kept, keptBranch, keptBare⟩ := covers _ _ _ forkBranch reached _ _ _ copyBranch copyPasses
  refine ⟨kept, keptBranch, keptBare.trans copyBare.symm, ?_⟩
  rw [← sameFrontier, ← forkFinal]
  exact passes_of_bare keptBare.symm copyPasses

/-- Trees that cover the same branches and have one frontier choose one head. -/
theorem Covers.head_eq
    (leftCovers : Covers args store left)
    (rightCovers : Covers args store right)
    (leftDraws : Draws args blocks left)
    (rightDraws : Draws args blocks right)
    (deliverable : Deliverable args blocks)
    (reference : Reference blocks store)
    (sameFrontier : left.frontier = right.frontier) :
    left.headHash = right.headHash ∧ left.canonical.bare = right.canonical.bare := by
  obtain ⟨leftWeight, leftHead⟩ := leftDraws.invariant.head
  obtain ⟨rightWeight, rightHead⟩ := rightDraws.invariant.head
  obtain ⟨leftKept, leftThere, leftBare, leftPasses⟩ := rightCovers.transfer leftDraws deliverable
    reference sameFrontier leftHead leftDraws.invariant.head_passes
  obtain ⟨rightKept, rightThere, _, rightPasses⟩ := leftCovers.transfer rightDraws deliverable
    reference sameFrontier.symm rightHead rightDraws.invariant.head_passes
  have same : left.headHash = right.headHash := by
    by_contra different
    have ahead := (rightDraws.invariant.head_best _ _ _ leftThere leftPasses).resolve_left different
    have under := (leftDraws.invariant.head_best _ _ _ rightThere rightPasses).resolve_left
      (Ne.symm different)
    -- both trees weigh both heads alike
    have leftRecorded := (leftDraws.invariant.store.recorded leftHead).1
    have rightRecorded := (leftDraws.invariant.store.recorded rightThere).1
    have leftRecordedThere := (rightDraws.invariant.store.recorded leftThere).1
    have rightRecordedThere := (rightDraws.invariant.store.recorded rightHead).1
    have alike : right.beats right.headHash left.headHash =
        left.beats right.headHash left.headHash := by
      simp only [beats, Dict.getD_eq_of_get? leftRecorded, Dict.getD_eq_of_get? rightRecorded,
        Dict.getD_eq_of_get? leftRecordedThere, Dict.getD_eq_of_get? rightRecordedThere]
    rw [alike, left.beats_strictTotal.asymm _ _ under] at ahead
    cases ahead
  refine ⟨same, ?_⟩
  rw [same] at leftThere
  obtain ⟨rfl, _⟩ := leftThere.unique rightHead
  exact leftBare.symm

/-- Trees that cover the same branches agree. -/
theorem Covers.converge
    (leftCovers : Covers args store left)
    (rightCovers : Covers args store right)
    (leftDraws : Draws args blocks left)
    (rightDraws : Draws args blocks right)
    (deliverable : Deliverable args blocks)
    (reference : Reference blocks store) :
    left.finalizedHash = right.finalizedHash ∧
      left.finalizedHeight = right.finalizedHeight ∧
      left.headHash = right.headHash ∧
      left.canonical.state = right.canonical.state ∧
      left.canonical.chain.map Block.unsealed = right.canonical.chain.map Block.unsealed := by
  have sameFrontier : left.frontier = right.frontier := by
    rcases le_total left.finalizedHeight right.finalizedHeight with lower | higher
    · exact leftCovers.frontier_eq leftDraws rightDraws deliverable reference lower
    · exact (rightCovers.frontier_eq rightDraws leftDraws deliverable reference higher).symm
  obtain ⟨sameHead, bare⟩ :=
    leftCovers.head_eq rightCovers leftDraws rightDraws deliverable reference sameFrontier
  exact ⟨congrArg Prod.fst sameFrontier, congrArg Prod.snd sameFrontier, sameHead,
    state_eq_of_bare bare, blocks_eq_of_bare bare⟩

end

/-- Fork choice converges: whatever the order in which two fresh trees receive
the blocks, parents first, they end with the same frontier, the same head and
the same canonical state. -/
theorem deliver_converges
    (deliverable : Deliverable args blocks)
    (initialised : init args none = .ok start)
    {leftOrder rightOrder : List Block}
    (leftMembers : ∀ block, block ∈ leftOrder ↔ block ∈ blocks)
    (rightMembers : ∀ block, block ∈ rightOrder ↔ block ∈ blocks)
    (leftParentsFirst : ParentsFirst args leftOrder)
    (rightParentsFirst : ParentsFirst args rightOrder) :
    (start.deliver leftOrder).finalizedHash = (start.deliver rightOrder).finalizedHash ∧
    (start.deliver leftOrder).finalizedHeight = (start.deliver rightOrder).finalizedHeight ∧
    (start.deliver leftOrder).headHash = (start.deliver rightOrder).headHash ∧
    (start.deliver leftOrder).canonical.state = (start.deliver rightOrder).canonical.state ∧
    (start.deliver leftOrder).canonical.chain.map Block.unsealed =
      (start.deliver rightOrder).canonical.chain.map Block.unsealed := by
  obtain ⟨store, reference⟩ := exists_reference blocks
  have draws : Draws args blocks start := draws_init initialised
  have leftDraws := draws.deliver fun block inside => (leftMembers block).mp inside
  have rightDraws := draws.deliver fun block inside => (rightMembers block).mp inside
  have leftCovers := draws.covers deliverable reference leftMembers leftParentsFirst
  have rightCovers := draws.covers deliverable reference rightMembers rightParentsFirst
  exact leftCovers.converge rightCovers leftDraws rightDraws deliverable reference

end

end BlockTree

/-! ## Finite sets of branches -/

section

variable {args : GenesisArgs} {blocks : Finset Block} {start chain : ProofOfStakeChain}

/-- The blocks of a replay are each valid in the replayed state of their
parent. -/
theorem valid_of_replay
    {path : List Block}
    (initialised : ProofOfStakeChain.init args = .ok start)
    (members : ∀ block ∈ path, block ∈ blocks)
    (replayed : start.submitBlocks path = .ok chain) :
    Inside args blocks chain ∧ ∀ block ∈ path, ∃ before after,
      Inside args blocks before ∧ before.submitBlock block = .ok after := by
  induction path using List.reverseRecOn generalizing chain with
  | nil =>
      cases replayed
      exact ⟨.genesis initialised, fun block inside => absurd inside List.not_mem_nil⟩
  | append_singleton earlier last inductionHypothesis =>
      obtain ⟨before, ran, submitted⟩ := (foldlM_concat_eq_ok _ _ _ _).mp replayed
      have earlierMembers : ∀ block ∈ earlier, block ∈ blocks :=
        fun block inside => members block (List.mem_append_left _ inside)
      obtain ⟨reached, valid⟩ := inductionHypothesis earlierMembers ran
      have member := members last (List.mem_append_right _ List.mem_cons_self)
      refine ⟨.block reached member submitted, fun block inside => ?_⟩
      rcases List.mem_append.mp inside with old | new
      · exact valid block old
      · rw [List.mem_singleton.mp new]
        exact ⟨before, chain, reached, submitted⟩

/-- Chains that the blocks of the set do not lead out of are all there are. -/
theorem mem_of_closed
    {chains : List ProofOfStakeChain}
    (initialised : ProofOfStakeChain.init args = .ok start)
    (first : start ∈ chains)
    (closed : ∀ chain ∈ chains, ∀ block ∈ blocks, ∀ after,
      chain.submitBlock block = .ok after → after ∈ chains)
    (inside : Inside args blocks chain) :
    chain ∈ chains := by
  induction inside with
  | genesis again => rwa [Except.ok.inj (again.symm.trans initialised)]
  | block _ member submitted inductionHypothesis =>
      exact closed _ inductionHypothesis _ member _ submitted

/-- The block leads to no chain outside the list. -/
def staysIn (chains : List ProofOfStakeChain) (chain : ProofOfStakeChain) (block : Block) :
    Bool :=
  match chain.submitBlock block with
  | .ok after => after ∈ chains
  | .error _ => true

/-- Blocks on paths that replay, all of whose branches are listed and agree. -/
theorem deliverable_of_paths
    {chains : List ProofOfStakeChain}
    {paths : List (List Block)}
    (initialised : ProofOfStakeChain.init args = .ok start)
    (listed : ∀ block, block ∈ blocks ↔ ∃ path ∈ paths, block ∈ path)
    (replayed : ∀ path ∈ paths, succeeded (start.submitBlocks path) = true)
    (closed : start ∈ chains ∧
      (∀ chain ∈ chains, ∀ path ∈ paths, ∀ block ∈ path, staysIn chains chain block = true) ∧
      ∀ left ∈ chains, ∀ right ∈ chains,
        left.state.finalized.1 ∈ right.chain.map Block.hash ∨
          right.state.finalized.1 ∈ left.chain.map Block.hash)
    (distinct : ∀ left ∈ blocks, ∀ right ∈ blocks, left.hash = right.hash →
      left.unsealed = right.unsealed)
    (fresh : ∀ block ∈ blocks, block.hash ≠ genesisHash args) :
    Deliverable args blocks := by
  obtain ⟨first, stays, agree⟩ := closed
  have known : ∀ chain, Inside args blocks chain → chain ∈ chains := by
    intro chain inside
    refine mem_of_closed initialised first ?_ inside
    intro chain present block member after submitted
    obtain ⟨path, onList, onPath⟩ := (listed block).mp member
    have there := stays chain present path onList block onPath
    rw [staysIn, submitted] at there
    exact of_decide_eq_true there
  refine ⟨fun block member => ?_, fun left right insideLeft insideRight apart => ?_, distinct,
    fresh⟩
  · obtain ⟨path, onList, onPath⟩ := (listed block).mp member
    obtain ⟨chain, ran⟩ := (succeeded_iff _).mp (replayed path onList)
    refine (valid_of_replay initialised (fun other inside => ?_) ran).2 block onPath
    exact (listed other).mpr ⟨path, onList, inside⟩
  · rcases agree left (known left insideLeft) right (known right insideRight) with onRight | onLeft
    · exact apart.1 onRight
    · exact apart.2 onLeft

end

end

/-! ## A refused block and a reorganised one -/

namespace ForkSample

open ProofOfStakeChain BlockTree

attribute [local instance] Symbolic.primitives

/-- A block that a tree refuses once the other branch is final. -/
def rival : List Block := late.take 1

def blocks : Finset Block := (finalizing ++ rival).toFinset

theorem mem_blocks (block : Block) : block ∈ blocks ↔ block ∈ finalizing ++ rival :=
  List.mem_toFinset

theorem genesisBuilt : succeeded (ProofOfStakeChain.init args) = true := by decide +kernel

@[irreducible] def genesisChain : ProofOfStakeChain :=
  outcome (ProofOfStakeChain.init args) genesisBuilt

theorem genesisChain_eq : ProofOfStakeChain.init args = .ok genesisChain := by
  unfold genesisChain
  exact eq_ok_outcome _ genesisBuilt

/-- The chains that the first blocks of the two paths spell out. -/
def prefixes : Except Error (List ProofOfStakeChain) :=
  (finalizing.inits ++ rival.inits).mapM genesisChain.submitBlocks

theorem prefixesFound : succeeded prefixes = true := by decide +kernel

/-- All branches inside the set. -/
@[irreducible] def chains : List ProofOfStakeChain := outcome prefixes prefixesFound

theorem chains_closed :
    genesisChain ∈ chains ∧
      (∀ chain ∈ chains, ∀ path ∈ [finalizing, rival], ∀ block ∈ path,
        staysIn chains chain block = true) ∧
      ∀ left ∈ chains, ∀ right ∈ chains,
        left.state.finalized.1 ∈ right.chain.map Block.hash ∨
          right.state.finalized.1 ∈ left.chain.map Block.hash := by
  decide +kernel

/-- What the two paths do, checked in one go because every check replays them. -/
theorem paths_run :
    (∀ path ∈ [finalizing, rival], succeeded (genesisChain.submitBlocks path) = true) ∧
      (∀ left ∈ finalizing ++ rival, ∀ right ∈ finalizing ++ rival,
        left.hash = right.hash → left.unsealed = right.unsealed) ∧
      (∀ block ∈ finalizing ++ rival, block.hash ≠ genesisHash args) ∧
      (start.deliver (finalizing ++ rival)).blocks.size = 3 ∧
      (start.deliver (rival ++ finalizing)).blocks.size = 4 ∧
      ParentsFirst args (finalizing ++ rival) ∧ ParentsFirst args (rival ++ finalizing) := by
  decide +kernel

theorem mem_blocks_paths
    (block : Block) :
    block ∈ blocks ↔ ∃ path ∈ [finalizing, rival], block ∈ path := by
  simp [mem_blocks]

theorem deliverable : Deliverable args blocks := by
  obtain ⟨replayed, distinct, fresh, _⟩ := paths_run
  refine deliverable_of_paths genesisChain_eq mem_blocks_paths replayed chains_closed ?_ ?_
  · intro left leftMember right rightMember
    exact distinct left ((mem_blocks left).mp leftMember) right ((mem_blocks right).mp rightMember)
  · exact fun block member => fresh block ((mem_blocks block).mp member)

/-- A tree that saw the rival first and one that refused it choose one head. -/
theorem deliver_converges_rival :
    (start.deliver (finalizing ++ rival)).blocks.size = 3 ∧
      (start.deliver (rival ++ finalizing)).blocks.size = 4 ∧
      (start.deliver (finalizing ++ rival)).headHash =
        (start.deliver (rival ++ finalizing)).headHash := by
  obtain ⟨_, _, _, three, four, parentsFirst, rivalFirst⟩ := paths_run
  have initial : BlockTree.init args none = .ok start := by
    unfold start
    exact eq_ok_outcome _ initialised
  have swapped : ∀ block, block ∈ rival ++ finalizing ↔ block ∈ blocks := by
    intro block
    rw [mem_blocks, List.mem_append, List.mem_append, or_comm]
  have converged := deliver_converges deliverable initial (fun block => (mem_blocks block).symm)
    swapped parentsFirst rivalFirst
  exact ⟨three, four, converged.2.2.1⟩

end ForkSample

end Mindees
