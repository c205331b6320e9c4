import Mindees.ForkChoice.Branch

/-!
# The store of the tree

In a consistent store every recorded hash has a branch, with its height and its
weight on record.  There the walks along the parents end and compute with the
branch.
-/

namespace Mindees

open Library ProofOfStakeChain

variable [Primitives]

namespace BlockTree

/-- The finality frontier as a checkpoint. -/
def frontier (tree : BlockTree) : Checkpoint := (tree.finalizedHash, tree.finalizedHeight)

/-- The branch of a stored hash. -/
abbrev HasBranch
    (tree : BlockTree)
    (hash : Str)
    (chain : ProofOfStakeChain)
    (weight : Int) : Prop :=
  Branch tree.genesisArgs tree.blocks hash chain weight

/-- What an admission says about a valid child of a stored branch. -/
structure Child
    (tree : BlockTree)
    (block : Block)
    (admission : Admission)
    (before : ProofOfStakeChain)
    (weight : Int) : Prop where
  parent : tree.HasBranch block.previousHash before weight
  submitted : before.submitBlock block = .ok admission.validated
  newHeight : admission.newHeight = before.head.index + 1
  newWeight : admission.newWeight = weight + before.stakeOf block.validator

/-- The maps of a tree agree with each other. -/
structure Store (tree : BlockTree) : Prop where
  genesisHash_eq : tree.genesisHash = ProofOfStakeChain.genesisHash tree.genesisArgs
  initialised : ∃ chain, ProofOfStakeChain.init tree.genesisArgs = .ok chain
  genesis_known : tree.weight.contains tree.genesisHash = true
  block_sound : ∀ hash block, tree.blocks.get? hash = some block →
    block.hash = hash ∧ hash ≠ tree.genesisHash ∧
      tree.parent.get? hash = some block.previousHash ∧ tree.weight.contains hash = true
  branch : ∀ hash weight, tree.weight.get? hash = some weight →
    ∃ chain, tree.HasBranch hash chain weight ∧ tree.height.get? hash = some chain.head.index ∧
      chain.head.index ≤ tree.parent.size
  parent_known : ∀ hash, tree.parent.contains hash = true → tree.weight.contains hash = true

namespace Store

variable {tree : BlockTree} {hash : Str} {chain : ProofOfStakeChain} {weight : Int}

/-- What has a branch is on record. -/
theorem recorded
    (store : tree.Store)
    (branch : tree.HasBranch hash chain weight) :
    tree.weight.get? hash = some weight ∧ tree.height.get? hash = some chain.head.index ∧
      chain.head.index ≤ tree.parent.size := by
  have known : tree.weight.contains hash = true := by
    cases branch with
    | genesis _ => exact store.genesisHash_eq ▸ store.genesis_known
    | extend _ stored _ _ _ => exact (store.block_sound _ _ stored).2.2.2
  obtain ⟨recordedWeight, found⟩ := (Dict.contains_iff _ _).mp known
  obtain ⟨other, otherBranch, height, small⟩ := store.branch hash recordedWeight found
  obtain ⟨rfl, rfl⟩ := branch.unique otherBranch
  exact ⟨found, height, small⟩

/-! ## Walks -/

/-- A walk that is long enough for a branch is one step longer than one for the
parent. -/
theorem exists_fuel
    {args : GenesisArgs}
    {before after : ProofOfStakeChain}
    {block : Block}
    (reachable : ProofOfStakeChain.Reachable args before)
    (submitted : before.submitBlock block = .ok after)
    {fuel : Nat}
    (enough : after.head.index ≤ fuel) :
    ∃ remaining, fuel = remaining + 1 ∧ before.head.index ≤ (remaining : Int) := by
  have next := (submitted_of_submitBlock submitted).index
  rw [(submitted_of_submitBlock submitted).newest] at enough
  have length := reachable.length_eq
  have nonempty := List.length_pos_of_ne_nil before.nonempty
  exact ⟨fuel - 1, by omega, by omega⟩

/-- At or below the finalized height the walk compares at once. -/
theorem descendsLoop_low
    (store : tree.Store)
    (frontier : tree.height.get? tree.finalizedHash = some tree.finalizedHeight)
    (branch : tree.HasBranch hash chain weight)
    (low : chain.head.index ≤ tree.finalizedHeight)
    (fuel : Nat) :
    tree.descendsLoop fuel hash = .ok (decide (chain.Passes tree.frontier)) := by
  obtain ⟨_, height, _⟩ := store.recorded branch
  have same : hash = tree.finalizedHash ↔ chain.Passes tree.frontier := by
    constructor
    · rintro rfl
      have top : tree.finalizedHeight = chain.head.index :=
        Option.some.inj (frontier.symm.trans height)
      have here := branch.passes_head
      rwa [← top] at here
    · intro passes
      have reached : tree.finalizedHeight ≤ chain.head.index :=
        branch.reachable.height_le_of_passes passes
      exact (branch.eq_of_passes_head passes (le_antisymm reached low)).symm
  unfold descendsLoop
  rw [Dict.getD_eq_of_get? height, if_neg (not_lt.mpr low)]
  exact congrArg Except.ok (decide_eq_decide.mpr same)

/-- The walk to the finalized height tells whether the branch passes the
frontier. -/
theorem descendsLoop_eq
    (store : tree.Store)
    (nonneg : 0 ≤ tree.finalizedHeight)
    (frontier : tree.height.get? tree.finalizedHash = some tree.finalizedHeight)
    (branch : tree.HasBranch hash chain weight)
    {fuel : Nat}
    (enough : chain.head.index ≤ fuel) :
    tree.descendsLoop fuel hash = .ok (decide (chain.Passes tree.frontier)) := by
  induction branch generalizing fuel with
  | @genesis chain initialised =>
      have start : tree.HasBranch _ chain 0 := .genesis initialised
      have bottom := index_init initialised
      exact store.descendsLoop_low frontier start (by omega) fuel
  | @extend previous before after block weight earlier stored fresh parent submitted
      inductionHypothesis =>
      have branch : tree.HasBranch block.hash after _ :=
        .extend earlier stored fresh parent submitted
      by_cases low : after.head.index ≤ tree.finalizedHeight
      · exact store.descendsLoop_low frontier branch low fuel
      · obtain ⟨_, height, _⟩ := store.recorded branch
        obtain ⟨remaining, rfl, fits⟩ := exists_fuel earlier.reachable submitted enough
        have next : after.head.index = before.head.index + 1 := by
          rw [(submitted_of_submitBlock submitted).newest,
            (submitted_of_submitBlock submitted).index]
        have pointer : tree.parent.get? block.hash = some previous :=
          parent ▸ (store.block_sound _ _ stored).2.2.1
        have same : before.Passes tree.frontier ↔ after.Passes tree.frontier := by
          constructor
          · exact fun passes => passes.submitBlock submitted
          · intro passes
            have old : tree.finalizedHeight ≤ before.head.index := by omega
            exact passes.of_submitBlock earlier.reachable submitted old
        unfold descendsLoop
        rw [Dict.getD_eq_of_get? height, if_pos (not_le.mp low)]
        simp only [pointer]
        rw [inductionHypothesis fits]
        exact congrArg Except.ok (decide_eq_decide.mpr same)

/-- The walk from a stored block goes on at its parent. -/
theorem pathLoop_extend
    (store : tree.Store)
    {block : Block}
    (stored : tree.blocks.get? block.hash = some block)
    {fuel : Nat}
    {path : List Str}
    (found : pathLoop tree.parent tree.genesisHash fuel block.previousHash = .ok path) :
    pathLoop tree.parent tree.genesisHash (fuel + 1) block.hash = .ok (path ++ [block.hash]) := by
  obtain ⟨_, fresh, pointer, _⟩ := store.block_sound _ _ stored
  unfold pathLoop
  rw [if_neg fresh]
  simp only [pointer, require, bind_eq_ok, Except.ok.injEq, exists_eq_left', found, pure_eq_ok]

/-- The path of a branch, replayed, is its chain. -/
theorem pathLoop_eq
    (store : tree.Store)
    {first : ProofOfStakeChain}
    (start : ProofOfStakeChain.init tree.genesisArgs = .ok first)
    (branch : tree.HasBranch hash chain weight)
    {fuel : Nat}
    (enough : chain.head.index ≤ fuel) :
    ∃ path, pathLoop tree.parent tree.genesisHash fuel hash = .ok path ∧
      replay tree.blocks first path = .ok chain := by
  induction branch generalizing fuel with
  | genesis initialised =>
      refine ⟨[], ?_, ?_⟩
      · unfold pathLoop
        rw [if_pos store.genesisHash_eq.symm]
      · rw [Except.ok.inj (start.symm.trans initialised)]
        rfl
  | @extend previous before after block weight earlier stored fresh parent submitted
      inductionHypothesis =>
      subst parent
      obtain ⟨remaining, rfl, fits⟩ := exists_fuel earlier.reachable submitted enough
      obtain ⟨path, found, replayed⟩ := inductionHypothesis fits
      refine ⟨path ++ [block.hash], store.pathLoop_extend stored found, ?_⟩
      rw [replay, foldlM_concat_eq_ok]
      refine ⟨before, replayed, ?_⟩
      simp only [stored, require, bind_eq_ok, Except.ok.injEq, exists_eq_left', submitted]

/-- Replaying from genesis rebuilds the chain of every branch. -/
theorem chainAt_eq
    (store : tree.Store)
    (branch : tree.HasBranch hash chain weight) :
    tree.chainAt hash = .ok chain := by
  obtain ⟨first, start⟩ := store.initialised
  obtain ⟨_, _, small⟩ := store.recorded branch
  have enough : chain.head.index ≤ ((tree.parent.size + 1 : Nat) : Int) := by omega
  obtain ⟨path, found, replayed⟩ := store.pathLoop_eq start branch enough
  rw [chainAt, bind_eq_ok]
  refine ⟨path, found, ?_⟩
  rw [bind_eq_ok]
  exact ⟨first, start, replayed⟩

/-- The walk from a stored block tells whether its branch passes the frontier. -/
theorem descendsFromFinalized_eq
    (store : tree.Store)
    (nonneg : 0 ≤ tree.finalizedHeight)
    (frontier : tree.height.get? tree.finalizedHash = some tree.finalizedHeight)
    (branch : tree.HasBranch hash chain weight) :
    tree.descendsFromFinalized hash = .ok (decide (chain.Passes tree.frontier)) := by
  obtain ⟨_, _, small⟩ := store.recorded branch
  have enough : chain.head.index ≤ ((tree.parent.size + 1 : Nat) : Int) := by omega
  exact store.descendsLoop_eq nonneg frontier branch enough

/-! ## One more block -/

/-- The store is a matter of the maps. -/
theorem congr
    {other : BlockTree}
    (store : tree.Store)
    (args : other.genesisArgs = tree.genesisArgs)
    (genesis : other.genesisHash = tree.genesisHash)
    (blocks : other.blocks = tree.blocks)
    (parent : other.parent = tree.parent)
    (weights : other.weight = tree.weight)
    (heights : other.height = tree.height) :
    other.Store := by
  obtain ⟨genesisHash_eq, initialised, genesis_known, block_sound, branch, parent_known⟩ := store
  constructor
  · rw [genesis, args, genesisHash_eq]
  · rwa [args]
  · rwa [genesis, weights]
  · rwa [blocks, genesis, parent, weights]
  · simp only [HasBranch, weights, heights, parent, args, blocks]
    exact branch
  · rwa [parent, weights]

variable {block : Block} {admission : Admission} {before : ProofOfStakeChain}

/-- A new block on a stored branch has a branch in the grown store. -/
theorem store_branch
    (store : tree.Store)
    (new : tree.weight.contains block.hash = false)
    (child : tree.Child block admission before weight) :
    (∀ hash chain weight, tree.HasBranch hash chain weight →
      (tree.store block admission).HasBranch hash chain weight) ∧
    (tree.store block admission).HasBranch block.hash admission.validated
      admission.newWeight := by
  have longer : ∀ hash chain weight, tree.HasBranch hash chain weight →
      (tree.store block admission).HasBranch hash chain weight := by
    intro hash chain weight branch
    refine branch.mono fun other stored found => ?_
    have known := (store.block_sound other stored found).2.2.2
    have different : block.hash ≠ other := by
      rintro rfl
      rw [new] at known
      cases known
    exact (Dict.get?_set _ _ _ _).trans ((if_neg different).trans found)
  have fresh : block.hash ≠ ProofOfStakeChain.genesisHash tree.genesisArgs := by
    intro same
    have known := store.genesis_known
    rw [store.genesisHash_eq, ← same, new] at known
    cases known
  refine ⟨longer, ?_⟩
  rw [child.newWeight]
  exact .extend (longer _ _ _ child.parent) ((Dict.get?_set _ _ _ _).trans (if_pos rfl)) fresh
    rfl child.submitted

/-- A new block on a stored branch keeps the store consistent. -/
theorem add
    (store : tree.Store)
    (new : tree.weight.contains block.hash = false)
    (child : tree.Child block admission before weight) :
    (tree.store block admission).Store := by
  obtain ⟨longer, newest⟩ := store.store_branch new child
  have accepted := submitted_of_submitBlock child.submitted
  have unknownParent : tree.parent.contains block.hash = false := by
    cases known : tree.parent.contains block.hash with
    | false => rfl
    | true =>
        rw [store.parent_known _ known] at new
        cases new
  have size : (tree.parent.set block.hash block.previousHash).size = tree.parent.size + 1 :=
    Dict.size_set _ _ unknownParent
  have fresh : block.hash ≠ tree.genesisHash := by
    intro same
    have known := store.genesis_known
    rw [← same, new] at known
    cases known
  constructor
  · exact store.genesisHash_eq
  · exact store.initialised
  · rw [store_weight, Dict.contains_set, Bool.or_eq_true]
    exact .inr store.genesis_known
  · intro hash stored found
    simp only [store_blocks, store_parent, store_weight, Dict.get?_set, Dict.contains_set]
      at found ⊢
    split_ifs at found ⊢ with same
    · cases found
      subst same
      exact ⟨rfl, fresh, rfl, by simp⟩
    · obtain ⟨equal, notGenesis, pointer, known⟩ := store.block_sound hash stored found
      exact ⟨equal, notGenesis, pointer, by simp [known]⟩
  · intro hash recorded found
    simp only [store_weight, store_height, store_parent, Dict.get?_set] at found ⊢
    split_ifs at found ⊢ with same
    · cases found
      subst same
      have grown := (store.recorded child.parent).2.2
      have next : admission.validated.head.index = before.head.index + 1 := by
        rw [accepted.newest, accepted.index]
      exact ⟨admission.validated, newest, by rw [child.newHeight, next], by omega⟩
    · obtain ⟨chain, branch, height, small⟩ := store.branch hash recorded found
      exact ⟨chain, longer _ _ _ branch, height, by omega⟩
  · intro hash known
    simp only [store_parent, store_weight, Dict.contains_set, Bool.or_eq_true] at known ⊢
    exact known.imp id (store.parent_known hash)

/-- The branches of the grown store are the old ones and the new block's. -/
theorem branch_cases
    (store : tree.Store)
    (new : tree.weight.contains block.hash = false)
    (child : tree.Child block admission before weight)
    {other : Str}
    {otherWeight : Int}
    (branch : (tree.store block admission).HasBranch other chain otherWeight) :
    tree.HasBranch other chain otherWeight ∨
      (other = block.hash ∧ chain = admission.validated ∧ otherWeight = admission.newWeight) := by
  obtain ⟨longer, newest⟩ := store.store_branch new child
  obtain ⟨recorded, _, _⟩ := (store.add new child).recorded branch
  simp only [store_weight, Dict.get?_set] at recorded
  split_ifs at recorded with same
  · subst same
    obtain ⟨rfl, rfl⟩ := branch.unique newest
    exact .inr ⟨rfl, rfl, rfl⟩
  · obtain ⟨old, oldBranch, _, _⟩ := store.branch other otherWeight recorded
    obtain ⟨rfl, _⟩ := branch.unique (longer _ _ _ oldBranch)
    exact .inl oldBranch

end Store

/-! ## Comparing leaves -/

/-- The comparison of two stored leaves. -/
def beats (tree : BlockTree) (a b : Str) : Bool :=
  if tree.weight.getD a 0 ≠ tree.weight.getD b 0 then
    tree.weight.getD b 0 < tree.weight.getD a 0
  else a < b

omit [Primitives] in
/-- Weight first and hash second is a strict total order. -/
theorem beats_strictTotal (tree : BlockTree) : StrictTotal tree.beats where
  total left right different := by
    simp only [beats]
    split_ifs with leftWeight rightWeight rightWeight
    · simp only [decide_eq_true_eq]
      omega
    · exact absurd (Ne.symm leftWeight) rightWeight
    · exact absurd (Ne.symm rightWeight) leftWeight
    · simp only [decide_eq_true_eq]
      exact lt_or_gt_of_ne different
  asymm left right wins := by
    simp only [beats] at wins ⊢
    split_ifs at wins ⊢ with leftWeight rightWeight rightWeight
    · simp only [decide_eq_true_eq, decide_eq_false_iff_not] at wins ⊢
      omega
    · exact absurd (Ne.symm leftWeight) rightWeight
    · exact absurd (Ne.symm rightWeight) leftWeight
    · simp only [decide_eq_true_eq, decide_eq_false_iff_not] at wins ⊢
      exact lt_asymm wins
  trans first second third overSecond overThird := by
    simp only [beats] at overSecond overThird ⊢
    split_ifs at overSecond overThird ⊢ with firstSecond secondThird firstThird <;>
      simp only [decide_eq_true_eq] at overSecond overThird ⊢
    all_goals first | omega | exact lt_trans overSecond overThird

end BlockTree

end Mindees
