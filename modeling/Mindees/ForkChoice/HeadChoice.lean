import Mindees.ForkChoice.Irreversible

/-!
# The canonical chain and the head

In every reachable tree the canonical chain is the replay of the head, each
weight is the sum of the proposer stakes along a path, and the head is the best
of the blocks that descend from the frontier.
-/

namespace Mindees

open Library ProofOfStakeChain

section

variable [Primitives]

namespace BlockTree

variable {args : GenesisArgs} {checkpoint : Option Checkpoint} {tree : BlockTree}

/-- A block of the tree, genesis included. -/
def Stored (tree : BlockTree) (hash : Str) : Prop :=
  hash = tree.genesisHash ∨ tree.blocks.contains hash = true

/-- The stake of a stored block's proposer in the replayed state of its parent. -/
def proposerStake (tree : BlockTree) (hash : Str) : Except Error Int := do
  let block ← require (tree.blocks.get? hash) .keyError
  let before ← tree.chainAt block.previousHash
  pure (before.stakeOf block.validator)

/-- The stored blocks are those with a branch. -/
theorem Store.stored_iff
    (store : tree.Store)
    (hash : Str) :
    tree.Stored hash ↔ ∃ chain weight, tree.HasBranch hash chain weight := by
  constructor
  · intro stored
    have known : tree.weight.contains hash = true := by
      rcases stored with rfl | found
      · exact store.genesis_known
      · obtain ⟨block, found⟩ := (Dict.contains_iff _ _).mp found
        exact (store.block_sound hash block found).2.2.2
    obtain ⟨weight, found⟩ := (Dict.contains_iff _ _).mp known
    obtain ⟨chain, branch, _⟩ := store.branch hash weight found
    exact ⟨chain, weight, branch⟩
  · rintro ⟨chain, weight, branch⟩
    cases branch with
    | genesis _ => exact .inl store.genesisHash_eq.symm
    | extend _ stored _ _ _ => exact .inr ((Dict.contains_iff _ _).mpr ⟨_, stored⟩)

/-- The weight of a branch is the sum of the proposer stakes along its path. -/
theorem Store.stakes_along
    {hash : Str}
    {chain : ProofOfStakeChain}
    {weight : Int}
    (store : tree.Store)
    (branch : tree.HasBranch hash chain weight)
    {fuel : Nat}
    (enough : chain.head.index ≤ fuel) :
    ∃ path stakes, pathLoop tree.parent tree.genesisHash fuel hash = .ok path ∧
      path.mapM tree.proposerStake = .ok stakes ∧ weight = stakes.sum := by
  induction branch generalizing fuel with
  | genesis _ =>
      refine ⟨[], [], ?_, rfl, rfl⟩
      unfold pathLoop
      rw [if_pos store.genesisHash_eq.symm]
  | @extend previous before after block weight earlier stored fresh parent submitted
      inductionHypothesis =>
      subst parent
      obtain ⟨remaining, rfl, fits⟩ := exists_fuel earlier.reachable submitted enough
      obtain ⟨path, stakes, found, summed, rfl⟩ := inductionHypothesis fits
      have stake : tree.proposerStake block.hash = .ok (before.stakeOf block.validator) := by
        simp only [proposerStake, stored, require, store.chainAt_eq earlier, bind_eq_ok,
          Except.ok.injEq, exists_eq_left', pure_eq_ok]
      refine ⟨path ++ [block.hash], stakes ++ [before.stakeOf block.validator],
        store.pathLoop_extend stored found, ?_, ?_⟩
      · rw [List.mapM_append, summed]
        simp only [List.mapM_cons, List.mapM_nil, stake]
        rfl
      · rw [List.sum_append, List.sum_singleton]

/-- The canonical chain of a reachable tree is the replay of its head, every
stored block can be replayed, and its weight is the sum of the stakes that the
proposers on its path had in the replayed states of their parents. -/
theorem Reachable.canonical_eq_replay
    (reachable : Reachable args checkpoint tree) :
    tree.chainAt tree.headHash = .ok tree.canonical ∧
      ∀ hash, tree.Stored hash →
        (∃ chain, tree.chainAt hash = .ok chain ∧ chain.head.hash = hash) ∧
        ∃ path stakes,
          pathLoop tree.parent tree.genesisHash (tree.parent.size + 1) hash = .ok path ∧
          path.mapM tree.proposerStake = .ok stakes ∧
          tree.weight.get? hash = some stakes.sum := by
  have invariant := reachable.invariant
  obtain ⟨headWeight, headBranch⟩ := invariant.head
  refine ⟨invariant.store.chainAt_eq headBranch, fun hash stored => ?_⟩
  obtain ⟨chain, weight, branch⟩ := (invariant.store.stored_iff hash).mp stored
  obtain ⟨found, _, small⟩ := invariant.store.recorded branch
  have enough : chain.head.index ≤ ((tree.parent.size + 1 : Nat) : Int) := by omega
  obtain ⟨path, stakes, walked, summed, rfl⟩ := invariant.store.stakes_along branch enough
  exact ⟨⟨chain, invariant.store.chainAt_eq branch, branch.head_hash⟩, path, stakes, walked,
    summed, found⟩

/-! ## The best leaf -/

/-- A stored block that is the finalized checkpoint or descends from it. -/
def Candidate (tree : BlockTree) (hash : Str) : Prop :=
  tree.Stored hash ∧ ∃ chain, tree.chainAt hash = .ok chain ∧ chain.Passes tree.frontier

/-- A candidate with more weight than any other one, or as much and a smaller
hash. -/
def Best (tree : BlockTree) (hash : Str) : Prop :=
  tree.Candidate hash ∧ ∀ other, tree.Candidate other → other ≠ hash →
    tree.weight.getD other 0 < tree.weight.getD hash 0 ∨
      (tree.weight.getD other 0 = tree.weight.getD hash 0 ∧ hash < other)

omit [Primitives] in
theorem beats_iff
    (tree : BlockTree)
    (a b : Str) :
    tree.beats a b = true ↔
      tree.weight.getD b 0 < tree.weight.getD a 0 ∨
        (tree.weight.getD b 0 = tree.weight.getD a 0 ∧ a < b) := by
  unfold beats
  split_ifs with differ
  · rw [decide_eq_true_iff]
    constructor
    · exact .inl
    · rintro (lighter | ⟨same, _⟩)
      · exact lighter
      · exact absurd same.symm differ
  · have same := not_not.mp differ
    rw [decide_eq_true_iff]
    constructor
    · exact fun smaller => .inr ⟨same.symm, smaller⟩
    · rintro (lighter | ⟨_, smaller⟩)
      · exact absurd same.symm (ne_of_lt lighter)
      · exact smaller

/-- The candidates are the branches that pass the frontier. -/
theorem Store.candidate_iff
    (store : tree.Store)
    (hash : Str) :
    tree.Candidate hash ↔
      ∃ chain weight, tree.HasBranch hash chain weight ∧ chain.Passes tree.frontier := by
  constructor
  · rintro ⟨stored, chain, replayed, passes⟩
    obtain ⟨other, weight, branch⟩ := (store.stored_iff hash).mp stored
    obtain rfl := Except.ok.inj ((store.chainAt_eq branch).symm.trans replayed)
    exact ⟨other, weight, branch, passes⟩
  · rintro ⟨chain, weight, branch, passes⟩
    exact ⟨(store.stored_iff hash).mpr ⟨chain, weight, branch⟩, chain, store.chainAt_eq branch,
      passes⟩

theorem Invariant.best_head
    (invariant : tree.Invariant) :
    tree.Best tree.headHash := by
  obtain ⟨headWeight, headBranch⟩ := invariant.head
  refine ⟨(invariant.store.candidate_iff _).mpr
    ⟨_, headWeight, headBranch, invariant.head_passes⟩, fun other candidate different => ?_⟩
  obtain ⟨chain, weight, branch, passes⟩ := (invariant.store.candidate_iff other).mp candidate
  have beaten := (invariant.head_best other chain weight branch passes).resolve_left different
  exact (tree.beats_iff _ _).mp beaten

/-- Only one block is the best. -/
theorem Best.unique
    {hash other : Str}
    (best : tree.Best hash)
    (otherBest : tree.Best other) :
    hash = other := by
  by_contra different
  have ahead := (tree.beats_iff _ _).mpr (best.2 other otherBest.1 (Ne.symm different))
  have under := (tree.beats_iff _ _).mpr (otherBest.2 hash best.1 different)
  rw [tree.beats_strictTotal.asymm _ _ ahead] at under
  cases under

/-- The frontier of a reachable tree is the highest checkpoint that the branch
of a stored block finalizes, and the head is the one best block among those that
descend from it. -/
theorem Reachable.head_optimal
    (reachable : Reachable args checkpoint tree) :
    (∃ hash chain, tree.Stored hash ∧ tree.chainAt hash = .ok chain ∧
      chain.finalizedCheckpoint = tree.frontier) ∧
    (∀ hash chain, tree.Stored hash → tree.chainAt hash = .ok chain →
      chain.finalizedCheckpoint = tree.frontier ∨
        chain.finalizedCheckpoint.2 < tree.finalizedHeight) ∧
    ∀ hash, tree.Best hash ↔ hash = tree.headHash := by
  have invariant := reachable.invariant
  refine ⟨?_, ?_, ?_⟩
  · obtain ⟨hash, chain, weight, branch, finalized⟩ := invariant.frontier_finalized
    exact ⟨hash, chain, (invariant.store.stored_iff hash).mpr ⟨chain, weight, branch⟩,
      invariant.store.chainAt_eq branch, finalized⟩
  · intro hash chain stored replayed
    obtain ⟨other, weight, branch⟩ := (invariant.store.stored_iff hash).mp stored
    obtain rfl := Except.ok.inj ((invariant.store.chainAt_eq branch).symm.trans replayed)
    exact invariant.frontier_highest hash other weight branch
  · intro hash
    constructor
    · exact fun best => best.unique invariant.best_head
    · rintro rfl
      exact invariant.best_head

end BlockTree

end

/-! ## A reorganised tree -/

namespace ForkSample

open ProofOfStakeChain BlockTree

attribute [local instance] Symbolic.primitives

/-- The tree after a branch of two blocks and a longer one. -/
def reorganised : BlockTree := start.deliver (finalizing.take 2 ++ late)

/-- The longer branch has become canonical, and its head replays to it. -/
theorem canonical_eq_replay_reorganised :
    reorganised.canonical.head.index = 5 ∧
      reorganised.chainAt reorganised.headHash = .ok reorganised.canonical := by
  have reachable := start_reachable.deliver (finalizing.take 2 ++ late)
  have height : reorganised.canonical.head.index = 5 := by decide +kernel
  exact ⟨height, reachable.canonical_eq_replay.1⟩

/-- The head of the longer branch is the best block. -/
theorem head_optimal_reorganised :
    reorganised.weight.get? reorganised.headHash = some 2500 ∧
      reorganised.Best reorganised.headHash := by
  have reachable := start_reachable.deliver (finalizing.take 2 ++ late)
  have weight : reorganised.weight.get? reorganised.headHash = some 2500 := by decide +kernel
  exact ⟨weight, (reachable.head_optimal.2.2 _).mpr rfl⟩

end ForkSample

end Mindees
