import Mindees.Consensus.Produce
import Mindees.ForkChoice.Growth

/-!
# Irreversible finality

The frontier only moves up along branches that pass it, and the canonical chain
passes every frontier that the tree has had.
-/

namespace Mindees

open Library ProofOfStakeChain

section

variable [Primitives]

namespace BlockTree

/-! ## The new tree -/

variable {args : GenesisArgs} {checkpoint : Option Checkpoint} {tree later latest : BlockTree}
  {block : Block}

theorem init_eq_ok
    (args : GenesisArgs)
    (checkpoint : Option Checkpoint)
    (tree : BlockTree) :
    init args checkpoint = .ok tree ↔
      ∃ chain, ProofOfStakeChain.init args = .ok chain ∧
        tree =
          { genesisArgs := args
            canonical := chain
            genesisHash := chain.head.hash
            headHash := chain.head.hash
            wsCheckpoint := checkpoint
            finalizedHash := chain.head.hash
            finalizedHeight := 0
            blocks := Dict.empty
            parent := Dict.empty
            weight := Dict.empty.set chain.head.hash 0
            height := Dict.empty.set chain.head.hash 0 } := by
  simp only [init, bind_eq_ok, pure_eq_ok]
  exact exists_congr fun chain => and_congr_right fun _ => eq_comm

/-- A new chain has finalized genesis. -/
theorem finalizedCheckpoint_init
    {chain : ProofOfStakeChain}
    (initialised : ProofOfStakeChain.init args = .ok chain) :
    chain.finalizedCheckpoint = (chain.head.hash, 0) := by
  obtain ⟨_, _, _, _, _, _, _, state, blocks⟩ :=
    (ProofOfStakeChain.init_eq_ok args chain).mp initialised
  have newest : chain.head = genesisBlock args.timestamp := by
    simp only [head, blocks, List.getLast_singleton]
  rw [finalizedCheckpoint, state, newest]
  rfl

/-- Only genesis has a branch where no block is stored. -/
theorem branch_of_no_blocks
    {hash : Str}
    {chain first : ProofOfStakeChain}
    {weight : Int}
    (initialised : ProofOfStakeChain.init args = .ok first)
    (branch : Branch args Dict.empty hash chain weight) :
    hash = first.head.hash ∧ chain = first ∧ weight = 0 := by
  cases branch with
  | genesis again =>
      obtain rfl := Except.ok.inj (again.symm.trans initialised)
      exact ⟨(head_init initialised).symm, rfl, rfl⟩
  | extend _ stored _ _ _ => cases stored

theorem invariant_init
    (initialised : init args checkpoint = .ok tree) :
    tree.Invariant := by
  obtain ⟨chain, start, rfl⟩ := (init_eq_ok args checkpoint tree).mp initialised
  have genesis : Branch args Dict.empty chain.head.hash chain 0 := by
    have branch : Branch args Dict.empty (ProofOfStakeChain.genesisHash args) chain 0 :=
      .genesis start
    rwa [← head_init start] at branch
  have finalized := finalizedCheckpoint_init start
  have passes := genesis.passes_head
  rw [index_init start] at passes
  constructor
  · constructor
    · exact head_init start
    · exact ⟨chain, start⟩
    · simp
    · intro hash block stored
      cases stored
    · intro hash weight found
      rw [Dict.get?_set] at found
      split_ifs at found with same
      · cases found
        subst same
        refine ⟨chain, genesis, ?_, ?_⟩
        · rw [index_init start, Dict.get?_set, if_pos rfl]
        · rw [index_init start]
          exact Int.natCast_nonneg _
      · cases found
    · intro hash known
      cases known
  · exact ⟨0, genesis⟩
  · exact passes
  · exact ⟨_, chain, 0, genesis, finalized⟩
  · intro hash other weight branch
    obtain ⟨_, rfl, _⟩ := branch_of_no_blocks start branch
    exact .inl finalized
  · intro hash other weight branch _
    exact .inl (branch_of_no_blocks start branch).1

/-! ## Runs -/

/-- The invariant survives every call. -/
theorem Invariant.addBlock
    (invariant : tree.Invariant)
    (block : Block) :
    (tree.addBlock block).2.Invariant := by
  rcases invariant.addBlock_cases block with
    ⟨_, same⟩ | ⟨_, _, _, same⟩ | ⟨_, _, _, _, _, _, _, _, _, grown⟩
  · rwa [same]
  · rwa [same]
  · exact grown

/-- The invariant holds in every reachable tree. -/
theorem Reachable.invariant
    (reachable : Reachable args checkpoint tree) :
    tree.Invariant := by
  induction reachable with
  | init initialised => exact invariant_init initialised
  | add block _ inductionHypothesis => exact inductionHypothesis.addBlock block

/-- A tree keeps the parameters it was made with. -/
theorem Reachable.args_eq
    (reachable : Reachable args checkpoint tree) :
    tree.genesisArgs = args := by
  induction reachable with
  | init initialised =>
      obtain ⟨_, _, rfl⟩ := (init_eq_ok _ _ _).mp initialised
      rfl
  | add block reached inductionHypothesis =>
      have cases := reached.invariant.addBlock_cases block
      rcases cases with ⟨_, same⟩ | ⟨_, _, _, refused⟩ | ⟨_, _, _, _, _, _, _, _, grows, _⟩
      · rw [same]
        exact inductionHypothesis
      · rw [refused]
        exact inductionHypothesis
      · rw [grows.args]
        exact inductionHypothesis

/-- Deliver blocks one after the other, whatever becomes of each. -/
def deliver (tree : BlockTree) (blocks : List Block) : BlockTree :=
  blocks.foldl (fun tree block => (tree.addBlock block).2) tree

@[simp] theorem deliver_nil (tree : BlockTree) : tree.deliver [] = tree := rfl

@[simp] theorem deliver_cons (tree : BlockTree) (block : Block) (blocks : List Block) :
    tree.deliver (block :: blocks) = (tree.addBlock block).2.deliver blocks := rfl

theorem deliver_append (tree : BlockTree) (first second : List Block) :
    tree.deliver (first ++ second) = (tree.deliver first).deliver second :=
  List.foldl_append

theorem Reachable.deliver
    (reachable : Reachable args checkpoint tree)
    (blocks : List Block) :
    Reachable args checkpoint (tree.deliver blocks) := by
  induction blocks generalizing tree with
  | nil => exact reachable
  | cons block rest inductionHypothesis => exact inductionHypothesis (reachable.add block)

/-! ## Frontiers along a run -/

/-- Branches stay, and the frontier's branch passes every earlier frontier. -/
structure LeadsTo (tree later : BlockTree) : Prop where
  branches : ∀ hash chain weight, tree.HasBranch hash chain weight →
    later.HasBranch hash chain weight
  height : tree.finalizedHeight ≤ later.finalizedHeight
  frontier : ∃ chain weight, later.HasBranch later.finalizedHash chain weight ∧
    chain.head.index = later.finalizedHeight ∧ chain.Passes tree.frontier

theorem LeadsTo.refl
    (invariant : tree.Invariant) :
    tree.LeadsTo tree := by
  obtain ⟨chain, weight, branch, height⟩ := invariant.frontier_branch
  exact ⟨fun _ _ _ same => same, le_refl _, chain, weight, branch, height,
    invariant.frontier_passes branch⟩

/-- What passes the later frontier passes the earlier one. -/
theorem LeadsTo.passes
    {hash : Str}
    {chain : ProofOfStakeChain}
    {weight : Int}
    (leads : tree.LeadsTo later)
    (branch : later.HasBranch hash chain weight)
    (passes : chain.Passes later.frontier) :
    chain.Passes tree.frontier := by
  obtain ⟨top, topWeight, topBranch, height, earlier⟩ := leads.frontier
  have topPasses : top.Passes later.frontier := by
    have here := topBranch.passes_head
    rwa [height] at here
  exact topBranch.passes_of_common topPasses branch passes earlier leads.height

theorem LeadsTo.trans
    (first : tree.LeadsTo later)
    (second : later.LeadsTo latest) :
    tree.LeadsTo latest := by
  obtain ⟨top, topWeight, topBranch, height, topPasses⟩ := second.frontier
  obtain ⟨middle, middleWeight, middleBranch, middleHeight, earlier⟩ := first.frontier
  have middleKept := second.branches _ _ _ middleBranch
  have middlePasses : middle.Passes later.frontier := by
    have here := middleBranch.passes_head
    rwa [middleHeight] at here
  have passes : top.Passes tree.frontier :=
    middleKept.passes_of_common middlePasses topBranch topPasses earlier first.height
  exact ⟨fun hash chain weight branch => second.branches _ _ _ (first.branches _ _ _ branch),
    first.height.trans second.height, top, topWeight, topBranch, height, passes⟩

/-- One call leads on. -/
theorem Invariant.leadsTo_addBlock
    (invariant : tree.Invariant)
    (block : Block) :
    tree.LeadsTo (tree.addBlock block).2 := by
  rcases invariant.addBlock_cases block with
    ⟨_, same⟩ | ⟨_, _, _, same⟩ | ⟨new, admission, before, weight, child, passes, _, _, grows, grown⟩
  · rw [same]
    exact .refl invariant
  · rw [same]
    exact .refl invariant
  · obtain ⟨top, topWeight, topBranch, height⟩ := grown.frontier_branch
    have topPasses := grown.frontier_passes topBranch
    have earlier := invariant.passes_old_frontier new child passes grows topBranch topPasses
    have higher : (tree.addBlock block).2.finalizedHeight =
        (tree.advanced admission.validated).2 := congrArg Prod.snd grows.frontier
    refine ⟨fun hash chain weight branch => ?_, ?_, top, topWeight, topBranch, height, earlier⟩
    · exact grows.old_branch invariant.store new child branch
    · rw [higher]
      exact tree.advanced_mono admission.validated

/-- So does every run. -/
theorem Invariant.leadsTo_deliver
    (invariant : tree.Invariant)
    (blocks : List Block) :
    tree.LeadsTo (tree.deliver blocks) := by
  induction blocks generalizing tree with
  | nil => exact .refl invariant
  | cons block rest inductionHypothesis =>
      have step := invariant.leadsTo_addBlock block
      exact step.trans (inductionHypothesis (invariant.addBlock block))

/-- Finality is irreversible: whatever is delivered to a reachable tree, its
frontier does not move down, the new frontier descends from the old one, and the
canonical chain keeps every block up to the old frontier. -/
theorem Reachable.finality_irreversible
    (reachable : Reachable args checkpoint tree)
    (blocks : List Block) :
    tree.finalizedHeight ≤ (tree.deliver blocks).finalizedHeight ∧
    (∃ chain, (tree.deliver blocks).chainAt (tree.deliver blocks).finalizedHash = .ok chain ∧
      chain.head.index = (tree.deliver blocks).finalizedHeight ∧ chain.Passes tree.frontier) ∧
    (tree.deliver blocks).canonical.Passes tree.frontier ∧
    (tree.deliver blocks).canonical.chain.take (tree.finalizedHeight.toNat + 1) =
      tree.canonical.chain.take (tree.finalizedHeight.toNat + 1) := by
  have invariant := reachable.invariant
  have after := (reachable.deliver blocks).invariant
  have leads := invariant.leadsTo_deliver blocks
  obtain ⟨top, topWeight, topBranch, height, topPasses⟩ := leads.frontier
  obtain ⟨headWeight, headBranch⟩ := after.head
  obtain ⟨oldWeight, oldBranch⟩ := invariant.head
  have passes := leads.passes headBranch after.head_passes
  refine ⟨leads.height, ⟨top, after.store.chainAt_eq topBranch, height, topPasses⟩, passes, ?_⟩
  exact headBranch.take_eq_take passes (leads.branches _ _ _ oldBranch) invariant.head_passes

end BlockTree

end

/-! ## A late fork -/

namespace ForkSample

open ProofOfStakeChain BlockTree

attribute [local instance] Symbolic.primitives

def keyring : List Wallet := [Symbolic.wallet 1]

/-- One validator owns everything. -/
def args : GenesisArgs where
  allocations := Dict.empty.set (Symbolic.wallet 1).address MAX_SUPPLY_UNITS
  initialStakes := Dict.empty.set (Symbolic.wallet 1).address 500
  epoch := 1

/-- The blocks of a run, genesis left out. -/
def blocksOf (rounds : List (List Draft)) : Except Error (List Block) := do
  let chain ← play keyring args rounds
  pure chain.chain.tail

/-- A branch that finalizes its first block. -/
def finalizingRounds : List (List Draft) := [[], [.vote 0 0 1 0], [.vote 0 1 2 0]]

/-- A heavier branch from genesis. -/
def lateRounds : List (List Draft) := [[.pay 0 0 1 0], [], [], [], []]

theorem finalizingPlayed : succeeded (blocksOf finalizingRounds) = true := by decide +kernel

theorem latePlayed : succeeded (blocksOf lateRounds) = true := by decide +kernel

theorem initialised : succeeded (BlockTree.init args) = true := by decide +kernel

@[irreducible] def finalizing : List Block := outcome (blocksOf finalizingRounds) finalizingPlayed

@[irreducible] def late : List Block := outcome (blocksOf lateRounds) latePlayed

@[irreducible] def start : BlockTree := outcome (BlockTree.init args) initialised

theorem start_reachable : BlockTree.Reachable args none start := by
  unfold start
  exact .init (eq_ok_outcome _ initialised)

/-- The finalized block outlives a heavier fork. -/
theorem finality_irreversible_late_fork :
    (start.deliver finalizing).finalizedHeight = 1 ∧
      ((start.deliver finalizing).deliver late).canonical.Passes
        (start.deliver finalizing).frontier := by
  have reachable := start_reachable.deliver finalizing
  have height : (start.deliver finalizing).finalizedHeight = 1 := by decide +kernel
  exact ⟨height, (reachable.finality_irreversible late).2.2.1⟩

end ForkSample

end Mindees
