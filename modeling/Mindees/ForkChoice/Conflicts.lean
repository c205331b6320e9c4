import Mindees.Consensus.Exceptions
import Mindees.ForkChoice.HeadChoice
import Mindees.ForkChoice.Seals

/-!
# Calls that raise

A call that raises leaves the tree as it was, because everything that can raise
comes before anything is stored.  The stop for conflicting finality comes after
it, and is never reached: the branch of such a checkpoint is refused earlier, as
an ordinary invalid block.
-/

namespace Mindees

open Library ProofOfStakeChain

namespace BlockTree

/-! ## What walks raise -/

theorem raises_pathLoop (parent : Dict Str Str) (genesisHash : Str) (fuel : Nat) (hash : Str) :
    Raises Error.Ordinary (pathLoop parent genesisHash fuel hash) := by
  induction fuel generalizing hash with
  | zero =>
      unfold pathLoop
      simp [Error.Ordinary]
  | succ fuel inductionHypothesis =>
      unfold pathLoop
      simp [inductionHypothesis, Error.Ordinary]

theorem raises_descendsLoop (tree : BlockTree) (fuel : Nat) (hash : Str) :
    Raises Error.Ordinary (tree.descendsLoop fuel hash) := by
  induction fuel generalizing hash with
  | zero =>
      unfold descendsLoop
      simp [Error.Ordinary]
  | succ fuel inductionHypothesis =>
      unfold descendsLoop
      simp only [raises_ite, raises_ok, implies_true, and_true]
      intro _
      split
      · exact inductionHypothesis _
      · exact raises_ok false

variable [Primitives] {args : GenesisArgs} {checkpoint : Option Checkpoint} {tree : BlockTree}

/-! ## Nothing is half done -/

/-- Once a block has passed all checks nothing behind them raises. -/
theorem Invariant.addBlock_of_examine
    {block : Block}
    {admission : Admission}
    (invariant : tree.Invariant)
    (new : tree.weight.contains block.hash = false)
    (admitted : tree.examine block = .ok admission) :
    (∃ advanced,
      (tree.store block admission).advanceFrontier admission.validated = .ok advanced) ∧
      (tree.addBlock block).1 = .ok true := by
  obtain ⟨before, weight, child, passes, _⟩ :=
    (invariant.examine_eq_ok new admission).mp admitted
  have passesStored : admission.validated.Passes (tree.store block admission).frontier :=
    (Invariant.validated_passes child passes).1
  refine ⟨⟨_, advanceFrontier_eq passesStored⟩, ?_⟩
  by_cases onHead : tree.extendsHead block = true
  · exact (invariant.addBlock_head new admitted child passes onHead).1
  · exact (invariant.addBlock_fork new admitted child passes onHead).1

/-- A call that raises leaves the tree as it was, and a block that has passed all
checks is accepted: the raise behind the changes is never reached. -/
theorem Reachable.addBlock_all_or_nothing
    (reachable : Reachable args checkpoint tree)
    (block : Block) :
    (∀ error, (tree.addBlock block).1 = .error error → (tree.addBlock block).2 = tree) ∧
    ∀ admission, tree.weight.contains block.hash = false →
      tree.examine block = .ok admission →
      (∃ advanced,
        (tree.store block admission).advanceFrontier admission.validated = .ok advanced) ∧
        (tree.addBlock block).1 = .ok true := by
  have invariant := reachable.invariant
  refine ⟨fun error raised => ?_, fun admission new admitted =>
    invariant.addBlock_of_examine new admitted⟩
  rcases invariant.addBlock_cases block with ⟨_, known⟩ | ⟨_, _, _, refused⟩ |
    ⟨_, _, _, _, _, _, _, accepted, _⟩
  · rw [known]
  · rw [refused]
  · rw [accepted] at raised
    cases raised

/-! ## Conflicting finality -/

/-- What the calls for one block after the other report. -/
def results (tree : BlockTree) : List Block → List (Except Error Bool)
  | [] => []
  | block :: rest => (tree.addBlock block).1 :: (tree.addBlock block).2.results rest

/-- A valid branch that finalizes a checkpoint above the frontier of the tree,
and that the finalized block of the tree is not on. -/
structure Conflicts (tree : BlockTree) (branch : List Block) (chain : ProofOfStakeChain) :
    Prop where
  replayed : ∃ start, ProofOfStakeChain.init tree.genesisArgs = .ok start ∧
    start.submitBlocks branch = .ok chain
  higher : tree.finalizedHeight < chain.finalizedCheckpoint.2
  apart : tree.finalizedHash ∉ chain.chain.map Block.hash

/-- Hashes tell the blocks of a branch from genesis and from the stored blocks. -/
def TellsApart (tree : BlockTree) (branch : List Block) : Prop :=
  ∀ block ∈ branch, block.hash ≠ tree.genesisHash ∧
    ∀ stored, tree.blocks.get? block.hash = some stored → stored.unsealed = block.unsealed

/-- A block is not genesis, and a stored block with its hash is the same up to the
seal. -/
def TellsBlock (tree : BlockTree) (block : Block) : Prop :=
  block.hash ≠ tree.genesisHash ∧
    ∀ stored, tree.blocks.get? block.hash = some stored → stored.unsealed = block.unsealed

/-- A known block that hashes tell apart is stored on its parent. -/
theorem Store.stored_of_known
    {block : Block}
    (store : tree.Store)
    (tells : tree.TellsBlock block)
    (known : tree.weight.contains block.hash = true) :
    ∃ stored before after weight, stored.unsealed = block.unsealed ∧
      tree.HasBranch block.previousHash before weight ∧ before.submitBlock stored = .ok after ∧
      tree.HasBranch block.hash after (weight + before.stakeOf stored.validator) := by
  obtain ⟨fresh, alike⟩ := tells
  obtain ⟨weight, found⟩ := (Dict.contains_iff _ _).mp known
  obtain ⟨other, branch, _⟩ := store.branch _ weight found
  rw [store.genesisHash_eq] at fresh
  generalize hashed : block.hash = hash at branch
  cases branch with
  | genesis _ => exact absurd hashed fresh
  | @extend previous before _ stored weight earlier storedFound notGenesis linked submitted =>
      have same : stored.unsealed = block.unsealed := alike stored (by rw [hashed, storedFound])
      have parent : previous = block.previousHash := by
        rw [← linked, Block.previousHash_eq_of_unsealed same]
      exact ⟨stored, before, other, weight, same, parent ▸ earlier, submitted,
        .extend earlier storedFound notGenesis linked submitted⟩

/-- A known block that continues a chain of the tree ends a branch of the tree. -/
theorem Store.extends_known
    {left kept middle : ProofOfStakeChain}
    {weight : Int}
    {block : Block}
    (store : tree.Store)
    (branch : tree.HasBranch left.head.hash kept weight)
    (same : left.bare = kept.bare)
    (submitted : left.submitBlock block = .ok middle)
    (tells : tree.TellsBlock block)
    (known : tree.weight.contains block.hash = true) :
    ∃ after afterWeight, tree.HasBranch block.hash after afterWeight ∧
      middle.bare = after.bare := by
  obtain ⟨stored, before, after, _, alike, earlier, again, longer⟩ :=
    store.stored_of_known tells known
  rw [(submitted_of_submitBlock submitted).previous] at earlier
  obtain ⟨rfl, _⟩ := earlier.unique branch
  exact ⟨after, _, longer, bare_submitBlock same alike.symm submitted again⟩

/-! ## The stop is never reached -/

/-- None of the checks raises the stop. -/
theorem raises_examine (tree : BlockTree) (block : Block) :
    Raises Error.Ordinary (tree.examine block) := by
  have replays : ∀ chain path, Raises Error.Ordinary (replay tree.blocks chain path) := by
    intro chain path
    refine Raises.foldlM (fun chain hash => ?_) chain path
    simp [raises_submitBlock, Error.Ordinary]
  have guards : Raises Error.Ordinary (tree.guard block) := by
    simp [guard, rejectIf, descendsFromFinalized, raises_descendsLoop, Error.Ordinary]
  simp [examine, parentState, chainAt, raises_submitBlock, raises_pathLoop, replays, raises_init,
    guards, Error.Ordinary]

theorem Reachable.addBlock_ordinary
    (reachable : Reachable args checkpoint tree)
    (block : Block) :
    Raises Error.Ordinary (tree.addBlock block).1 := by
  cases known : tree.weight.contains block.hash with
  | true =>
      rw [addBlock, if_pos known]
      exact raises_ok false
  | false =>
      cases admitted : tree.examine block with
      | error error =>
          have refused : (tree.addBlock block).1 = .error error := by
            simp only [addBlock, known, Bool.false_eq_true, if_false, admitted]
          rw [refused, raises_error]
          exact tree.raises_examine block error admitted
      | ok admission =>
          rw [(reachable.invariant.addBlock_of_examine known admitted).2]
          exact raises_ok true

/-- No run of calls reaches the stop. -/
theorem Reachable.results_ordinary
    (reachable : Reachable args checkpoint tree)
    (branch : List Block) :
    ∀ result ∈ tree.results branch, Raises Error.Ordinary result := by
  induction branch generalizing tree with
  | nil => exact fun result inside => absurd inside List.not_mem_nil
  | cons block rest inductionHypothesis =>
      intro result inside
      rcases List.mem_cons.mp inside with rfl | later
      · exact reachable.addBlock_ordinary block
      · exact inductionHypothesis (reachable.add block) result later

/-! ## What happens instead -/

/-- A new block on a branch off the frontier is refused as an invalid block. -/
theorem Invariant.refuses_off_frontier
    {block : Block}
    {before : ProofOfStakeChain}
    {weight : Int}
    (invariant : tree.Invariant)
    (new : tree.weight.contains block.hash = false)
    (branch : tree.HasBranch block.previousHash before weight)
    (off : ¬before.Passes tree.frontier) :
    ∃ message, tree.addBlock block = (.error (.validation message), tree) := by
  obtain ⟨_, height, _⟩ := invariant.store.recorded branch
  have raises : Raises (fun error => ∃ message, error = .validation message)
      (tree.guard block) := by
    simp [guard, rejectIf, height, invariant.descendsFromFinalized_eq branch]
  have guarded : ∃ message, tree.guard block = .error (.validation message) := by
    cases result : tree.guard block with
    | error error =>
        obtain ⟨message, rfl⟩ := raises error result
        exact ⟨message, rfl⟩
    | ok newHeight =>
        obtain ⟨parent, _, parentBranch, passes, _⟩ :=
          (invariant.guard_eq_ok new newHeight).mp result
        obtain ⟨rfl, _⟩ := parentBranch.unique branch
        exact absurd passes off
  obtain ⟨message, guarded⟩ := guarded
  refine ⟨message, ?_⟩
  have refused : tree.examine block = .error (.validation message) := by
    rw [examine, guarded]
    rfl
  simp only [BlockTree.addBlock, new, Bool.false_eq_true, if_false, refused]

/-- What an accepted branch passes, every longer one passes. -/
theorem passes_submitBlocks
    {blocks : List Block}
    {before after : ProofOfStakeChain}
    {lower : Checkpoint}
    (passes : before.Passes lower)
    (ran : before.submitBlocks blocks = .ok after) :
    after.Passes lower :=
  foldlM_invariant (fun chain => chain.Passes lower)
    (fun _ _ _ _ kept submitted => kept.submitBlock submitted) passes ran

/-- The first block of a conflicting branch that is new to the tree is refused
as an invalid block. -/
theorem Invariant.refuses_conflicting
    {left kept chain : ProofOfStakeChain}
    {weight : Int}
    {later : List Block}
    (invariant : tree.Invariant)
    (branch : tree.HasBranch left.head.hash kept weight)
    (same : left.bare = kept.bare)
    (ran : left.submitBlocks later = .ok chain)
    (higher : tree.finalizedHeight < chain.finalizedCheckpoint.2)
    (apart : tree.finalizedHash ∉ chain.chain.map Block.hash)
    (tells : tree.TellsApart later) :
    ∃ message, .error (.validation message) ∈ tree.results later := by
  induction later generalizing left kept weight with
  | nil =>
      cases ran
      have finalized : chain.finalizedCheckpoint = kept.finalizedCheckpoint := by
        rw [finalizedCheckpoint, finalizedCheckpoint, state_eq_of_bare same]
      rw [finalized] at higher
      rcases invariant.frontier_highest _ _ _ branch with equal | lower
      · rw [equal] at higher
        exact absurd higher (lt_irrefl _)
      · exact absurd higher (lt_asymm lower)
  | cons block rest inductionHypothesis =>
      obtain ⟨middle, submitted, remaining⟩ := (foldlM_cons_eq_ok _ _ _ _).mp ran
      have accepted := submitted_of_submitBlock submitted
      cases known : tree.weight.contains block.hash with
      | true =>
          have extended := invariant.store.extends_known branch same submitted
            (tells block List.mem_cons_self) known
          obtain ⟨after, afterWeight, longer, alike⟩ := extended
          rw [← accepted.newest] at longer
          have later := inductionHypothesis longer alike remaining
            fun other inside => tells other (List.mem_cons_of_mem block inside)
          obtain ⟨message, reported⟩ := later
          have unchanged : (tree.addBlock block).2 = tree := by
            rw [BlockTree.addBlock, if_pos known]
          refine ⟨message, List.mem_cons_of_mem _ ?_⟩
          rw [unchanged]
          exact reported
      | false =>
          have off : ¬kept.Passes tree.frontier := by
            intro passes
            have reached := passes_submitBlocks (passes_of_bare same.symm passes) ran
            have here := reached.2
            rw [hashAt, ← List.getElem?_map] at here
            exact apart (List.mem_of_getElem? here)
          rw [← accepted.previous] at branch
          obtain ⟨message, refused⟩ := invariant.refuses_off_frontier known branch off
          refine ⟨message, List.mem_cons.mpr (.inl ?_)⟩
          rw [refused]

/-- Whatever conflicting branch is fed to a reachable tree, no call stops for
conflicting finality.  If hashes tell its blocks from those in the tree, one of
them is refused as an invalid block. -/
theorem Reachable.conflict_never_halts
    {branch : List Block}
    {chain : ProofOfStakeChain}
    (reachable : Reachable args checkpoint tree)
    (conflicts : tree.Conflicts branch chain) :
    (∀ message, .error (.conflictingFinality message) ∉ tree.results branch) ∧
    (tree.TellsApart branch →
      ∃ message, .error (.validation message) ∈ tree.results branch) := by
  constructor
  · intro message inside
    exact reachable.results_ordinary branch _ inside (.conflictingFinality message) rfl
  · intro tells
    obtain ⟨start, initialised, replayed⟩ := conflicts.replayed
    have genesis : tree.HasBranch start.head.hash start 0 := by
      rw [head_init initialised]
      exact .genesis initialised
    exact reachable.invariant.refuses_conflicting genesis rfl replayed conflicts.higher
      conflicts.apart tells

end BlockTree

namespace ForkSample

open BlockTree

attribute [local instance] Symbolic.primitives

/-- A block whose parent no tree of the sample knows is refused, and nothing is
half done. -/
theorem addBlock_all_or_nothing_orphan :
    succeeded (start.addBlock (late.getD 3 (genesisBlock 0))).1 = false ∧
      (start.addBlock (late.getD 3 (genesisBlock 0))).2 = start := by
  have refused : succeeded (start.addBlock (late.getD 3 (genesisBlock 0))).1 = false := by
    decide +kernel
  refine ⟨refused, ?_⟩
  cases result : (start.addBlock (late.getD 3 (genesisBlock 0))).1 with
  | ok accepted =>
      rw [result] at refused
      cases refused
  | error error => exact (start_reachable.addBlock_all_or_nothing _).1 error result

/-- A branch from genesis on which the same validator finalizes a later block. -/
def conflictingRounds : List (List Draft) :=
  [[.pay 0 0 1 0], [.vote 0 0 1 0], [.vote 0 1 2 0], [.vote 0 2 3 0]]

theorem conflictingPlayed : succeeded (blocksOf conflictingRounds) = true := by decide +kernel

@[irreducible] def conflicting : List Block :=
  outcome (blocksOf conflictingRounds) conflictingPlayed

/-- The chain of that branch. -/
def replayConflicting : Except Error ProofOfStakeChain := do
  let genesis ← ProofOfStakeChain.init args
  genesis.submitBlocks conflicting

theorem conflictingReplayed : succeeded replayConflicting = true := by decide +kernel

@[irreducible] def conflictingChain : ProofOfStakeChain :=
  outcome replayConflicting conflictingReplayed

theorem conflicting_apart :
    (start.deliver finalizing).finalizedHeight < conflictingChain.finalizedCheckpoint.2 ∧
      (start.deliver finalizing).finalizedHash ∉ conflictingChain.chain.map Block.hash ∧
      ∀ block ∈ conflicting, block.hash ≠ (start.deliver finalizing).genesisHash ∧
        (start.deliver finalizing).blocks.get? block.hash = none := by
  decide +kernel

theorem conflicting_conflicts :
    (start.deliver finalizing).Conflicts conflicting conflictingChain := by
  have replayed : replayConflicting = .ok conflictingChain := by
    unfold conflictingChain
    exact eq_ok_outcome _ conflictingReplayed
  simp only [replayConflicting, bind_eq_ok] at replayed
  rw [← (start_reachable.deliver finalizing).args_eq] at replayed
  exact ⟨replayed, conflicting_apart.1, conflicting_apart.2.1⟩

/-- One block of the conflicting branch is refused as an invalid block, and
nothing else happens. -/
theorem conflict_never_halts_conflicting :
    (∀ message,
      .error (.conflictingFinality message) ∉ (start.deliver finalizing).results conflicting) ∧
    ∃ message, .error (.validation message) ∈ (start.deliver finalizing).results conflicting := by
  have halts := (start_reachable.deliver finalizing).conflict_never_halts conflicting_conflicts
  refine ⟨halts.1, halts.2 fun block inside => ?_⟩
  obtain ⟨fresh, unknown⟩ := conflicting_apart.2.2 block inside
  refine ⟨fresh, fun stored found => ?_⟩
  rw [unknown] at found
  cases found

/-- Conflicting finality is not always reported as such. -/
theorem conflict_unreported :
    ¬∀ (args : GenesisArgs) (checkpoint : Option Checkpoint) (tree : BlockTree)
      (branch : List Block) (chain : ProofOfStakeChain),
      BlockTree.Reachable args checkpoint tree → tree.Conflicts branch chain →
      ∃ message, .error (.conflictingFinality message) ∈ tree.results branch := by
  intro claim
  obtain ⟨message, reported⟩ := claim args none (start.deliver finalizing) conflicting
    conflictingChain (start_reachable.deliver finalizing) conflicting_conflicts
  exact (start_reachable.deliver finalizing).results_ordinary conflicting _ reported
    (.conflictingFinality message) rfl

end ForkSample

end Mindees
