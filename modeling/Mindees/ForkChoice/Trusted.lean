import Mindees.Library.Runs
import Mindees.ForkChoice.HeadChoice

/-!
# The trusted checkpoint

The tree refuses any other block at the height of the trusted one.  That does
not keep the trusted block on the canonical chain: a branch that leaves the
trusted history and stays below that height can outweigh it.
-/

namespace Mindees

open Library ProofOfStakeChain

namespace BlockTree

variable [Primitives]

/-- The trusted block is stored at its height. -/
def HoldsTrusted (tree : BlockTree) (trusted : Checkpoint) : Prop :=
  tree.weight.contains trusted.1 = true ∧ tree.height.get? trusted.1 = some trusted.2

/-- If the trusted block is stored, it is on the canonical chain. -/
def Pinned (tree : BlockTree) (trusted : Checkpoint) : Prop :=
  tree.HoldsTrusted trusted → tree.canonical.Passes trusted

/-- The new block beats a stored one. -/
def Outweighs
    (tree : BlockTree)
    (block : Block)
    (admission : Admission)
    (hash : Str) : Prop :=
  tree.weight.getD hash 0 < admission.newWeight ∨
    (tree.weight.getD hash 0 = admission.newWeight ∧ block.hash < hash)

/-- A block that the tree accepts does not move the head off the trusted block.
If its branch leaves the trusted history, it neither outweighs the head nor
finalizes a block off the canonical chain; if it is the trusted block, it
outweighs every leaf that may become the head. -/
def Harmless (tree : BlockTree) (trusted : Checkpoint) (block : Block) : Prop :=
  tree.weight.contains block.hash = false →
  ∀ admission before weight, tree.Child block admission before weight →
    before.Passes tree.frontier → tree.trusts (before.head.index + 1) block.hash →
    (tree.HoldsTrusted trusted → ¬admission.validated.Passes trusted →
      ¬tree.Outweighs block admission tree.headHash ∧
        tree.canonical.Passes (tree.advanced admission.validated)) ∧
    ((block.hash, admission.newHeight) = trusted →
      ∀ hash chain otherWeight, tree.HasBranch hash chain otherWeight →
        chain.Passes (tree.advanced admission.validated) → tree.Outweighs block admission hash)

variable {args : GenesisArgs} {checkpoint : Option Checkpoint} {tree grown : BlockTree}
  {trusted : Checkpoint} {block : Block} {admission : Admission}
  {before chain : ProofOfStakeChain} {weight : Int} {hash : Str}

/-- The trusted block is stored when it has a branch of its height. -/
theorem Store.holdsTrusted_iff
    (store : tree.Store) :
    tree.HoldsTrusted trusted ↔
      ∃ chain weight, tree.HasBranch trusted.1 chain weight ∧ chain.head.index = trusted.2 := by
  constructor
  · rintro ⟨known, height⟩
    obtain ⟨weight, found⟩ := (Dict.contains_iff _ _).mp known
    obtain ⟨chain, branch, recorded, _⟩ := store.branch _ _ found
    exact ⟨chain, weight, branch, Option.some.inj (recorded.symm.trans height)⟩
  · rintro ⟨chain, weight, branch, top⟩
    obtain ⟨found, height, _⟩ := store.recorded branch
    exact ⟨(Dict.contains_iff _ _).mpr ⟨weight, found⟩, by rw [height, top]⟩

/-- A block is a child of its branch in one way only. -/
theorem Child.unique
    {other : Admission}
    {otherBefore : ProofOfStakeChain}
    {otherWeight : Int}
    (child : tree.Child block admission before weight)
    (again : tree.Child block other otherBefore otherWeight) :
    other = admission := by
  obtain ⟨rfl, rfl⟩ := again.parent.unique child.parent
  obtain ⟨newHeight, validated, newWeight⟩ := admission
  obtain ⟨_, submitted, height, stake⟩ := child
  obtain ⟨_, submittedToo, heightToo, stakeToo⟩ := again
  have same : other.validated = validated :=
    Except.ok.inj (submittedToo.symm.trans submitted)
  cases other
  rw [Admission.mk.injEq]
  exact ⟨heightToo.trans height.symm, same, stakeToo.trans stake.symm⟩

/-! ## The head after a block -/

/-- An accepted block, and the tree before and after it. -/
structure Accepts
    (tree : BlockTree)
    (block : Block)
    (admission : Admission)
    (before : ProofOfStakeChain)
    (weight : Int)
    (grown : BlockTree) : Prop where
  invariant : tree.Invariant
  new : tree.weight.contains block.hash = false
  child : tree.Child block admission before weight
  passes : before.Passes tree.frontier
  trust : tree.trusts (before.head.index + 1) block.hash
  grows : tree.Grows block admission grown
  grown : grown.Invariant

namespace Accepts

variable (accepts : tree.Accepts block admission before weight grown)
  {otherWeight : Int}

include accepts

theorem ne_of_branch
    (branch : tree.HasBranch hash chain otherWeight) :
    block.hash ≠ hash := by
  rintro rfl
  have new := accepts.new
  rw [Dict.contains, (accepts.invariant.store.recorded branch).1] at new
  cases new

theorem old_branch
    (branch : tree.HasBranch hash chain otherWeight) :
    grown.HasBranch hash chain otherWeight :=
  accepts.grows.old_branch accepts.invariant.store accepts.new accepts.child branch

theorem new_branch : grown.HasBranch block.hash admission.validated admission.newWeight :=
  accepts.grows.new_branch accepts.invariant.store accepts.new accepts.child

theorem validated_passes : admission.validated.Passes grown.frontier := by
  rw [accepts.grows.frontier]
  exact (Invariant.validated_passes accepts.child accepts.passes).2

/-- Old weights do not change. -/
theorem getD_weight
    (branch : tree.HasBranch hash chain otherWeight) :
    grown.weight.getD hash 0 = tree.weight.getD hash 0 := by
  rw [accepts.grows.weight, Dict.getD_set, if_neg (accepts.ne_of_branch branch)]

/-- The new block beats an old one in the grown tree when it outweighs it. -/
theorem beats_iff_outweighs
    (branch : tree.HasBranch hash chain otherWeight) :
    grown.beats block.hash hash = true ↔ tree.Outweighs block admission hash := by
  rw [grown.beats_iff, accepts.getD_weight branch, accepts.grows.weight, Dict.getD_set,
    if_pos rfl, Outweighs]

/-- The head is the new block or an old one. -/
theorem head_cases :
    (grown.headHash = block.hash ∧ grown.canonical = admission.validated) ∨
      ∃ headWeight, tree.HasBranch grown.headHash grown.canonical headWeight := by
  obtain ⟨headWeight, headBranch⟩ := accepts.grown.head
  rcases accepts.grows.branch_cases accepts.invariant.store accepts.new accepts.child headBranch
    with old | ⟨same, chain, _⟩
  · exact .inr ⟨headWeight, old⟩
  · exact .inl ⟨same, chain⟩

/-- A new head outweighs every old leaf that may become the head. -/
theorem outweighs_of_head
    (head : grown.headHash = block.hash)
    (branch : tree.HasBranch hash chain otherWeight)
    (eligible : chain.Passes grown.frontier) :
    tree.Outweighs block admission hash := by
  rw [← accepts.beats_iff_outweighs branch, ← head]
  refine (accepts.grown.head_best _ _ _ (accepts.old_branch branch) eligible).resolve_left ?_
  rw [head]
  exact (accepts.ne_of_branch branch).symm

/-- An old head is not outweighed. -/
theorem not_outweighs_of_old_head
    (old : tree.HasBranch grown.headHash grown.canonical otherWeight) :
    ¬tree.Outweighs block admission grown.headHash := by
  rw [← accepts.beats_iff_outweighs old]
  have beaten := (accepts.grown.head_best _ _ _ accepts.new_branch
    accepts.validated_passes).resolve_left (accepts.ne_of_branch old)
  rw [grown.beats_strictTotal.asymm _ _ beaten]
  exact Bool.false_ne_true

/-- The head stays if it may be the head again and the new block is not. -/
theorem head_kept
    (old : tree.HasBranch grown.headHash grown.canonical otherWeight)
    (eligible : tree.canonical.Passes grown.frontier) :
    grown.headHash = tree.headHash ∧ grown.canonical = tree.canonical := by
  obtain ⟨headWeight, headBranch⟩ := accepts.invariant.head
  obtain ⟨_, grownHead⟩ := accepts.grown.head
  have same : grown.headHash = tree.headHash := by
    by_contra different
    have below : grown.canonical.Passes tree.frontier :=
      accepts.invariant.passes_old_frontier accepts.new accepts.child accepts.passes
        accepts.grows grownHead accepts.grown.head_passes
    have ahead := (accepts.invariant.head_best _ _ _ old below).resolve_left different
    have under := (accepts.grown.head_best _ _ _ (accepts.old_branch headBranch)
      eligible).resolve_left (Ne.symm different)
    rw [beats_iff, accepts.getD_weight headBranch, accepts.getD_weight old, ← beats_iff,
      tree.beats_strictTotal.asymm _ _ ahead] at under
    cases under
  refine ⟨same, ?_⟩
  rw [same] at old
  exact (old.unique headBranch).1

/-- The trusted block is stored when it was, or when it is the new block. -/
theorem holdsTrusted_iff :
    grown.HoldsTrusted trusted ↔
      tree.HoldsTrusted trusted ∨ (block.hash, admission.newHeight) = trusted := by
  obtain ⟨hash, height⟩ := trusted
  have absent := accepts.new
  simp only [HoldsTrusted, accepts.grows.weight, accepts.grows.height, Dict.contains_set,
    Dict.get?_set, Prod.mk.injEq]
  by_cases same : block.hash = hash
  · subst same
    simp [absent]
  · simp [same]

/-- While the trusted block is on the canonical chain, a block keeps it there if
its branch holds the trusted block, or if it loses against the head. -/
theorem passes_iff_of_passes
    (held : tree.canonical.Passes trusted) :
    grown.canonical.Passes trusted ↔
      admission.validated.Passes trusted ∨
        (¬tree.Outweighs block admission tree.headHash ∧
          tree.canonical.Passes grown.frontier) := by
  obtain ⟨_, headBranch⟩ := accepts.invariant.head
  obtain ⟨_, grownHead⟩ := accepts.grown.head
  have headKept := accepts.old_branch headBranch
  have above := accepts.grown.head_passes
  constructor
  · intro kept
    by_cases onTrusted : admission.validated.Passes trusted
    · exact .inl onTrusted
    · right
      have eligible : tree.canonical.Passes grown.frontier := by
        rcases le_total grown.frontier.2 trusted.2 with low | high
        · exact grownHead.passes_of_common kept headKept held above low
        · -- the frontier of the new branch is above the trusted block
          exact absurd (grownHead.passes_of_common above accepts.new_branch
            accepts.validated_passes kept high) onTrusted
      rcases accepts.head_cases with ⟨_, chain⟩ | ⟨_, old⟩
      · rw [chain] at kept
        exact absurd kept onTrusted
      · have stays := (accepts.head_kept old eligible).1
        rw [← stays]
        exact ⟨accepts.not_outweighs_of_old_head old, eligible⟩
  · intro safe
    rcases accepts.head_cases with ⟨isNew, chain⟩ | ⟨_, old⟩
    · rw [chain]
      rcases safe with onTrusted | ⟨loses, eligible⟩
      · exact onTrusted
      · exact absurd (accepts.outweighs_of_head isNew headBranch eligible) loses
    · by_cases eligible : tree.canonical.Passes grown.frontier
      · rw [(accepts.head_kept old eligible).2]
        exact held
      · -- the new branch finalized a block above the trusted one
        have onTrusted : admission.validated.Passes trusted :=
          safe.resolve_right fun stays => eligible stays.2
        rcases le_total grown.frontier.2 trusted.2 with low | high
        · exact absurd (accepts.new_branch.passes_of_common onTrusted headKept held
            accepts.validated_passes low) eligible
        · exact accepts.new_branch.passes_of_common accepts.validated_passes grownHead above
            onTrusted high

/-- The trusted block gets onto the canonical chain when it outweighs every leaf
that may become the head. -/
theorem passes_iff_of_trusted
    (isTrusted : (block.hash, admission.newHeight) = trusted) :
    grown.canonical.Passes trusted ↔
      ∀ hash chain otherWeight, tree.HasBranch hash chain otherWeight →
        chain.Passes grown.frontier → tree.Outweighs block admission hash := by
  subst isTrusted
  have newest : admission.validated.Passes (block.hash, admission.newHeight) := by
    have top : admission.validated.head.index = admission.newHeight := by
      have accepted := submitted_of_submitBlock accepts.child.submitted
      rw [accepted.newest, accepted.index, accepts.child.newHeight]
    rw [← top]
    exact accepts.new_branch.passes_head
  constructor
  · intro kept hash chain otherWeight branch eligible
    rcases accepts.head_cases with ⟨isNew, _⟩ | ⟨_, old⟩
    · exact accepts.outweighs_of_head isNew branch eligible
    · obtain ⟨lower, lowerWeight, lowerBranch, _⟩ := old.ancestor kept
      exact absurd rfl (accepts.ne_of_branch lowerBranch)
  · intro wins
    rcases accepts.head_cases with ⟨_, chain⟩ | ⟨_, old⟩
    · rw [chain]
      exact newest
    · exact absurd (wins _ _ _ old accepts.grown.head_passes)
        (accepts.not_outweighs_of_old_head old)

/-- The block is harmless exactly when the head stays on the trusted block. -/
theorem pinned_iff_harmless
    (pinned : tree.Pinned trusted) :
    grown.Pinned trusted ↔ tree.Harmless trusted block := by
  have frontier := accepts.grows.frontier
  constructor
  · intro keeps _ other otherBefore otherWeight child _ _
    obtain rfl := accepts.child.unique child
    constructor
    · intro held off
      have kept := keeps (accepts.holdsTrusted_iff.mpr (.inl held))
      rw [← frontier]
      exact ((accepts.passes_iff_of_passes (pinned held)).mp kept).resolve_left off
    · intro isTrusted
      have kept := keeps (accepts.holdsTrusted_iff.mpr (.inr isTrusted))
      rw [← frontier]
      exact (accepts.passes_iff_of_trusted isTrusted).mp kept
  · intro harmless holds
    obtain ⟨loses, wins⟩ :=
      harmless accepts.new admission before weight accepts.child accepts.passes accepts.trust
    rw [← frontier] at loses wins
    rcases accepts.holdsTrusted_iff.mp holds with held | isTrusted
    · rw [accepts.passes_iff_of_passes (pinned held)]
      by_cases onTrusted : admission.validated.Passes trusted
      · exact .inl onTrusted
      · exact .inr (loses held onTrusted)
    · exact (accepts.passes_iff_of_trusted isTrusted).mpr (wins isTrusted)

end Accepts

/-- A call keeps the trusted block on the canonical chain exactly when its block
is harmless. -/
theorem Invariant.pinned_addBlock_iff
    (invariant : tree.Invariant)
    (pinned : tree.Pinned trusted)
    (block : Block) :
    (tree.addBlock block).2.Pinned trusted ↔ tree.Harmless trusted block := by
  rcases invariant.addBlock_cases block with ⟨known, unchanged⟩ | ⟨new, refused, _, unchanged⟩ |
    ⟨new, admission, before, weight, child, passes, trust, _, grows, grown⟩
  · rw [unchanged]
    refine iff_of_true pinned fun new => ?_
    rw [known] at new
    cases new
  · rw [unchanged]
    refine iff_of_true pinned fun _ admission before weight child passes trust => ?_
    exact absurd ((invariant.examine_eq_ok new admission).mpr
      ⟨before, weight, child, passes, trust⟩) (refused admission)
  · have accepts : tree.Accepts block admission before weight (tree.addBlock block).2 :=
      ⟨invariant, new, child, passes, trust, grows, grown⟩
    exact accepts.pinned_iff_harmless pinned

/-! ## Runs -/

theorem pinned_init
    (initialised : init args checkpoint = .ok tree) :
    tree.Pinned trusted := by
  intro holds
  have invariant := invariant_init initialised
  obtain ⟨chain, weight, branch, top⟩ := invariant.store.holdsTrusted_iff.mp holds
  obtain ⟨_, headBranch⟩ := invariant.head
  obtain ⟨first, start, rfl⟩ := (init_eq_ok _ _ _).mp initialised
  obtain ⟨_, rfl, _⟩ := branch_of_no_blocks start branch
  have passes := branch.passes_head
  rw [top] at passes
  exact passes

/-- Once the trusted block has been accepted it is on the canonical chain of every
later tree exactly when no call adds a harmful block. -/
theorem trusted_stays_iff
    {start : BlockTree}
    (initialised : init args (some trusted) = .ok start)
    (blocks : List Block) :
    (∀ earlier, earlier <+: blocks → (start.deliver earlier).Pinned trusted) ↔
      ∀ earlier block later, blocks = earlier ++ block :: later →
        (start.deliver earlier).Harmless trusted block := by
  refine @foldl_always_iff _ _ (fun tree block => (tree.addBlock block).2) start blocks
    Invariant (fun tree => tree.Pinned trusted) (fun tree block => tree.Harmless trusted block)
    ?_ ?_ (invariant_init initialised) (pinned_init initialised)
  · intro tree block invariant
    exact invariant.addBlock block
  · intro tree block invariant pinned
    exact invariant.pinned_addBlock_iff pinned block

theorem Reachable.wsCheckpoint_eq
    (reachable : Reachable args checkpoint tree) :
    tree.wsCheckpoint = checkpoint := by
  induction reachable with
  | init initialised =>
      obtain ⟨_, _, rfl⟩ := (init_eq_ok _ _ _).mp initialised
      rfl
  | add block earlier inductionHypothesis =>
      rcases earlier.invariant.addBlock_cases block with ⟨_, unchanged⟩ | ⟨_, _, _, unchanged⟩ |
        ⟨_, _, _, _, _, _, _, _, grows, _⟩
      · rw [unchanged, inductionHypothesis]
      · rw [unchanged, inductionHypothesis]
      · rw [grows.checkpoint, inductionHypothesis]

/-- Only a branch that ends below the trusted height can avoid the trusted
block. -/
theorem Reachable.passes_trusted
    (reachable : Reachable args (some trusted) tree)
    (positive : 0 < trusted.2)
    (branch : tree.HasBranch hash chain weight)
    (reaches : trusted.2 ≤ chain.head.index) :
    chain.Passes trusted := by
  induction reachable generalizing hash chain weight with
  | init initialised =>
      obtain ⟨first, start, rfl⟩ := (init_eq_ok _ _ _).mp initialised
      obtain ⟨_, rfl, _⟩ := branch_of_no_blocks start branch
      rw [index_init start] at reaches
      exact absurd positive (not_lt.mpr reaches)
  | @add tree block earlier inductionHypothesis =>
      have checkpoint := earlier.wsCheckpoint_eq
      have invariant := earlier.invariant
      rcases invariant.addBlock_cases block with ⟨_, unchanged⟩ | ⟨_, _, _, unchanged⟩ |
        ⟨new, admission, before, _, child, _, trust, _, grows, _⟩
      · rw [unchanged] at branch
        exact inductionHypothesis branch reaches
      · rw [unchanged] at branch
        exact inductionHypothesis branch reaches
      · rcases grows.branch_cases invariant.store new child branch with old | ⟨same, rfl, _⟩
        · exact inductionHypothesis old reaches
        · have accepted := submitted_of_submitBlock child.submitted
          rw [accepted.newest, accepted.index] at reaches
          by_cases below : trusted.2 ≤ before.head.index
          · exact (inductionHypothesis child.parent below).submitBlock child.submitted
          · have height : before.head.index + 1 = trusted.2 := by omega
            have isTrusted : block.hash = trusted.1 := trust trusted checkpoint height
            have passes := branch.passes_head
            rwa [same, isTrusted, accepted.newest, accepted.index, height] at passes

end BlockTree

namespace TrustedSample

open BlockTree

attribute [local instance] Symbolic.primitives

/-- The genesis of the fork sample. -/
abbrev args : GenesisArgs := ForkSample.args

/-- The trusted history, of three blocks. -/
def historyRounds : List (List Draft) := [[], [], []]

/-- A branch of two blocks, whose first one raises the stake of the proposer. -/
def shortRounds : List (List Draft) := [[.stake 0 5000 0], []]

theorem branchesPlayed :
    succeeded (ForkSample.blocksOf historyRounds) = true ∧
      succeeded (ForkSample.blocksOf shortRounds) = true := by
  decide +kernel

@[irreducible] def history : List Block :=
  outcome (ForkSample.blocksOf historyRounds) branchesPlayed.1

@[irreducible] def short : List Block :=
  outcome (ForkSample.blocksOf shortRounds) branchesPlayed.2

/-- The last block of the history is trusted. -/
def trusted : Checkpoint := ((history.map Block.hash).getLastD [], 3)

theorem initialised : succeeded (BlockTree.init args (some trusted)) = true := by decide +kernel

@[irreducible] def start : BlockTree :=
  outcome (BlockTree.init args (some trusted)) initialised

theorem init_eq : BlockTree.init args (some trusted) = .ok start := by
  unfold start
  exact eq_ok_outcome _ initialised

theorem bypassed :
    (start.deliver history).HoldsTrusted trusted ∧
      (start.deliver (history ++ short)).HoldsTrusted trusted ∧
      (start.deliver history).canonical.Passes trusted ∧
      ¬(start.deliver (history ++ short)).canonical.Passes trusted := by
  unfold HoldsTrusted
  decide +kernel

/-- One block of the short branch is not harmless. -/
theorem trusted_stays_iff_short :
    ¬∀ earlier block later, history ++ short = earlier ++ block :: later →
      (start.deliver earlier).Harmless trusted block := by
  intro harmless
  have pinned := (trusted_stays_iff init_eq (history ++ short)).mpr harmless _ List.prefix_rfl
  exact bypassed.2.2.2 (pinned bypassed.2.1)

/-- A shorter branch takes the trusted block off the canonical chain. -/
theorem checkpoint_bypassed :
    ¬∀ (args : GenesisArgs) (trusted : Checkpoint) (start : BlockTree) (blocks : List Block),
      BlockTree.init args (some trusted) = .ok start →
      (start.deliver blocks).HoldsTrusted trusted →
      (start.deliver blocks).canonical.Passes trusted := by
  intro claim
  exact bypassed.2.2.2 (claim args trusted start (history ++ short) init_eq bypassed.2.1)

end TrustedSample

end Mindees
