import Mindees.ForkChoice.Store

/-!
# The invariant of the tree

In every reachable tree the canonical chain is the branch of the head and passes
the finality frontier, the frontier is the highest checkpoint that any stored
branch finalizes, and the head beats every other leaf that descends from it.
-/

namespace Mindees

open Library ProofOfStakeChain

variable [Primitives]

namespace BlockTree

/-- What every call keeps. -/
structure Invariant (tree : BlockTree) : Prop where
  store : tree.Store
  head : ∃ weight, tree.HasBranch tree.headHash tree.canonical weight
  head_passes : tree.canonical.Passes tree.frontier
  frontier_finalized : ∃ hash chain weight, tree.HasBranch hash chain weight ∧
    chain.finalizedCheckpoint = tree.frontier
  frontier_highest : ∀ hash chain weight, tree.HasBranch hash chain weight →
    chain.finalizedCheckpoint = tree.frontier ∨
      chain.finalizedCheckpoint.2 < tree.finalizedHeight
  head_best : ∀ hash chain weight, tree.HasBranch hash chain weight →
    chain.Passes tree.frontier → hash = tree.headHash ∨ tree.beats tree.headHash hash = true

namespace Invariant

variable {tree : BlockTree} {hash : Str} {chain : ProofOfStakeChain} {weight : Int}
  {block : Block}

theorem finalizedHeight_nonneg
    (invariant : tree.Invariant) :
    0 ≤ tree.finalizedHeight := invariant.head_passes.1

/-- The frontier is a stored block at its height. -/
theorem frontier_branch
    (invariant : tree.Invariant) :
    ∃ chain weight, tree.HasBranch tree.finalizedHash chain weight ∧
      chain.head.index = tree.finalizedHeight := by
  obtain ⟨_, branch⟩ := invariant.head
  obtain ⟨lower, lowerWeight, lowerBranch, height, _⟩ := branch.ancestor invariant.head_passes
  exact ⟨lower, lowerWeight, lowerBranch, height⟩

theorem frontier_height
    (invariant : tree.Invariant) :
    tree.height.get? tree.finalizedHash = some tree.finalizedHeight := by
  obtain ⟨chain, weight, branch, height⟩ := invariant.frontier_branch
  rw [(invariant.store.recorded branch).2.1, height]

/-- The frontier branch passes the frontier. -/
theorem frontier_passes
    (invariant : tree.Invariant)
    (branch : tree.HasBranch tree.finalizedHash chain weight) :
    chain.Passes tree.frontier := by
  have here := branch.passes_head
  have height := (invariant.store.recorded branch).2.1
  rw [invariant.frontier_height] at height
  rwa [← Option.some.inj height] at here

theorem descendsFromFinalized_eq
    (invariant : tree.Invariant)
    (branch : tree.HasBranch hash chain weight) :
    tree.descendsFromFinalized hash = .ok (decide (chain.Passes tree.frontier)) := by
  exact invariant.store.descendsFromFinalized_eq invariant.finalizedHeight_nonneg
    invariant.frontier_height branch

end Invariant

/-! ## Admission -/

/-- The trusted checkpoint allows a block at a height. -/
def trusts (tree : BlockTree) (newHeight : Int) (hash : Str) : Prop :=
  ∀ checkpoint ∈ tree.wsCheckpoint, newHeight = checkpoint.2 → hash = checkpoint.1

/-- The checks before a block is applied, for a new block. -/
theorem Invariant.guard_eq_ok
    {tree : BlockTree}
    {block : Block}
    (invariant : tree.Invariant)
    (new : tree.weight.contains block.hash = false)
    (newHeight : Int) :
    tree.guard block = .ok newHeight ↔
      ∃ before weight, tree.HasBranch block.previousHash before weight ∧
        before.Passes tree.frontier ∧ tree.trusts (before.head.index + 1) block.hash ∧
        newHeight = before.head.index + 1 := by
  have other : block.hash ≠ tree.finalizedHash := by
    intro same
    obtain ⟨chain, weight, branch, _⟩ := invariant.frontier_branch
    rw [same, Dict.contains, (invariant.store.recorded branch).1] at new
    cases new
  have trusted : ∀ height : Int, (¬∃ checkpoint ∈ tree.wsCheckpoint,
      height = checkpoint.2 ∧ block.hash ≠ checkpoint.1) ↔ tree.trusts height block.hash := by
    intro height
    simp only [trusts, not_exists, not_and, not_not, ne_eq]
  simp only [guard, rejectIf, bind_eq_ok, raiseIf_eq_ok, require_eq_ok, exists_unit,
    Bool.not_eq_false]
  constructor
  · rintro ⟨known, parentHeight, found, above, rest⟩
    obtain ⟨weight, recorded⟩ := (Dict.contains_iff _ _).mp known
    obtain ⟨before, branch, height, _⟩ := invariant.store.branch _ weight recorded
    obtain rfl := Option.some.inj (found.symm.trans height)
    have higher : tree.finalizedHeight < before.head.index + 1 := by
      by_contra low
      exact above ⟨not_lt.mp low, other⟩
    simp only [if_pos higher, invariant.descendsFromFinalized_eq branch, bind_eq_ok,
      raiseIf_eq_ok, exists_unit, pure_eq_ok, Except.ok.injEq, exists_eq_left',
      decide_eq_false_iff_not, not_not, trusted] at rest
    obtain ⟨passes, trust, rfl⟩ := rest
    exact ⟨before, weight, branch, passes, trust, rfl⟩
  · rintro ⟨before, weight, branch, passes, trust, rfl⟩
    obtain ⟨recorded, height, _⟩ := invariant.store.recorded branch
    have reached : tree.finalizedHeight ≤ before.head.index :=
      branch.reachable.height_le_of_passes passes
    have higher : tree.finalizedHeight < before.head.index + 1 := by omega
    refine ⟨(Dict.contains_iff _ _).mpr ⟨weight, recorded⟩, before.head.index, height,
      fun low => not_lt.mpr low.1 higher, ?_⟩
    simp only [if_pos higher, invariant.descendsFromFinalized_eq branch, bind_eq_ok,
      raiseIf_eq_ok, exists_unit, pure_eq_ok, Except.ok.injEq, exists_eq_left',
      decide_eq_false_iff_not, not_not, trusted]
    exact ⟨passes, trust, trivial⟩

/-- What an admitted new block is: a valid child of a stored branch that passes
the frontier. -/
theorem Invariant.examine_eq_ok
    {tree : BlockTree}
    {block : Block}
    (invariant : tree.Invariant)
    (new : tree.weight.contains block.hash = false)
    (admission : Admission) :
    tree.examine block = .ok admission ↔
      ∃ before weight, tree.Child block admission before weight ∧
        before.Passes tree.frontier ∧ tree.trusts (before.head.index + 1) block.hash := by
  -- both ways of reaching the parent's state yield its branch
  have parentState : ∀ before weight, tree.HasBranch block.previousHash before weight →
      tree.parentState block = .ok before := by
    intro before weight branch
    unfold BlockTree.parentState
    split_ifs with onHead
    · obtain ⟨headWeight, headBranch⟩ := invariant.head
      rw [extendsHead, decide_eq_true_eq] at onHead
      obtain ⟨rfl, _⟩ := branch.unique (onHead ▸ headBranch)
      rfl
    · exact invariant.store.chainAt_eq branch
  obtain ⟨newHeight, validated, newWeight⟩ := admission
  simp only [examine, bind_eq_ok, invariant.guard_eq_ok new, require_eq_ok, pure_eq_ok,
    Admission.mk.injEq]
  constructor
  · rintro ⟨height, ⟨before, weight, branch, passes, trust, rfl⟩, reached, found, after,
      submitted, parentWeight, recorded, rfl, rfl, rfl⟩
    obtain rfl := Except.ok.inj ((parentState before weight branch).symm.trans found)
    obtain rfl := Option.some.inj ((invariant.store.recorded branch).1.symm.trans recorded)
    exact ⟨before, weight, ⟨branch, submitted, rfl, rfl⟩, passes, trust⟩
  · rintro ⟨before, weight, ⟨branch, submitted, rfl, rfl⟩, passes, trust⟩
    exact ⟨_, ⟨before, weight, branch, passes, trust, rfl⟩, before,
      parentState before weight branch, validated, submitted, weight,
      (invariant.store.recorded branch).1, rfl, rfl, rfl⟩

/-! ## The scan -/

/-- The leaf passes the frontier, as far as the walk can tell. -/
def eligible (tree : BlockTree) (hash : Str) : Bool :=
  match tree.descendsFromFinalized hash with
  | .ok descends => descends
  | .error _ => false

section

variable {tree : BlockTree} {hash : Str} {chain : ProofOfStakeChain} {weight : Int}

theorem eligible_iff
    (store : tree.Store)
    (nonneg : 0 ≤ tree.finalizedHeight)
    (frontier : tree.height.get? tree.finalizedHash = some tree.finalizedHeight)
    (branch : tree.HasBranch hash chain weight) :
    tree.eligible hash = true ↔ chain.Passes tree.frontier := by
  rw [eligible, store.descendsFromFinalized_eq nonneg frontier branch]
  exact decide_eq_true_iff

/-- One step of the scan over stored leaves. -/
theorem considerLeaf_eq
    (store : tree.Store)
    (nonneg : 0 ≤ tree.finalizedHeight)
    (frontier : tree.height.get? tree.finalizedHash = some tree.finalizedHeight)
    {best : Str}
    (bestKnown : tree.weight.contains best = true)
    (known : tree.weight.contains hash = true) :
    tree.considerLeaf best hash =
      .ok (if tree.eligible hash && tree.beats hash best then hash else best) := by
  obtain ⟨bestWeight, bestFound⟩ := (Dict.contains_iff _ _).mp bestKnown
  obtain ⟨weight, found⟩ := (Dict.contains_iff _ _).mp known
  obtain ⟨chain, branch, _⟩ := store.branch hash weight found
  have walk := store.descendsFromFinalized_eq nonneg frontier branch
  have compare : tree.better hash best = .ok (tree.beats hash best) := by
    simp only [better, found, bestFound, require, beats, Dict.getD_eq_of_get? found,
      Dict.getD_eq_of_get? bestFound]
    split_ifs <;> simp_all
  rw [considerLeaf, eligible, walk]
  by_cases passes : chain.Passes tree.frontier
  · simp only [passes, decide_true, compare, Bool.true_and]
    rfl
  · simp only [passes, decide_false, Bool.false_and]
    rfl

/-- The scan over stored leaves is the scan for the best eligible one. -/
theorem foldlM_considerLeaf
    (store : tree.Store)
    (nonneg : 0 ≤ tree.finalizedHeight)
    (frontier : tree.height.get? tree.finalizedHash = some tree.finalizedHeight)
    {leaves : List Str}
    (known : ∀ hash ∈ leaves, tree.weight.contains hash = true)
    {best : Str}
    (bestKnown : tree.weight.contains best = true) :
    leaves.foldlM tree.considerLeaf best =
      .ok (scanBest tree.eligible tree.beats best leaves) := by
  induction leaves generalizing best with
  | nil => rfl
  | cons leaf rest inductionHypothesis =>
      have leafKnown := known leaf List.mem_cons_self
      have restKnown : ∀ hash ∈ rest, tree.weight.contains hash = true :=
        fun hash inside => known hash (List.mem_cons_of_mem leaf inside)
      rw [foldlM_cons_eq_ok]
      refine ⟨_, considerLeaf_eq store nonneg frontier bestKnown leafKnown, ?_⟩
      rw [scanBest, List.foldl_cons, ← scanBest]
      refine inductionHypothesis restKnown ?_
      split_ifs
      · exact leafKnown
      · exact bestKnown

/-- What the scan finds: an eligible leaf that beats every other one. -/
theorem updateHead_spec
    (store : tree.Store)
    (frontierBranch : ∃ chain weight, tree.HasBranch tree.finalizedHash chain weight ∧
      chain.head.index = tree.finalizedHeight)
    (head : ∃ weight, tree.HasBranch tree.headHash tree.canonical weight) :
    ∃ best chain weight, tree.HasBranch best chain weight ∧ chain.Passes tree.frontier ∧
      (∀ hash other otherWeight, tree.HasBranch hash other otherWeight →
        other.Passes tree.frontier → hash = best ∨ tree.beats best hash = true) ∧
      tree.updateHead = (.ok (), { tree with headHash := best, canonical := chain }) := by
  obtain ⟨frontierChain, frontierWeight, frontierBranch, top⟩ := frontierBranch
  obtain ⟨frontierFound, frontier, _⟩ := store.recorded frontierBranch
  rw [top] at frontier
  have nonneg : 0 ≤ tree.finalizedHeight := by
    rw [← top]
    exact frontierBranch.reachable.hashAt_head.1
  have frontierPasses : frontierChain.Passes tree.frontier := by
    have here := frontierBranch.passes_head
    rwa [top] at here
  have known : ∀ hash ∈ tree.weight.keys, tree.weight.contains hash = true :=
    fun hash inside => (Dict.contains_iff_mem_keys _ _).mpr inside
  have startKnown : tree.weight.contains tree.finalizedHash = true :=
    (Dict.contains_iff _ _).mpr ⟨frontierWeight, frontierFound⟩
  have scanned := foldlM_considerLeaf store nonneg frontier known startKnown
  have best :=
    scanBest_best tree.eligible tree.beats_strictTotal tree.finalizedHash tree.weight.keys
  obtain ⟨chain, weight, branch, passes⟩ : ∃ chain weight,
      tree.HasBranch (scanBest tree.eligible tree.beats tree.finalizedHash tree.weight.keys)
        chain weight ∧ chain.Passes tree.frontier := by
    rcases scanBest_mem tree.eligible tree.beats tree.finalizedHash tree.weight.keys with
      start | ⟨inside, fits⟩
    · rw [start]
      exact ⟨frontierChain, frontierWeight, frontierBranch, frontierPasses⟩
    · obtain ⟨weight, found⟩ := (Dict.contains_iff _ _).mp (known _ inside)
      obtain ⟨chain, branch, _⟩ := store.branch _ weight found
      exact ⟨chain, weight, branch, (eligible_iff store nonneg frontier branch).mp fits⟩
  refine ⟨_, chain, weight, branch, passes, ?_, ?_⟩
  · intro hash other otherWeight otherBranch otherPasses
    have inside : hash ∈ tree.weight.keys :=
      (Dict.mem_keys_iff _ _).mpr ⟨otherWeight, (store.recorded otherBranch).1⟩
    have fits : tree.eligible hash = true :=
      (eligible_iff store nonneg frontier otherBranch).mpr otherPasses
    exact (best.2 hash inside fits).imp Eq.symm id
  · unfold updateHead
    rw [scanned]
    by_cases moves :
        scanBest tree.eligible tree.beats tree.finalizedHash tree.weight.keys = tree.headHash
    · obtain ⟨headWeight, headBranch⟩ := head
      rw [moves] at branch ⊢
      obtain ⟨rfl, _⟩ := branch.unique headBranch
      simp
    · have rebuilt := store.chainAt_eq branch
      simp only [ne_eq, moves, not_false_eq_true, if_true, rebuilt]

end

end BlockTree

end Mindees
