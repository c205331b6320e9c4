import Mindees.Consensus.Standing
import Mindees.ForkChoice.Branch
import Mindees.ForkChoice.Untyped

/-!
# Trees of blocks of any JSON kind

Whatever the fields of the blocks hold that a tree is given, the canonical chain of every
tree that is reached is the line of the head, and it passes the finality frontier.
-/

namespace Mindees

open Library

namespace Untyped

variable [Primitives]

/-! ## Lines -/

/-- The chain that stored blocks spell out for a hash. -/
inductive Line (args : GenesisArgs) (blocks : Dict Str Block) (parent : Dict Str Str) :
    Str → Chain → Prop
  | genesis {chain : ProofOfStakeChain} :
      ProofOfStakeChain.init args = .ok chain →
      Line args blocks parent (ProofOfStakeChain.genesisHash args) (.ofTyped chain)
  | child {previous hash : Str} {before after : Chain} {block : Block} :
      Line args blocks parent previous before → parent.get? hash = some previous →
      blocks.get? hash = some block → hash ≠ ProofOfStakeChain.genesisHash args →
      block.hash = hash → before.submitBlock block = .ok after →
      Line args blocks parent hash after

namespace Line

variable {args : GenesisArgs} {blocks : Dict Str Block} {parent : Dict Str Str} {hash : Str}
  {chain : Chain}

theorem reachable
    (line : Line args blocks parent hash chain) :
    Chain.Reachable args chain := by
  induction line with
  | genesis built => exact .genesis built
  | child _ _ _ _ _ submitted reached => exact .block reached submitted

/-- More blocks leave the lines as they are. -/
theorem mono
    {moreBlocks : Dict Str Block}
    {moreParent : Dict Str Str}
    (line : Line args blocks parent hash chain)
    (keepsBlocks : ∀ other block, blocks.get? other = some block →
      moreBlocks.get? other = some block)
    (keepsParent : ∀ other previous, parent.get? other = some previous →
      moreParent.get? other = some previous) :
    Line args moreBlocks moreParent hash chain := by
  induction line with
  | genesis built => exact .genesis built
  | child _ pointer stored fresh same submitted inductionHypothesis =>
      exact .child inductionHypothesis (keepsParent _ _ pointer) (keepsBlocks _ _ stored) fresh same
        submitted

/-- A hash has one line. -/
theorem unique
    {other : Chain}
    (line : Line args blocks parent hash chain)
    (again : Line args blocks parent hash other) :
    chain = other := by
  induction line generalizing other with
  | genesis built =>
      cases again with
      | genesis rebuilt => rw [Except.ok.inj (built.symm.trans rebuilt)]
      | child _ _ _ fresh _ _ => exact absurd rfl fresh
  | child earlier pointer stored fresh same submitted inductionHypothesis =>
      cases again with
      | genesis _ => exact absurd rfl fresh
      | child earlier' pointer' stored' _ _ submitted' =>
          obtain rfl := Option.some.inj (pointer.symm.trans pointer')
          obtain rfl := Option.some.inj (stored.symm.trans stored')
          rw [inductionHypothesis earlier'] at submitted
          exact Except.ok.inj (submitted.symm.trans submitted')

/-- A new chain is its genesis block. -/
theorem origin_of_init
    {chain : ProofOfStakeChain}
    (built : ProofOfStakeChain.init args = .ok chain) :
    (Chain.ofTyped chain).top = 0 ∧
      (Chain.ofTyped chain).hashAt 0 = some (ProofOfStakeChain.genesisHash args) := by
  obtain ⟨_, _, _, _, _, _, _, _, blocks⟩ := (ProofOfStakeChain.init_eq_ok args chain).mp built
  rw [Chain.top, Chain.hashAt, Chain.chain_ofTyped, blocks]
  exact ⟨rfl, rfl⟩

/-- The line of a hash ends in it. -/
theorem hashAt_top
    (line : Line args blocks parent hash chain) :
    chain.hashAt chain.top = some hash := by
  cases line with
  | genesis built =>
      obtain ⟨top, here⟩ := origin_of_init built
      rw [top, here]
  | child _ _ _ _ same submitted =>
      rw [(Chain.accepted_of_submitBlock submitted).hashAt_top, same]

theorem head_hash
    (line : Line args blocks parent hash chain) :
    chain.head.hash = hash := by
  have here := line.hashAt_top
  rw [Chain.hashAt_head] at here
  exact Option.some.inj here

theorem passes_top
    (line : Line args blocks parent hash chain) :
    chain.Passes (hash, (chain.top : Int)) := by
  refine ⟨Int.natCast_nonneg _, ?_⟩
  rw [Int.toNat_natCast, line.hashAt_top]

/-- Every hash on a line has a line. -/
theorem ancestor
    {position : Nat}
    {other : Str}
    (line : Line args blocks parent hash chain)
    (here : chain.hashAt position = some other) :
    ∃ lower, Line args blocks parent other lower ∧ lower.top = position := by
  induction line with
  | @genesis chain built =>
      obtain ⟨top, origin⟩ := origin_of_init built
      have bottom : position = 0 := by
        have inside := Chain.le_top_of_hashAt here
        omega
      subst bottom
      obtain rfl := Option.some.inj (origin.symm.trans here)
      exact ⟨_, .genesis built, top⟩
  | @child previous hash before after block earlier pointer stored fresh same submitted
      inductionHypothesis =>
      have accepted := Chain.accepted_of_submitBlock submitted
      by_cases old : position ≤ before.top
      · rw [accepted.hashAt_of_le old] at here
        exact inductionHypothesis here
      · have last : position = after.top := by
          have inside := Chain.le_top_of_hashAt here
          have next := accepted.top_eq
          omega
        rw [last, accepted.hashAt_top, same] at here
        obtain rfl := Option.some.inj here
        exact ⟨after, .child earlier pointer stored fresh same submitted, last.symm⟩

end Line

/-! ## The maps of a tree -/

namespace BlockTree

/-- The last finalized checkpoint. -/
def frontier (tree : BlockTree) : Checkpoint := (tree.finalizedHash, tree.finalizedHeight)

/-- The line of a hash in a tree. -/
abbrev HasLine (tree : BlockTree) (hash : Str) (chain : Chain) : Prop :=
  Line tree.genesisArgs tree.blocks tree.parent hash chain

/-- The maps of a tree agree with each other. -/
structure Rooted (tree : BlockTree) : Prop where
  genesisHash_eq : tree.genesisHash = ProofOfStakeChain.genesisHash tree.genesisArgs
  initialised : ∃ chain, ProofOfStakeChain.init tree.genesisArgs = .ok chain
  genesis_known : tree.weight.contains tree.genesisHash = true
  block_known : ∀ hash, tree.blocks.contains hash = true → tree.weight.contains hash = true
  parent_known : ∀ hash, tree.parent.contains hash = true → tree.weight.contains hash = true
  line : ∀ hash, tree.weight.contains hash = true →
    ∃ chain, tree.HasLine hash chain ∧ tree.height.get? hash = some (chain.top : Int) ∧
      chain.top ≤ tree.parent.size

namespace Rooted

variable {tree : BlockTree} {hash : Str} {chain : Chain}

/-- What has a line is on record. -/
theorem recorded
    (rooted : tree.Rooted)
    (line : tree.HasLine hash chain) :
    tree.weight.contains hash = true ∧ tree.height.get? hash = some (chain.top : Int) ∧
      chain.top ≤ tree.parent.size := by
  have known : tree.weight.contains hash = true := by
    cases line with
    | genesis _ => exact rooted.genesisHash_eq ▸ rooted.genesis_known
    | child _ _ stored _ _ _ =>
        exact rooted.block_known _ ((Dict.contains_iff _ _).mpr ⟨_, stored⟩)
  obtain ⟨other, otherLine, height, small⟩ := rooted.line hash known
  obtain rfl := line.unique otherLine
  exact ⟨known, height, small⟩

/-! ### Walks -/

/-- The path to a hash, replayed, is its line. -/
theorem pathLoop_eq
    {first : ProofOfStakeChain}
    (rooted : tree.Rooted)
    (start : ProofOfStakeChain.init tree.genesisArgs = .ok first)
    (line : tree.HasLine hash chain)
    {fuel : Nat}
    (enough : chain.top ≤ fuel) :
    ∃ path, Mindees.BlockTree.pathLoop tree.parent tree.genesisHash fuel hash = .ok path ∧
      replay tree.blocks (.ofTyped first) path = .ok chain := by
  induction line generalizing fuel with
  | genesis built =>
      refine ⟨[], ?_, ?_⟩
      · unfold Mindees.BlockTree.pathLoop
        rw [if_pos rooted.genesisHash_eq.symm]
      · rw [Except.ok.inj (start.symm.trans built)]
        rfl
  | @child previous hash before after block _ pointer stored fresh _ submitted
      inductionHypothesis =>
      rw [(Chain.accepted_of_submitBlock submitted).top_eq] at enough
      obtain ⟨remaining, rfl⟩ := Nat.exists_eq_add_of_lt enough
      obtain ⟨path, found, replayed⟩ := @inductionHypothesis (before.top + remaining) (by omega)
      refine ⟨path ++ [hash], ?_, ?_⟩
      · unfold Mindees.BlockTree.pathLoop
        rw [if_neg (rooted.genesisHash_eq ▸ fresh)]
        simp only [pointer, require, bind_eq_ok, Except.ok.injEq, exists_eq_left', found,
          pure_eq_ok]
      · rw [replay, foldlM_concat_eq_ok]
        refine ⟨before, replayed, ?_⟩
        simp only [stored, require, bind_eq_ok, Except.ok.injEq, exists_eq_left', submitted]

/-- Replaying from genesis rebuilds every line. -/
theorem chainAt_eq
    (rooted : tree.Rooted)
    (line : tree.HasLine hash chain) :
    tree.chainAt hash = .ok chain := by
  obtain ⟨first, start⟩ := rooted.initialised
  obtain ⟨_, _, small⟩ := rooted.recorded line
  obtain ⟨path, found, replayed⟩ := rooted.pathLoop_eq start line (Nat.le_succ_of_le small)
  simp only [chainAt, bind_eq_ok]
  exact ⟨path, found, first, start, replayed⟩

/-- At or below the finalized height the walk compares at once. -/
theorem descendsLoop_low
    (rooted : tree.Rooted)
    (nonneg : 0 ≤ tree.finalizedHeight)
    (final : tree.height.get? tree.finalizedHash = some tree.finalizedHeight)
    (line : tree.HasLine hash chain)
    (low : (chain.top : Int) ≤ tree.finalizedHeight)
    (fuel : Nat) :
    tree.descendsLoop fuel hash = .ok (decide (chain.Passes tree.frontier)) := by
  have height := (rooted.recorded line).2.1
  have same : hash = tree.finalizedHash ↔ chain.Passes tree.frontier := by
    constructor
    · rintro rfl
      have here := line.passes_top
      rwa [Option.some.inj (height.symm.trans final)] at here
    · intro passes
      have reached : tree.finalizedHeight ≤ chain.top := Chain.le_top_of_passes passes
      have here : chain.hashAt tree.finalizedHeight.toNat = some tree.finalizedHash := passes.2
      rw [show tree.finalizedHeight.toNat = chain.top by omega, line.hashAt_top] at here
      exact Option.some.inj here
  unfold descendsLoop
  rw [Dict.getD_eq_of_get? height, if_neg (not_lt.mpr low)]
  exact congrArg Except.ok (decide_eq_decide.mpr same)

/-- The walk to the finalized height tells whether a line passes the frontier. -/
theorem descendsLoop_eq
    (rooted : tree.Rooted)
    (nonneg : 0 ≤ tree.finalizedHeight)
    (final : tree.height.get? tree.finalizedHash = some tree.finalizedHeight)
    (line : tree.HasLine hash chain)
    {fuel : Nat}
    (enough : chain.top ≤ fuel) :
    tree.descendsLoop fuel hash = .ok (decide (chain.Passes tree.frontier)) := by
  induction line generalizing fuel with
  | genesis built =>
      have bottom := (Line.origin_of_init built).1
      exact rooted.descendsLoop_low nonneg final (.genesis built) (by omega) fuel
  | @child previous hash before after block earlier pointer stored fresh same submitted
      inductionHypothesis =>
      have line : tree.HasLine hash after := .child earlier pointer stored fresh same submitted
      have accepted := Chain.accepted_of_submitBlock submitted
      have next := accepted.top_eq
      by_cases low : (after.top : Int) ≤ tree.finalizedHeight
      · exact rooted.descendsLoop_low nonneg final line low fuel
      · have height := (rooted.recorded line).2.1
        obtain ⟨remaining, rfl⟩ : ∃ remaining, fuel = remaining + 1 := ⟨fuel - 1, by omega⟩
        have agree : before.Passes tree.frontier ↔ after.Passes tree.frontier := by
          constructor
          · exact accepted.passes
          · intro passes
            refine accepted.passes_old passes ?_
            change tree.finalizedHeight ≤ before.top
            omega
        unfold descendsLoop
        rw [Dict.getD_eq_of_get? height, if_pos (not_le.mp low)]
        simp only [pointer]
        rw [inductionHypothesis (by omega)]
        exact congrArg Except.ok (decide_eq_decide.mpr agree)

theorem descendsFromFinalized_eq
    (rooted : tree.Rooted)
    (nonneg : 0 ≤ tree.finalizedHeight)
    (final : tree.height.get? tree.finalizedHash = some tree.finalizedHeight)
    (line : tree.HasLine hash chain) :
    tree.descendsFromFinalized hash = .ok (decide (chain.Passes tree.frontier)) :=
  rooted.descendsLoop_eq nonneg final line (Nat.le_succ_of_le (rooted.recorded line).2.2)

/-! ### One more block -/

/-- The head and the frontier are no matter of the maps. -/
theorem moved
    (rooted : tree.Rooted)
    (canonical : Chain)
    (headHash finalizedHash : Str)
    (finalizedHeight : Int) :
    Rooted { tree with canonical, headHash, finalizedHash, finalizedHeight } :=
  ⟨rooted.genesisHash_eq, rooted.initialised, rooted.genesis_known, rooted.block_known,
    rooted.parent_known, rooted.line⟩

variable {block : Block} {admission : Admission} {before : Chain}

/-- A new block on a line keeps the lines, and has one. -/
theorem store_line
    (rooted : tree.Rooted)
    (new : tree.weight.contains block.hash = false)
    (parent : tree.HasLine admission.previousHash before)
    (submitted : before.submitBlock block = .ok admission.validated) :
    (∀ hash chain, tree.HasLine hash chain → (tree.store block admission).HasLine hash chain) ∧
      (tree.store block admission).HasLine block.hash admission.validated := by
  have other : ∀ {hash}, tree.weight.contains hash = true → block.hash ≠ hash := by
    rintro hash known rfl
    rw [new] at known
    cases known
  have longer : ∀ hash chain, tree.HasLine hash chain →
      (tree.store block admission).HasLine hash chain := by
    intro hash chain line
    refine line.mono (fun hash stored found => ?_) (fun hash previous found => ?_)
    · have known := rooted.block_known hash ((Dict.contains_iff _ _).mpr ⟨_, found⟩)
      exact (Dict.get?_set _ _ _ _).trans ((if_neg (other known)).trans found)
    · have known := rooted.parent_known hash ((Dict.contains_iff _ _).mpr ⟨_, found⟩)
      exact (Dict.get?_set _ _ _ _).trans ((if_neg (other known)).trans found)
  have fresh : block.hash ≠ ProofOfStakeChain.genesisHash tree.genesisArgs :=
    other (rooted.genesisHash_eq ▸ rooted.genesis_known)
  exact ⟨longer, .child (longer _ _ parent) ((Dict.get?_set _ _ _ _).trans (if_pos rfl))
    ((Dict.get?_set _ _ _ _).trans (if_pos rfl)) fresh rfl submitted⟩

/-- A new block on a line keeps the maps in agreement. -/
theorem store
    (rooted : tree.Rooted)
    (new : tree.weight.contains block.hash = false)
    (parent : tree.HasLine admission.previousHash before)
    (submitted : before.submitBlock block = .ok admission.validated)
    (height : admission.newHeight = before.top + 1) :
    (tree.store block admission).Rooted := by
  obtain ⟨longer, newest⟩ := rooted.store_line new parent submitted
  have unknown : tree.parent.contains block.hash = false := by
    cases known : tree.parent.contains block.hash with
    | false => rfl
    | true =>
        rw [rooted.parent_known _ known] at new
        cases new
  have size : (tree.store block admission).parent.size = tree.parent.size + 1 :=
    Dict.size_set _ _ unknown
  have grown : ∀ hash, (tree.store block admission).weight.contains hash = true ↔
      block.hash = hash ∨ tree.weight.contains hash = true := by
    intro hash
    change (tree.weight.set block.hash _).contains hash = true ↔ _
    rw [Dict.contains_set, Bool.or_eq_true, decide_eq_true_iff]
  refine ⟨rooted.genesisHash_eq, rooted.initialised, (grown _).mpr (.inr rooted.genesis_known),
    fun hash known => ?_, fun hash known => ?_, fun hash known => ?_⟩
  · change (tree.blocks.set block.hash block).contains hash = true at known
    rw [Dict.contains_set, Bool.or_eq_true, decide_eq_true_iff] at known
    exact (grown hash).mpr (known.imp id (rooted.block_known hash))
  · change (tree.parent.set block.hash _).contains hash = true at known
    rw [Dict.contains_set, Bool.or_eq_true, decide_eq_true_iff] at known
    exact (grown hash).mpr (known.imp id (rooted.parent_known hash))
  · have recorded : (tree.store block admission).height.get? hash =
        if block.hash = hash then some admission.newHeight else tree.height.get? hash :=
      Dict.get?_set _ _ _ _
    rw [recorded, size]
    by_cases same : block.hash = hash
    · subst same
      have small := (rooted.recorded parent).2.2
      have next := (Chain.accepted_of_submitBlock submitted).top_eq
      refine ⟨_, newest, ?_, by omega⟩
      rw [if_pos rfl, height, next]
      push_cast
      rfl
    · obtain ⟨chain, line, found, small⟩ :=
        rooted.line hash (((grown hash).mp known).resolve_left same)
      exact ⟨chain, longer _ _ line, by rw [if_neg same, found], by omega⟩

end Rooted

/-! ## The head -/

section

variable {tree : BlockTree}

/-- The scan over stored leaves ends in one that passes the frontier. -/
theorem foldlM_considerLeaf
    {best : Str}
    {leaves : List Str}
    (rooted : tree.Rooted)
    (nonneg : 0 ≤ tree.finalizedHeight)
    (final : tree.height.get? tree.finalizedHash = some tree.finalizedHeight)
    (known : ∀ leaf ∈ leaves, tree.weight.contains leaf = true)
    (start : ∃ chain, tree.HasLine best chain ∧ chain.Passes tree.frontier) :
    ∃ last, leaves.foldlM tree.considerLeaf best = .ok last ∧
      ∃ chain, tree.HasLine last chain ∧ chain.Passes tree.frontier := by
  induction leaves generalizing best with
  | nil => exact ⟨best, rfl, start⟩
  | cons leaf rest inductionHypothesis =>
      have leafKnown := known leaf List.mem_cons_self
      have restKnown : ∀ other ∈ rest, tree.weight.contains other = true :=
        fun other inside => known other (List.mem_cons_of_mem leaf inside)
      obtain ⟨chain, line, _⟩ := rooted.line leaf leafKnown
      obtain ⟨bestChain, bestLine, bestPasses⟩ := start
      obtain ⟨leafWeight, leafFound⟩ := (Dict.contains_iff _ _).mp leafKnown
      obtain ⟨bestWeight, bestFound⟩ := (Dict.contains_iff _ _).mp (rooted.recorded bestLine).1
      have walked := rooted.descendsFromFinalized_eq nonneg final line
      simp only [foldlM_cons_eq_ok]
      by_cases passes : chain.Passes tree.frontier
      · obtain ⟨wins, compared⟩ : ∃ wins, tree.better leaf best = .ok wins := by
          simp only [better, leafFound, bestFound, require, bind_eq_ok, Except.ok.injEq,
            exists_eq_left', pure_eq_ok]
          exact ⟨_, rfl⟩
        have considered : tree.considerLeaf best leaf = .ok (if wins then leaf else best) := by
          rw [considerLeaf, walked, decide_eq_true passes]
          simp only [bind_eq_ok, Except.ok.injEq, exists_eq_left', if_true, compared, pure_eq_ok]
        have next : ∃ chain, tree.HasLine (if wins then leaf else best) chain ∧
            chain.Passes tree.frontier := by
          cases wins
          · exact ⟨bestChain, bestLine, bestPasses⟩
          · exact ⟨chain, line, passes⟩
        obtain ⟨last, ran, found⟩ := inductionHypothesis restKnown next
        exact ⟨last, ⟨_, considered, ran⟩, found⟩
      · have considered : tree.considerLeaf best leaf = .ok best := by
          rw [considerLeaf, walked, decide_eq_false passes]
          rfl
        obtain ⟨last, ran, found⟩ := inductionHypothesis restKnown ⟨bestChain, bestLine, bestPasses⟩
        exact ⟨last, ⟨_, considered, ran⟩, found⟩

/-- Choosing the head raises nothing, and the canonical chain is the line of the new head. -/
theorem updateHead_eq
    {lower : Chain}
    (rooted : tree.Rooted)
    (final : tree.HasLine tree.finalizedHash lower)
    (height : (lower.top : Int) = tree.finalizedHeight)
    (head : tree.HasLine tree.headHash tree.canonical) :
    ∃ best chain, tree.HasLine best chain ∧ chain.Passes tree.frontier ∧
      tree.updateHead = (.ok (), { tree with headHash := best, canonical := chain }) := by
  have nonneg : 0 ≤ tree.finalizedHeight := by omega
  have finalHeight : tree.height.get? tree.finalizedHash = some tree.finalizedHeight := by
    rw [(rooted.recorded final).2.1, height]
  have finalPasses : lower.Passes tree.frontier := by
    have here := final.passes_top
    rwa [height] at here
  have known : ∀ leaf ∈ tree.weight.keys, tree.weight.contains leaf = true :=
    fun leaf inside => (Dict.contains_iff_mem_keys _ _).mpr inside
  obtain ⟨best, scanned, chain, line, passes⟩ :=
    foldlM_considerLeaf rooted nonneg finalHeight known ⟨lower, final, finalPasses⟩
  refine ⟨best, chain, line, passes, ?_⟩
  unfold updateHead
  rw [scanned]
  by_cases moves : best = tree.headHash
  · subst moves
    obtain rfl := line.unique head
    simp
  · simp only [ne_eq, moves, not_false_eq_true, if_true, rooted.chainAt_eq line]

end

/-! ## The invariant -/

/-- What every call keeps. -/
structure Invariant (tree : BlockTree) : Prop where
  rooted : tree.Rooted
  head : tree.HasLine tree.headHash tree.canonical
  head_passes : tree.canonical.Passes tree.frontier

omit [Primitives] in
theorem of_knows
    {tree : BlockTree}
    {json : Json}
    (known : tree.knows json = .ok true) :
    ∃ hash, json = .str hash ∧ tree.weight.contains hash = true := by
  unfold knows at known
  split at known
  · rename_i hash
    exact ⟨hash, rfl, Except.ok.inj known⟩
  · split_ifs at known
    cases known

namespace Invariant

variable {tree : BlockTree} {block : Block} {admission : Admission}

/-- The frontier has a line that ends at its height. -/
theorem frontier_line
    (invariant : tree.Invariant) :
    ∃ lower, tree.HasLine tree.finalizedHash lower ∧ (lower.top : Int) = tree.finalizedHeight := by
  obtain ⟨nonneg, here⟩ := invariant.head_passes
  have nonneg : 0 ≤ tree.finalizedHeight := nonneg
  obtain ⟨lower, line, top⟩ := invariant.head.ancestor here
  refine ⟨lower, line, ?_⟩
  rw [top]
  exact Int.toNat_of_nonneg nonneg

theorem descendsFromFinalized_eq
    {hash : Str}
    {chain : Chain}
    (invariant : tree.Invariant)
    (line : tree.HasLine hash chain) :
    tree.descendsFromFinalized hash = .ok (decide (chain.Passes tree.frontier)) := by
  obtain ⟨lower, final, height⟩ := invariant.frontier_line
  refine invariant.rooted.descendsFromFinalized_eq invariant.head_passes.1 ?_ line
  rw [(invariant.rooted.recorded final).2.1, height]

/-- A block that passes the checks is a valid child of a line that passes the frontier. -/
theorem of_examine
    (invariant : tree.Invariant)
    (new : tree.weight.contains block.hash = false)
    (examined : tree.examine block = .ok admission) :
    ∃ before, tree.HasLine admission.previousHash before ∧ before.Passes tree.frontier ∧
      before.submitBlock block = .ok admission.validated ∧
      admission.newHeight = before.top + 1 := by
  simp only [examine, guard, rejectIf, bind_eq_ok, raiseIf_eq_ok, require_eq_ok, exists_unit,
    pure_eq_ok, Prod.exists] at examined
  obtain ⟨previous, newHeight, ⟨known, looked, there, parentHeight, found, above, rest⟩, before,
    state, _, _, after, submitted, _, _, rfl⟩ := examined
  obtain ⟨hash, named, stored⟩ := of_knows (eq_true_of_ne_false there ▸ looked)
  rw [named] at found rest
  obtain ⟨chain, line, height, _⟩ := invariant.rooted.line hash stored
  obtain rfl := Option.some.inj (height.symm.trans found)
  have other : block.hash ≠ tree.finalizedHash := by
    intro same
    obtain ⟨lower, final, _⟩ := invariant.frontier_line
    rw [same, (invariant.rooted.recorded final).1] at new
    cases new
  have higher : tree.finalizedHeight < chain.top + 1 := by
    by_contra low
    exact above ⟨not_lt.mp low, other⟩
  simp only [if_pos higher, invariant.descendsFromFinalized_eq line, bind_eq_ok, raiseIf_eq_ok,
    exists_unit, pure_eq_ok, Except.ok.injEq, exists_eq_left', decide_eq_false_iff_not, not_not,
    Prod.mk.injEq] at rest
  obtain ⟨passes, _, rfl, rfl⟩ := rest
  obtain rfl : chain = before := by
    unfold parentState at state
    split_ifs at state with onHead
    · cases state
      subst onHead
      exact line.unique invariant.head
    · exact Except.ok.inj ((invariant.rooted.chainAt_eq line).symm.trans state)
  exact ⟨chain, line, passes, submitted, rfl⟩

/-- A line that passes the frontier does not reach the safety stop. -/
theorem advanceFrontier_eq
    {validated : Chain}
    (standing : validated.Standing)
    (passes : validated.Passes tree.frontier) :
    ∃ final : Checkpoint, validated.Passes final ∧
      tree.advanceFrontier validated =
        .ok { tree with finalizedHash := final.1, finalizedHeight := final.2 } := by
  have agrees : tree.frontierOn validated = true := by
    have here : validated.hashAt tree.finalizedHeight.toNat = some tree.finalizedHash := passes.2
    rw [Chain.hashAt, Option.map_eq_some_iff] at here
    obtain ⟨block, found, same⟩ := here
    unfold frontierOn
    rw [found]
    exact decide_eq_true same
  unfold advanceFrontier
  by_cases moves : tree.finalizedHeight < validated.state.ledger.finalized.2
  · refine ⟨validated.state.ledger.finalized, standing.finalized, ?_⟩
    simp only [if_pos moves, agrees, Bool.true_eq_false, raiseIf, if_false]
    rfl
  · refine ⟨tree.frontier, passes, ?_⟩
    simp only [if_neg moves]
    rfl

/-- A new block that passes the checks is accepted, and keeps the invariant. -/
theorem addBlock_of_examine
    (invariant : tree.Invariant)
    (new : tree.weight.contains block.hash = false)
    (examined : tree.examine block = .ok admission) :
    (tree.addBlock block).1 = .ok true ∧ (tree.addBlock block).2.Invariant := by
  obtain ⟨before, parent, passes, submitted, height⟩ := invariant.of_examine new examined
  have accepted := Chain.accepted_of_submitBlock submitted
  have rooted := invariant.rooted.store new parent submitted height
  obtain ⟨longer, newest⟩ := invariant.rooted.store_line new parent submitted
  obtain ⟨final, above, advanced⟩ : ∃ final : Checkpoint, admission.validated.Passes final ∧
      (tree.store block admission).advanceFrontier admission.validated =
        .ok { tree.store block admission with
          finalizedHash := final.1
          finalizedHeight := final.2 } :=
    advanceFrontier_eq newest.reachable.standing (accepted.passes passes)
  have unknown : ¬tree.weight.contains block.hash = true := by
    rw [new]
    exact Bool.false_ne_true
  unfold BlockTree.addBlock
  simp only [if_neg unknown, examined, advanced]
  split_ifs with onHead
  · have canonical : (tree.store block admission).canonical = admission.validated := if_pos onHead
    refine ⟨rfl, rooted.moved _ _ _ _, ?_, ?_⟩
    · change Line _ _ _ _ (tree.store block admission).canonical
      rw [canonical]
      exact newest
    · change (tree.store block admission).canonical.Passes final
      rw [canonical]
      exact above
  · have canonical : (tree.store block admission).canonical = tree.canonical := if_neg onHead
    have settled := rooted.moved (tree.store block admission).canonical tree.headHash final.1
      final.2
    obtain ⟨lower, line, top⟩ := newest.ancestor above.2
    have height : (lower.top : Int) = final.2 := by
      rw [top]
      exact Int.toNat_of_nonneg above.1
    have head : (tree.store block admission).HasLine tree.headHash
        (tree.store block admission).canonical := by
      rw [canonical]
      exact longer _ _ invariant.head
    obtain ⟨best, chain, chosen, passes, moved⟩ := updateHead_eq settled line height head
    have same : { tree.store block admission with
        finalizedHash := final.1
        finalizedHeight := final.2 } = { tree.store block admission with
        canonical := (tree.store block admission).canonical
        headHash := tree.headHash
        finalizedHash := final.1
        finalizedHeight := final.2 } := rfl
    rw [same, moved]
    exact ⟨rfl, settled.moved chain best final.1 final.2, chosen, passes⟩

/-- A call keeps the invariant, whether it returns or raises. -/
theorem addBlock
    (invariant : tree.Invariant)
    (block : Block) :
    (tree.addBlock block).2.Invariant := by
  cases known : tree.weight.contains block.hash with
  | true =>
      rw [BlockTree.addBlock, if_pos known]
      exact invariant
  | false =>
      cases examined : tree.examine block with
      | error error =>
          have refused := BlockTree.addBlock_of_refused (congrArg succeeded examined)
          rw [refused.2]
          exact invariant
      | ok admission => exact (invariant.addBlock_of_examine known examined).2

/-- A new tree is its genesis block. -/
theorem init
    {args : GenesisArgs}
    {checkpoint : Option Checkpoint}
    (built : BlockTree.init args checkpoint = .ok tree) :
    tree.Invariant := by
  simp only [BlockTree.init, bind_eq_ok, pure_eq_ok] at built
  obtain ⟨genesis, initialised, rfl⟩ := built
  have head : (Chain.ofTyped genesis).head.hash = ProofOfStakeChain.genesisHash args :=
    (congrArg Block.hash (List.getLast_map _)).trans (ProofOfStakeChain.head_init initialised)
  obtain ⟨top, origin⟩ := Line.origin_of_init initialised
  have line : Line args Dict.empty Dict.empty (Chain.ofTyped genesis).head.hash
      (.ofTyped genesis) := by
    rw [head]
    exact .genesis initialised
  have known : ∀ hash, (Dict.empty.set (Chain.ofTyped genesis).head.hash (0 : Int)).contains hash =
      true ↔ (Chain.ofTyped genesis).head.hash = hash := by
    intro hash
    rw [Dict.contains_set, Bool.or_eq_true, decide_eq_true_iff]
    exact or_iff_left Bool.false_ne_true
  refine ⟨⟨head, ⟨genesis, initialised⟩, (known _).mpr rfl, ?_, ?_, fun hash stored => ?_⟩, line,
    le_refl _, ?_⟩
  · rintro hash ⟨⟩
  · rintro hash ⟨⟩
  · obtain rfl := (known hash).mp stored
    refine ⟨_, line, ?_, by omega⟩
    rw [top]
    exact (Dict.get?_set _ _ _ _).trans (if_pos rfl)
  · change (Chain.ofTyped genesis).hashAt 0 = some (Chain.ofTyped genesis).head.hash
    rw [origin, head]

end Invariant

/-- The trees that calls lead to, accepted or not, whatever the fields of the blocks hold. -/
inductive Reachable (args : GenesisArgs) (checkpoint : Option Checkpoint) : BlockTree → Prop
  | init {tree : BlockTree} :
      BlockTree.init args checkpoint = .ok tree → Reachable args checkpoint tree
  | add {tree : BlockTree} (block : Block) :
      Reachable args checkpoint tree → Reachable args checkpoint (tree.addBlock block).2

theorem Reachable.invariant
    {args : GenesisArgs}
    {checkpoint : Option Checkpoint}
    {tree : BlockTree}
    (reached : Reachable args checkpoint tree) :
    tree.Invariant := by
  induction reached with
  | init built => exact .init built
  | add block _ invariant => exact invariant.addBlock block

end BlockTree

end Untyped

end Mindees
