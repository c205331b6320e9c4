import Mindees.Consensus.Bookkeeping
import Mindees.Consensus.Embedding

/-!
# Chains of blocks of any JSON kind

On every chain that is reached, whatever the fields of its blocks hold, the head is numbered
by its position, the ledger is healthy, all coins are accounted for, and the checkpoints
stand where they say.
-/

namespace Mindees

open Library

/-- Only a vote moves the finalized checkpoint, to one whose height is known. -/
theorem CheckpointEffect.finalized_cases
    [Primitives]
    {config : Config}
    {justifiedParent : Finset Str}
    {state after : LedgerState}
    {tx : Transaction}
    (effect : CheckpointEffect config justifiedParent state tx after) :
    after.finalized = state.finalized ∨
      state.ffgHeight.get? after.finalized.1 = some after.finalized.2 := by
  cases effect with
  | none same => exact .inl (congrArg Checkpoints.finalized same)
  | vote link _ _ checked same =>
      have tallied : after.finalized =
          (tallyLink config (recordVote state tx.sender link) link).finalized :=
        congrArg Checkpoints.finalized same
      rw [tallied]
      rcases tallyLink_cases config (recordVote state tx.sender link) link with
        ⟨_, unmoved⟩ | ⟨_, finalized, moved, rfl | ⟨rfl, _⟩⟩
      · rw [unmoved]
        exact .inl rfl
      · rw [moved]
        exact .inl rfl
      · rw [moved]
        exact .inr checked.sourceHeight

namespace Untyped

variable [Primitives]

theorem Applied.finalized_cases
    {config : Config}
    {block : Mindees.Block}
    {justified : Finset Str}
    {state after : State}
    {tx : Checked}
    (applied : Applied config block justified state tx after) :
    after.ledger.finalized = state.ledger.finalized ∨
      state.ledger.ffgHeight.get? after.ledger.finalized.1 = some after.ledger.finalized.2 := by
  cases applied with
  | text _ _ moved => exact moved.checkpointEffect.finalized_cases
  | slash _ _ _ _ _ _ charged =>
      obtain ⟨_, rfl⟩ := (payFee_eq_ok _ _ _ _).mp charged
      exact .inl rfl
  | away _ _ _ _ => exact .inl rfl

/-! ## The hook before the transactions -/

section

variable {config : Config} {hash : Str} {height next : Int} {state : State}

omit [Primitives] in
/-- Coins mature, and nothing else moves but the snapshots. -/
theorem applyBlockPre_ledger
    (config : Config)
    (hash : Str)
    (height : Int)
    (state : State) :
    ∃ stakes heights, (applyBlockPre config hash height state).ledger =
      { matureUnbonding height state.ledger with
        ffgStake := stakes
        ffgHeight := heights } := by
  unfold applyBlockPre
  dsimp only
  split_ifs
  · exact ⟨_, _, rfl⟩
  · exact ⟨_, _, rfl⟩

omit [Primitives] in
theorem healthy_applyBlockPre
    (healthy : Healthy height state.ledger)
    (later : height ≤ next) :
    Healthy next (applyBlockPre config hash next state).ledger := by
  obtain ⟨_, _, same⟩ := applyBlockPre_ledger config hash next state
  rw [same]
  exact (healthy.matureUnbonding later).congr rfl rfl rfl

omit [Primitives] in
@[simp] theorem totalSupply_applyBlockPre :
    (applyBlockPre config hash height state).totalSupply = state.totalSupply := by
  obtain ⟨_, _, same⟩ := applyBlockPre_ledger config hash height state
  rw [State.totalSupply, same]
  exact congrArg (· + _) (totalSupply_matureUnbonding height state.ledger)

omit [Primitives] in
@[simp] theorem finalized_applyBlockPre :
    (applyBlockPre config hash height state).ledger.finalized = state.ledger.finalized := by
  obtain ⟨_, _, same⟩ := applyBlockPre_ledger config hash height state
  rw [same]
  rfl

end

namespace Chain

/-! ## Positions -/

/-- The hash of the block at a position. -/
def hashAt (chain : Chain) (position : Nat) : Option Str := chain.chain[position]?.map Block.hash

/-- The position of the head. -/
def top (chain : Chain) : Nat := chain.chain.length - 1

/-- The chain has the block of a checkpoint at its height. -/
def Passes (chain : Chain) (checkpoint : Checkpoint) : Prop :=
  0 ≤ checkpoint.2 ∧ chain.hashAt checkpoint.2.toNat = some checkpoint.1

instance (chain : Chain) (checkpoint : Checkpoint) : Decidable (chain.Passes checkpoint) :=
  inferInstanceAs (Decidable (_ ∧ _))

variable {args : GenesisArgs} {chain before after : Chain} {block : Block}
  {checkpoint : Checkpoint}

theorem le_top_of_hashAt
    {position : Nat}
    {hash : Str}
    (here : chain.hashAt position = some hash) :
    position ≤ chain.top := by
  rw [hashAt, Option.map_eq_some_iff] at here
  obtain ⟨_, found, _⟩ := here
  have inside := (List.getElem?_eq_some_iff.mp found).1
  rw [top]
  omega

theorem hashAt_head (chain : Chain) : chain.hashAt chain.top = some chain.head.hash := by
  rw [hashAt, top, ← List.getLast?_eq_getElem?, List.getLast?_eq_some_getLast chain.nonempty]
  rfl

/-- A chain that passes a checkpoint is as high as it. -/
theorem le_top_of_passes
    (passes : chain.Passes checkpoint) :
    checkpoint.2 ≤ chain.top := by
  have inside := le_top_of_hashAt passes.2
  omega

/-- What an accepted block went through. -/
structure Accepted (before : Chain) (block : Block) (after : Chain) : Prop where
  config : after.config = before.config
  blocks : after.chain = before.chain ++ [block]
  follows : before.Follows block
  ran : ∃ view, checkProposer before.state.ledger.stakes block = .ok view ∧
    ∃ seen, before.progress block view block.transactions = .ok (seen, after.state)
  supply : after.state.totalSupply = MAX_SUPPLY_UNITS

theorem accepted_of_submitBlock
    (submitted : before.submitBlock block = .ok after) :
    before.Accepted block after := by
  simp only [submitBlock, rejectIf, bind_eq_ok, raiseIf_eq_ok, exists_unit, pure_eq_ok, not_not,
    ne_eq] at submitted
  obtain ⟨state, applied, supply, rfl⟩ := submitted
  obtain ⟨follows, ran⟩ := (applyChecked_eq_ok _ _ _).mp applied
  exact ⟨rfl, rfl, follows, ran, supply⟩

namespace Accepted

theorem top_eq
    (accepted : before.Accepted block after) :
    after.top = before.top + 1 := by
  have nonempty := List.length_pos_of_ne_nil before.nonempty
  simp only [top, accepted.blocks, List.length_append, List.length_singleton]
  omega

theorem head_eq
    (accepted : before.Accepted block after) :
    after.head = block := by
  simp [head, accepted.blocks]

theorem hashAt_of_le
    (accepted : before.Accepted block after)
    {position : Nat}
    (old : position ≤ before.top) :
    after.hashAt position = before.hashAt position := by
  have nonempty := List.length_pos_of_ne_nil before.nonempty
  rw [top] at old
  rw [hashAt, hashAt, accepted.blocks, List.getElem?_append_left (by omega)]

theorem hashAt_top
    (accepted : before.Accepted block after) :
    after.hashAt after.top = some block.hash := by
  have nonempty := List.length_pos_of_ne_nil before.nonempty
  rw [accepted.top_eq, hashAt, accepted.blocks, top,
    List.getElem?_append_right (by omega)]
  simp [show before.chain.length - 1 + 1 - before.chain.length = 0 by omega]

theorem passes_top
    (accepted : before.Accepted block after) :
    after.Passes (block.hash, (after.top : Int)) := by
  refine ⟨Int.natCast_nonneg _, ?_⟩
  rw [Int.toNat_natCast, accepted.hashAt_top]

/-- What a chain passes, its extensions pass. -/
theorem passes
    (accepted : before.Accepted block after)
    (passes : before.Passes checkpoint) :
    after.Passes checkpoint := by
  refine ⟨passes.1, ?_⟩
  rw [accepted.hashAt_of_le (le_top_of_hashAt passes.2), passes.2]

/-- What an extension passes up to the old head, the chain passes. -/
theorem passes_old
    (accepted : before.Accepted block after)
    (passes : after.Passes checkpoint)
    (old : checkpoint.2 ≤ before.top) :
    before.Passes checkpoint := by
  obtain ⟨nonneg, here⟩ := passes
  refine ⟨nonneg, ?_⟩
  rw [← accepted.hashAt_of_le (by omega), here]

end Accepted

/-! ## What is reached -/

/-- Holds of every chain that is reached. -/
structure Standing (chain : Chain) : Prop where
  numbered : chain.head.index.integer = some (chain.top : Int)
  healthy : Healthy chain.top chain.state.ledger
  supply : chain.state.totalSupply = MAX_SUPPLY_UNITS
  heights : ∀ hash height, chain.state.ledger.ffgHeight.get? hash = some height →
    chain.Passes (hash, height)
  finalized : chain.Passes chain.state.ledger.finalized

omit [Primitives] in
theorem chain_ofTyped (chain : ProofOfStakeChain) :
    (ofTyped chain).chain = chain.chain.map .ofTyped := rfl

theorem hashAt_ofTyped (chain : ProofOfStakeChain) (position : Nat) :
    (ofTyped chain).hashAt position = chain.hashAt position := by
  rw [hashAt, ProofOfStakeChain.hashAt, chain_ofTyped, List.getElem?_map, Option.map_map]
  rfl

theorem passes_of_typed
    {chain : ProofOfStakeChain}
    {position : Nat}
    {hash : Str}
    (here : (chain.chain.map Mindees.Block.hash)[position]? = some hash) :
    (ofTyped chain).Passes (hash, (position : Int)) := by
  refine ⟨Int.natCast_nonneg position, ?_⟩
  rw [Int.toNat_natCast, hashAt_ofTyped, ProofOfStakeChain.hashAt, ← List.getElem?_map]
  exact here

theorem standing_ofTyped
    {chain : ProofOfStakeChain}
    (reached : ProofOfStakeChain.Reachable args chain) :
    (ofTyped chain).Standing := by
  have length := reached.length_eq
  have books := reached.bookkeeping
  have top : ((ofTyped chain).top : Int) = chain.head.index := by
    have nonempty := List.length_pos_of_ne_nil chain.nonempty
    rw [Chain.top, chain_ofTyped, List.length_map]
    omega
  have head : (ofTyped chain).head = .ofTyped chain.head := List.getLast_map _
  refine ⟨?_, ?_, (totalSupply_ofTyped chain.state).trans reached.totalSupply_eq,
    fun hash height found => ?_, ?_⟩
  · rw [head, top]
    rfl
  · rw [top]
    exact reached.healthy.congr rfl rfl rfl
  · obtain ⟨_, position, rfl, here⟩ := books.height_sound hash height found
    exact passes_of_typed here
  · obtain ⟨position, final, here⟩ := books.finalized_position
    have passes := passes_of_typed here
    rwa [← final] at passes

theorem Standing.nextIndex_eq
    (standing : chain.Standing) :
    chain.nextIndex = some ((chain.top : Int) + 1) := by
  rw [nextIndex, standing.numbered]
  rfl

/-- The index of an accepted block is its position. -/
theorem Standing.index_eq
    {view : Mindees.Block}
    (standing : before.Standing)
    (follows : before.Follows block)
    (checked : checkProposer before.state.ledger.stakes block = .ok view) :
    view.index = before.top + 1 := by
  obtain ⟨next, numbered, same⟩ := follows.index
  obtain rfl := Option.some.inj (standing.nextIndex_eq.symm.trans numbered)
  have integer := integer_of_checkProposer checked
  rcases (Json.eq_int_iff _ _).mp same with found | ⟨held, float, _⟩
  · exact Option.some.inj (integer.symm.trans found)
  · rw [float] at integer
    cases integer

theorem Standing.submitBlock
    (standing : before.Standing)
    (submitted : before.submitBlock block = .ok after) :
    after.Standing := by
  have accepted := accepted_of_submitBlock submitted
  obtain ⟨view, checked, seen, ran⟩ := accepted.ran
  have index := standing.index_eq accepted.follows checked
  have top : (after.top : Int) = view.index := by
    rw [accepted.top_eq, index]
    push_cast
    rfl
  -- the rules of one transaction move the final checkpoint to a recorded one only
  let placed (progress : List Str × State) : Prop :=
    Healthy view.index progress.2.ledger ∧
      (∀ hash height, progress.2.ledger.ffgHeight.get? hash = some height →
        after.Passes (hash, height)) ∧
      after.Passes progress.2.ledger.finalized
  have kept : placed (seen, after.state) := by
    refine foldlM_invariant placed ?_ ⟨?_, ?_, ?_⟩ ran
    · rintro tx _ earlier later ⟨healthy, heights, finalized⟩ applied
      obtain ⟨_, checked, valid, _, _, moved⟩ := applyNext_iff.mp applied
      have moved := applyTx_iff_applied.mp moved
      refine ⟨moved.healthy healthy (Checked.wellFormed_of_isValid valid), ?_, ?_⟩
      · rw [moved.snapshots.2]
        exact heights
      · rcases moved.finalized_cases with same | recorded
        · rw [same]
          exact finalized
        · exact heights _ _ recorded
    · exact healthy_applyBlockPre standing.healthy (by omega)
    · intro hash height found
      unfold applyBlockPre at found
      dsimp only at found
      split_ifs at found
      · rw [Dict.get?_set] at found
        split_ifs at found with same
        · cases found
          rw [← same, ← top]
          exact accepted.passes_top
        · exact accepted.passes (standing.heights hash height found)
      · exact accepted.passes (standing.heights hash height found)
    · rw [finalized_applyBlockPre]
      exact accepted.passes standing.finalized
  obtain ⟨healthy, heights, finalized⟩ := kept
  refine ⟨?_, ?_, accepted.supply, heights, finalized⟩
  · rw [accepted.head_eq, top]
    exact integer_of_checkProposer checked
  · rw [top]
    exact healthy

theorem Reachable.standing
    (reached : Reachable args chain) :
    chain.Standing := by
  induction reached with
  | genesis built => exact standing_ofTyped (.genesis built)
  | block _ submitted standing => exact standing.submitBlock submitted

end Chain

end Untyped

end Mindees
