import Mindees.Consensus.Apply

/-!
# Genesis and the chains it leads to

The constructor of a chain with all of its checks, and the chains that accepted
blocks reach from it.
-/

namespace Mindees

open Library

/-- The arguments of the chain constructor. -/
structure GenesisArgs where
  allocations : Dict Str Int
  initialStakes : Dict Str Int := Dict.empty
  timestamp : Int := 0
  /-- Address to `(total, start, cliff, duration)`. -/
  vesting : Dict Str (List Int) := Dict.empty
  unbondingBlocks : Int := 0
  treasuryAddress : Option Str := none
  epoch : Int := 32

/-- `"0" * 64`. -/
def GENESIS_PREV : Str := List.replicate 64 '0'

/-- `"genesis"`. -/
def GENESIS_VALIDATOR : Str := ['g', 'e', 'n', 'e', 's', 'i', 's']

/-- Move one initial stake out of the genesis balances. -/
def addInitialStake
    (progress : Dict Str Int × Dict Str Int)
    (entry : Str × Int) : Except Error (Dict Str Int × Dict Str Int) := do
  let (balances, stakes) := progress
  let (address, amount) := entry
  rejectIf (isUnits amount = false ∨ amount = 0) "initial stake must be a positive integer"
  rejectIf (balances.getD address 0 < amount) "initial stake exceeds genesis balance"
  let balances ← addItem balances address (-amount)
  pure (balances, credit stakes address amount)

/-- A grant has four non-negative numbers and does not exceed what is held. -/
def checkGrant
    (balances stakes : Dict Str Int)
    (_ : Unit)
    (entry : Str × List Int) : Except Error Unit := do
  let (address, grant) := entry
  rejectIf (grant.length ≠ 4 ∨ grant.all isUnits = false)
    "vesting grant must be 4 non-negative integers"
  let held := balances.getD address 0 + stakes.getD address 0
  rejectIf (held < grant.headD 0)
    s!"vesting grant for {text address} exceeds its genesis holding"

/-- The grant that four numbers spell. -/
def toGrant : List Int → Grant
  | [total, start, cliff, duration] => { total, start, cliff, duration }
  | _ => { total := 0, start := 0, cliff := 0, duration := 0 }

/-- The treasury is a ledger account from the start. -/
def withTreasury (treasuryAddress : Option Str) (balances : Dict Str Int) : Dict Str Int :=
  match treasuryAddress with
  | some treasury => balances.setDefault treasury 0
  | none => balances

section

variable [Primitives]

/-- The genesis block. -/
def genesisBlock (timestamp : Int) : Block :=
  Block.postInit
    { index := 0, previousHash := GENESIS_PREV, timestamp, transactions := [],
      validator := GENESIS_VALIDATOR }

/-- The checks of the base chain on the allocations. -/
def checkAllocations (allocations : Dict Str Int) : Except Error Unit := do
  rejectIf (allocations.values.all isUnits = false)
    "genesis allocations must be non-negative integers"
  let allocated := total allocations
  rejectIf (allocated ≠ MAX_SUPPLY_UNITS)
    s!"genesis must allocate exactly {MAX_SUPPLY_UNITS} units, got {allocated}"
  rejectIf (allocations.values.any (· < 0) = true) "negative genesis allocation"

/-- The state at genesis. -/
def genesisState
    (allocations balances stakes : Dict Str Int)
    (genesisHash : Str) : LedgerState where
  balances := balances
  nonces := allocations.mapValues fun _ => 0
  stakes := stakes
  unbonding := Dict.empty
  slashed := ∅
  slashedAddrs := ∅
  ffgStake := Dict.empty.set genesisHash stakes
  ffgHeight := Dict.empty.set genesisHash 0
  ffgVotes := Dict.empty
  ffgSeenTarget := Dict.empty
  justified := {genesisHash}
  finalized := (genesisHash, 0)

namespace ProofOfStakeChain

/-- The chain constructor. -/
def init (args : GenesisArgs) : Except Error ProofOfStakeChain := do
  checkAllocations args.allocations
  let (balances, stakes) ←
    args.initialStakes.entries.foldlM addInitialStake (args.allocations, Dict.empty)
  args.vesting.entries.foldlM (checkGrant balances stakes) ()
  let balances := withTreasury args.treasuryAddress balances
  rejectIf (args.epoch ≤ 0) "epoch must be positive"
  let genesis := genesisBlock args.timestamp
  pure
    { config :=
        { vesting := args.vesting.mapValues toGrant
          unbondingBlocks := args.unbondingBlocks
          treasuryAddress := args.treasuryAddress
          epoch := args.epoch }
      state := genesisState args.allocations balances stakes genesis.hash
      chain := [genesis]
      nonempty := by simp }

/-- Submit blocks one after the other, stopping at the first that is refused. -/
def submitBlocks (chain : ProofOfStakeChain) (blocks : List Block) :
    Except Error ProofOfStakeChain :=
  blocks.foldlM submitBlock chain

/-- The chains that accepted blocks lead to from a genesis. -/
inductive Reachable (args : GenesisArgs) : ProofOfStakeChain → Prop
  | genesis {chain : ProofOfStakeChain} :
      init args = .ok chain → Reachable args chain
  | block {before after : ProofOfStakeChain} {block : Block} :
      Reachable args before → before.submitBlock block = .ok after →
      Reachable args after

/-- The chains that blocks of a kind lead to from a genesis. -/
inductive ReachableBy
    (args : GenesisArgs)
    (kind : ProofOfStakeChain → Block → Prop) : ProofOfStakeChain → Prop
  | genesis {chain : ProofOfStakeChain} :
      init args = .ok chain → ReachableBy args kind chain
  | block {before after : ProofOfStakeChain} {block : Block} :
      ReachableBy args kind before → kind before block →
      before.submitBlock block = .ok after → ReachableBy args kind after

theorem ReachableBy.mono
    {args : GenesisArgs}
    {kind other : ProofOfStakeChain → Block → Prop}
    {chain : ProofOfStakeChain}
    (reached : ReachableBy args kind chain)
    (weaker : ∀ before block, kind before block → other before block) :
    ReachableBy args other chain := by
  induction reached with
  | genesis initialised => exact .genesis initialised
  | block _ meets submitted inductionHypothesis =>
      exact .block inductionHypothesis (weaker _ _ meets) submitted

theorem ReachableBy.reachable
    {args : GenesisArgs}
    {kind : ProofOfStakeChain → Block → Prop}
    {chain : ProofOfStakeChain}
    (reached : ReachableBy args kind chain) :
    Reachable args chain := by
  induction reached with
  | genesis initialised => exact .genesis initialised
  | block _ _ submitted inductionHypothesis => exact .block inductionHypothesis submitted

theorem init_eq_ok
    (args : GenesisArgs)
    (chain : ProofOfStakeChain) :
    init args = .ok chain ↔
      checkAllocations args.allocations = .ok () ∧
      ∃ balances stakes,
        args.initialStakes.entries.foldlM addInitialStake (args.allocations, Dict.empty) =
          .ok (balances, stakes) ∧
        args.vesting.entries.foldlM (checkGrant balances stakes) () = .ok () ∧
        0 < args.epoch ∧
        chain.config =
          { vesting := args.vesting.mapValues toGrant
            unbondingBlocks := args.unbondingBlocks
            treasuryAddress := args.treasuryAddress
            epoch := args.epoch } ∧
        chain.state =
          genesisState args.allocations (withTreasury args.treasuryAddress balances) stakes
            (genesisBlock args.timestamp).hash ∧
        chain.chain = [genesisBlock args.timestamp] := by
  obtain ⟨config, state, blocks, nonempty⟩ := chain
  simp only [init, rejectIf, bind_eq_ok, raiseIf_eq_ok, pure_eq_ok, exists_unit, not_le,
    exists_and_left, exists_const, Prod.exists, ProofOfStakeChain.mk.injEq]
  constructor
  · rintro ⟨allocated, balances, stakes, staked, granted, epoch, rfl, rfl, rfl⟩
    exact ⟨allocated, balances, stakes, staked, granted, epoch, rfl, rfl, rfl⟩
  · rintro ⟨allocated, balances, stakes, staked, granted, epoch, rfl, rfl, rfl⟩
    exact ⟨allocated, balances, stakes, staked, granted, epoch, rfl, rfl, rfl⟩

end ProofOfStakeChain

end

end Mindees
