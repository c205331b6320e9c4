import Mindees.Core.Codec
import Mindees.Core.Symbolic
import Mindees.Consensus.Genesis

/-!
# What the genesis hash names

The header of the genesis block holds nothing of the parameters but the
timestamp.  The hash names the block and the root of finality; the ledger and
its rules are compared by other means.
-/

namespace Mindees

open Library

section

variable [Primitives]

@[simp] theorem timestamp_genesisBlock (timestamp : Int) :
    (genesisBlock timestamp).timestamp = timestamp := by
  unfold genesisBlock Block.postInit
  split <;> rfl

namespace ProofOfStakeChain

variable {args left right : GenesisArgs} {chain leftChain rightChain : ProofOfStakeChain}

theorem head_eq_genesisBlock
    (initialised : init args = .ok chain) :
    chain.head = genesisBlock args.timestamp := by
  obtain ⟨_, _, _, _, _, _, _, _, blocks⟩ := (init_eq_ok args chain).mp initialised
  simp only [head, blocks, List.getLast_singleton]

/-- Two accepted tuples of parameters have the same genesis hash exactly when
their timestamps are equal.  The hash then names the genesis block and the root
of finality; the initial chains are equal exactly when the rules and the initial
ledger, which the hash leaves out, are equal as well. -/
theorem genesis_hash_eq_iff
    (leftInitialised : init left = .ok leftChain)
    (rightInitialised : init right = .ok rightChain)
    (free : CollisionFree
      {canonical leftChain.head.header, canonical rightChain.head.header}) :
    (leftChain.head.hash = rightChain.head.hash ↔ left.timestamp = right.timestamp) ∧
    (leftChain.head.hash = rightChain.head.hash →
      leftChain.chain = rightChain.chain ∧
      leftChain.state.justified = rightChain.state.justified ∧
      leftChain.state.finalized = rightChain.state.finalized) ∧
    (leftChain = rightChain ↔
      leftChain.head.hash = rightChain.head.hash ∧
      leftChain.config = rightChain.config ∧
      leftChain.state.balances = rightChain.state.balances ∧
      leftChain.state.nonces = rightChain.state.nonces ∧
      leftChain.state.stakes = rightChain.state.stakes) := by
  have named : leftChain.head.hash = rightChain.head.hash ↔
      left.timestamp = right.timestamp := by
    constructor
    · intro same
      have fields := free.header (by simp) (by simp) same
      have timestamps := fields.2.2.1
      rw [head_eq_genesisBlock leftInitialised, head_eq_genesisBlock rightInitialised] at timestamps
      simpa using timestamps
    · intro same
      rw [head_eq_genesisBlock leftInitialised, head_eq_genesisBlock rightInitialised, same]
  obtain ⟨_, _, leftStakes, _, _, _, _, leftState, leftBlocks⟩ :=
    (init_eq_ok left leftChain).mp leftInitialised
  obtain ⟨_, _, rightStakes, _, _, _, _, rightState, rightBlocks⟩ :=
    (init_eq_ok right rightChain).mp rightInitialised
  have root : leftChain.head.hash = rightChain.head.hash →
      leftChain.chain = rightChain.chain ∧
      leftChain.state.justified = rightChain.state.justified ∧
      leftChain.state.finalized = rightChain.state.finalized := by
    intro same
    have timestamps := named.mp same
    rw [leftBlocks, rightBlocks, leftState, rightState, timestamps]
    exact ⟨rfl, rfl, rfl⟩
  refine ⟨named, root, ?_, ?_⟩
  · rintro rfl
    exact ⟨rfl, rfl, rfl, rfl, rfl⟩
  · rintro ⟨same, config, balances, nonces, stakes⟩
    have timestamps := named.mp same
    have state : leftChain.state = rightChain.state := by
      rw [leftState, rightState] at balances nonces stakes ⊢
      simp only [genesisState] at balances nonces stakes ⊢
      rw [balances, nonces, stakes, timestamps]
    cases leftChain
    cases rightChain
    simp only [mk.injEq]
    exact ⟨config, state, (root same).1⟩

end ProofOfStakeChain

end

/-! ## Two ledgers under one name -/

namespace GenesisIdentitySample

open ProofOfStakeChain

attribute [local instance] Symbolic.primitives

/-- One address holds everything, and the chain has an epoch of its own. -/
def args (holder : UInt8) (epoch : Int) : GenesisArgs where
  allocations := Dict.empty.set (Symbolic.wallet holder).address MAX_SUPPLY_UNITS
  initialStakes := Dict.empty.set (Symbolic.wallet holder).address 500
  epoch := epoch

theorem first_accepted : succeeded (init (args 1 32)) = true := by decide +kernel

theorem second_accepted : succeeded (init (args 2 64)) = true := by decide +kernel

@[irreducible] def first : ProofOfStakeChain := outcome (init (args 1 32)) first_accepted

@[irreducible] def second : ProofOfStakeChain := outcome (init (args 2 64)) second_accepted

theorem first_initialised : init (args 1 32) = .ok first := by
  unfold first
  exact eq_ok_outcome _ first_accepted

theorem second_initialised : init (args 2 64) = .ok second := by
  unfold second
  exact eq_ok_outcome _ second_accepted

theorem one_header : canonical first.head.header = canonical second.head.header := by
  rw [head_eq_genesisBlock first_initialised, head_eq_genesisBlock second_initialised]
  rfl

theorem nothing_collides :
    CollisionFree {canonical first.head.header, canonical second.head.header} := by
  rw [one_header, Set.pair_eq_singleton]
  exact Set.injOn_singleton _ _

/-- Equal timestamps, equal names. -/
theorem genesis_hash_eq_iff_sample :
    first.head.hash = second.head.hash ∧ first.chain = second.chain := by
  have facts := genesis_hash_eq_iff first_initialised second_initialised nothing_collides
  have same : first.head.hash = second.head.hash := facts.1.mpr rfl
  exact ⟨same, (facts.2.1 same).1⟩

/-- The holder of all coins and the epoch differ under one genesis hash. -/
theorem genesis_hash_names_two_ledgers :
    ¬∀ (left right : GenesisArgs) (leftChain rightChain : ProofOfStakeChain),
      init left = .ok leftChain → init right = .ok rightChain →
      CollisionFree {canonical leftChain.head.header, canonical rightChain.head.header} →
      leftChain.head.hash = rightChain.head.hash →
      (∀ address, leftChain.balanceOf address = rightChain.balanceOf address) ∧
        leftChain.config.epoch = rightChain.config.epoch := by
  intro claim
  have same : first.head.hash = second.head.hash :=
    congrArg (fun bytes => hex (sha256 bytes)) one_header
  obtain ⟨balances, _⟩ := claim _ _ first second first_initialised second_initialised
    nothing_collides same
  have held := balances (Symbolic.wallet 1).address
  revert held
  decide +kernel

end GenesisIdentitySample

end Mindees
