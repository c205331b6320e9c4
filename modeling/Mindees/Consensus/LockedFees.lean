import Mindees.Consensus.NoTheft

/-!
# What leaks out of a lock

A vote and a slash pay their fee without a look at the vesting schedule.  Over
every run these fees are all that a lock loses: what a holder has, together with
the fees it paid so to other proposers, covers what its grant locks.
-/

namespace Mindees

open Library

/-- The fee that a transaction takes from an address with no vesting check.  The
proposer of the block pays it to itself. -/
def uncheckedFee (block : Block) (address : Str) (tx : Transaction) : Int :=
  if tx.sender = address ∧ block.validator ≠ address ∧
      (tx.recipient = SLASH_SENTINEL ∨ tx.recipient = VOTE_SENTINEL) then tx.fee
  else 0

/-- The unchecked fees of some transactions of a block. -/
def uncheckedFees (block : Block) (address : Str) (transactions : List Transaction) : Int :=
  (transactions.map (uncheckedFee block address)).sum

/-- The unchecked fees in a list of blocks. -/
def leakedFees (address : Str) (blocks : List Block) : Int :=
  (blocks.map fun block => uncheckedFees block address block.transactions).sum

theorem uncheckedFees_concat
    (block : Block)
    (address : Str)
    (transactions : List Transaction)
    (tx : Transaction) :
    uncheckedFees block address (transactions ++ [tx]) =
      uncheckedFees block address transactions + uncheckedFee block address tx := by
  simp [uncheckedFees]

theorem leakedFees_concat
    (address : Str)
    (blocks : List Block)
    (block : Block) :
    leakedFees address (blocks ++ [block]) =
      leakedFees address blocks + uncheckedFees block address block.transactions := by
  simp [leakedFees]

section

variable [Primitives]

theorem uncheckedFee_nonneg
    {tx : Transaction}
    (valid : tx.isValid = true)
    (block : Block)
    (address : Str) :
    0 ≤ uncheckedFee block address tx := by
  obtain ⟨_, fee, _⟩ := Transaction.isValid.units valid
  rw [uncheckedFee]
  split_ifs
  · exact fee
  · exact le_rfl

variable {config : Config} {block : Block} {justifiedParent : Finset Str}
  {state after : LedgerState} {tx : Transaction} {address : Str} {grant : Grant}

theorem reward_nonneg
    (healthy : Healthy block.index state)
    (config : Config)
    (tx : Transaction) :
    0 ≤ reward config state tx := by
  have shares := fun offender => reporterShare_bounds (healthy.bonded_nonneg offender)
  rw [reward]
  split
  next treasury offender _ _ =>
    obtain ⟨positive, rest⟩ := shares offender
    dsimp only
    split_ifs <;> omega
  next => exact le_rfl

/-- A payment, a stake and an unstake leave their sender what its grant locks. -/
theorem Applied.lock_checked
    (applied : Applied config block justifiedParent state tx after)
    (healthy : Healthy block.index state)
    (valid : tx.isValid = true)
    (granted : config.vesting.get? tx.sender = some grant)
    (notSlash : tx.recipient ≠ SLASH_SENTINEL)
    (notVote : tx.recipient ≠ VOTE_SENTINEL) :
    grant.lockedAt block.index ≤ after.holding tx.sender := by
  have enforced : enforceVesting config tx.sender block.index after = .ok () := by
    cases applied with
    | stake _ _ checked => exact checked
    | unstake _ _ checked => exact checked
    | slash named _ => exact absurd named notSlash
    | vote named _ => exact absurd named notVote
    | payment _ _ _ _ _ checked => exact checked
  have afterwards := healthy.applied valid applied
  have rich := afterwards.balances tx.sender
  have staked := afterwards.bonded_nonneg tx.sender
  have rule := (enforceVesting_eq_ok _ _ _ _).mp enforced grant granted
  simp only [LedgerState.holding, LedgerState.bondedOf] at staked rule ⊢
  omega

/-- A transaction takes from a lock no more than its unchecked fee, whatever was
taken before. -/
theorem Applied.lock_leaks
    (applied : Applied config block justifiedParent state tx after)
    (healthy : Healthy block.index state)
    (valid : tx.isValid = true)
    (granted : config.vesting.get? address = some grant)
    (notOffender : address ∉ after.slashedAddrs)
    {lost : Int}
    (nonneg : 0 ≤ lost)
    (kept : grant.lockedAt block.index ≤ state.holding address + lost) :
    grant.lockedAt block.index ≤
      after.holding address + (lost + uncheckedFee block address tx) := by
  have fee := uncheckedFee_nonneg valid block address
  have innocent : offenderOf tx ≠ some address :=
    fun convicted => notOffender (applied.slashedAddrs.2 address convicted)
  by_cases sender : tx.sender = address
  · subst sender
    by_cases special : tx.recipient = SLASH_SENTINEL ∨ tx.recipient = VOTE_SENTINEL
    · have holding := applied.holding_sender special innocent
      have gained := reward_nonneg healthy config tx
      by_cases proposer : block.validator = tx.sender
      · rw [if_pos proposer] at holding
        omega
      · rw [if_neg proposer] at holding
        rw [uncheckedFee, if_pos ⟨rfl, proposer, special⟩]
        omega
    · obtain ⟨notSlash, notVote⟩ := not_or.mp special
      have checked := applied.lock_checked healthy valid granted notSlash notVote
      omega
  · have others := applied.holding_le_of_ne_sender healthy valid sender innocent
    omega

/-! ## Whole runs -/

namespace ProofOfStakeChain

variable {args : GenesisArgs} {chain : ProofOfStakeChain}

/-- What a holder that was never slashed has, and what it paid in unchecked fees
up to the head, cover what its grant locks. -/
def LocksLeak (chain : ProofOfStakeChain) : Prop :=
  ∀ address grant, chain.config.vesting.get? address = some grant →
    address ∉ chain.state.slashedAddrs →
    0 ≤ leakedFees address chain.chain ∧
      grant.lockedAt chain.head.index ≤
        chain.state.holding address + leakedFees address chain.chain

theorem init_locksLeak
    (initialised : init args = .ok chain) :
    chain.LocksLeak := by
  obtain ⟨_, _, _, _, _, _, _, _, blocks⟩ := (init_eq_ok args chain).mp initialised
  have nothing : ∀ address, leakedFees address chain.chain = 0 := by
    intro address
    rw [blocks]
    rfl
  intro address grant granted unslashed
  have held := (init_locksHold initialised).2 address grant granted unslashed
  rw [nothing]
  exact ⟨le_rfl, by omega⟩

/-- A block adds to the leak no more than its unchecked fees. -/
theorem LocksLeak.submitBlock
    (reachable : Reachable args chain)
    (leaks : chain.LocksLeak)
    {block : Block}
    {next : ProofOfStakeChain}
    (submitted : chain.submitBlock block = .ok next) :
    next.LocksLeak := by
  have accepted := submitted_of_submitBlock submitted
  intro address grant granted unslashed
  rw [accepted.config] at granted
  rw [accepted.newest, accepted.blocks, leakedFees_concat]
  let covered := fun (earlier : List Transaction) (state : LedgerState) =>
    Healthy block.index state ∧ (address ∉ state.slashedAddrs →
      0 ≤ leakedFees address chain.chain + uncheckedFees block address earlier ∧
        grant.lockedAt block.index ≤ state.holding address +
          (leakedFees address chain.chain + uncheckedFees block address earlier))
  have start : covered [] (applyBlockPre chain.config block chain.state) := by
    refine ⟨applyBlockPre_healthy reachable.healthy accepted.index, fun innocent => ?_⟩
    rw [applyBlockPre_eq] at innocent
    obtain ⟨nonneg, held⟩ := leaks address grant granted innocent
    have older : chain.head.index ≤ block.index := by
      have next := accepted.index
      omega
    have released := (reachable.grants_valid granted).lockedAt_antitone older
    have nothing : uncheckedFees block address [] = 0 := rfl
    rw [holding_applyBlockPre, nothing]
    omega
  have finish : covered block.transactions next.state := by
    refine applyTxs_traces covered ?_ start accepted.ran
    rintro earlier tx later _ before after ⟨healthy, kept⟩ valid _ applied
    refine ⟨healthy.applied valid applied, fun innocent => ?_⟩
    obtain ⟨nonneg, held⟩ := kept fun slashed => innocent (applied.slashedAddrs.1 _ slashed)
    have fee := uncheckedFee_nonneg valid block address
    have step := applied.lock_leaks healthy valid granted innocent nonneg held
    rw [uncheckedFees_concat]
    omega
  exact finish.2 unslashed

theorem Reachable.locksLeak
    (reachable : Reachable args chain) :
    chain.LocksLeak := by
  induction reachable with
  | genesis initialised => exact init_locksLeak initialised
  | block earlier submitted inductionHypothesis =>
      exact inductionHypothesis.submitBlock earlier submitted

/-- On every reachable chain, a grant holder that was never slashed has what its
grant still locks, up to the fees of its votes and slashes in blocks of others. -/
theorem Reachable.locks_leak
    (reachable : Reachable args chain)
    {address : Str}
    {grant : Grant}
    (granted : chain.config.vesting.get? address = some grant)
    (unslashed : address ∉ chain.state.slashedAddrs) :
    grant.lockedAt chain.head.index ≤
      chain.state.holding address + leakedFees address chain.chain :=
  (reachable.locksLeak address grant granted unslashed).2

end ProofOfStakeChain

end

/-! ## A lock that leaked -/

namespace VestingSample

open ProofOfStakeChain

attribute [local instance] Symbolic.primitives

/-- The founder has 100 units left and paid 900: together they are the 1000 units that its
grant locks, so the bound is attained. -/
theorem locks_leak_fee :
    leakedChain.state.holding founder = 100 ∧ leakedFees founder leakedChain.chain = 900 ∧
      (⟨1000, 0, 100, 100⟩ : Grant).lockedAt leakedChain.head.index = 1000 ∧
      (⟨1000, 0, 100, 100⟩ : Grant).lockedAt leakedChain.head.index ≤
        leakedChain.state.holding founder + leakedFees founder leakedChain.chain :=
  ⟨by decide +kernel, by decide +kernel, by decide +kernel,
    (play_reachable (eq_ok_outcome _ leaked)).locks_leak (by decide +kernel) (by decide +kernel)⟩

end VestingSample

end Mindees
