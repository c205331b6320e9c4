import Mindees.Consensus.History
import Mindees.Consensus.NoTheft

/-!
# The slashable window

Stake that leaves through the unbonding queue stays within reach of a slash for
the whole unbonding period: what was staked at a height is still bonded that many
blocks later.
-/

namespace Mindees

open Library

/-! ## Coins that no block up to a deadline releases -/

theorem stillBonded_append
    (deadline : Int)
    (left right : List Unbonding) :
    stillBonded deadline (left ++ right) =
      stillBonded deadline left ++ stillBonded deadline right :=
  List.filter_append ..

/-- Maturing before the deadline releases nothing that stays bonded past it. -/
theorem stillBonded_stillBonded
    {height deadline : Int}
    (before : height ≤ deadline)
    (queue : List Unbonding) :
    stillBonded deadline (stillBonded height queue) = stillBonded deadline queue := by
  rw [stillBonded, stillBonded, stillBonded, List.filter_filter]
  refine List.filter_congr fun entry _ => ?_
  by_cases late : deadline < entry.releaseHeight
  · simp [late, before.trans_lt late]
  · simp [late]

/-- The stake of an address and those of its unbonding coins that stay bonded
past a deadline. -/
def exposed (deadline : Int) (state : LedgerState) (address : Str) : Int :=
  state.stakes.getD address 0 +
    queueTotal (stillBonded deadline (state.unbonding.getD address []))

section

variable {height : Int} {state : LedgerState}

theorem Healthy.queueTotal_filter_nonneg
    (healthy : Healthy height state)
    (address : Str)
    (kept : Unbonding → Bool) :
    0 ≤ queueTotal ((state.unbonding.getD address []).filter kept) := by
  refine List.sum_nonneg fun amount inside => ?_
  obtain ⟨entry, present, rfl⟩ := List.mem_map.mp inside
  exact (healthy.queues address entry (List.mem_of_mem_filter present)).1.le

/-- Exposed coins are at least the stake. -/
theorem Healthy.stake_le_exposed
    (healthy : Healthy height state)
    (deadline : Int)
    (address : Str) :
    state.stakes.getD address 0 ≤ exposed deadline state address := by
  have late := healthy.queueTotal_filter_nonneg address fun entry =>
    deadline < entry.releaseHeight
  rw [exposed, stillBonded]
  omega

/-- A slash reaches all exposed coins. -/
theorem Healthy.exposed_le_bondedOf
    (healthy : Healthy height state)
    (deadline : Int)
    (address : Str) :
    exposed deadline state address ≤ state.bondedOf address := by
  have split := released_add_stillBonded deadline (state.unbonding.getD address [])
  have early := healthy.queueTotal_filter_nonneg address fun entry =>
    entry.releaseHeight ≤ deadline
  simp only [exposed, LedgerState.bondedOf, LedgerState.unbondingOf, released] at split ⊢
  omega

end

section

variable [Primitives] {config : Config} {block : Block} {justifiedParent : Finset Str}
  {state after : LedgerState} {tx : Transaction}

/-- The hook before a block exposes the same coins. -/
theorem exposed_applyBlockPre
    {deadline : Int}
    (before : block.index ≤ deadline)
    (config : Config)
    (state : LedgerState)
    (address : Str) :
    exposed deadline (applyBlockPre config block state) address =
      exposed deadline state address := by
  have queue : (applyBlockPre config block state).unbonding =
      (matureUnbonding block.index state).unbonding := by
    rw [applyBlockPre_eq]
  rw [exposed, applyBlockPre_stakes, queue, getD_unbonding_matureUnbonding,
    stillBonded_stillBonded before]
  rfl

/-- Stake that leaves is queued past the deadline, so that no transaction but a
slash of the address lowers what is exposed. -/
theorem Applied.exposed_le
    (applied : Applied config block justifiedParent state tx after)
    (valid : tx.isValid = true)
    {deadline : Int}
    (delayed : 0 < config.unbondingBlocks)
    (beyond : deadline < block.index + config.unbondingBlocks)
    {address : Str}
    (notOffender : offenderOf tx ≠ some address) :
    exposed deadline state address ≤ exposed deadline after address := by
  obtain ⟨amount, _, _⟩ := Transaction.isValid.units valid
  cases applied with
  | stake _ moved _ =>
      obtain ⟨_, _, rfl⟩ := (applyStake_eq_ok _ _ _ _).mp moved
      simp only [exposed, getD_credit]
      split_ifs <;> omega
  | unstake _ moved _ =>
      obtain ⟨_, _, _, stakes, withdrawn, rfl⟩ := (applyUnstake_eq_ok _ _ _ _ _).mp moved
      have staked := (withdrawStake_spec withdrawn).1 address
      have late : stillBonded deadline
          [⟨tx.amount, block.index, block.index + config.unbondingBlocks⟩] =
            [⟨tx.amount, block.index, block.index + config.unbondingBlocks⟩] := by
        simp [stillBonded, beyond]
      simp only [exposed, staked, getD_unstakedQueues, stillBonded_append, queueTotal_append]
      by_cases sender : tx.sender = address
      · rw [if_pos sender, if_pos ⟨delayed, sender⟩, late]
        simp only [queueTotal, List.map_cons, List.map_nil, List.sum_cons, List.sum_nil]
        omega
      · rw [if_neg sender, if_neg fun both => sender both.2]
        have nothing : queueTotal (stillBonded deadline []) = 0 := rfl
        omega
  | slash named moved =>
      obtain ⟨_, treasury, _, offender, _, proven, _, _, paid, charged, rfl⟩ :=
        (applySlash_eq_ok _ _ _ _ _).mp moved
      obtain ⟨_, rfl⟩ := (payFee_eq_ok _ _ _ _).mp charged
      have other : offender ≠ address := by
        rintro rfl
        refine notOffender ?_
        rw [offenderOf, if_pos named, proven]
      simp only [exposed, confiscate, Dict.getD_erase, if_neg other, le_refl]
  | vote _ moved =>
      obtain ⟨link, _, _, _, paid, charged, rfl⟩ := (applyVote_eq_ok _ _ _ _ _ _).mp moved
      obtain ⟨_, rfl⟩ := (payFee_eq_ok _ _ _ _).mp charged
      simp only [exposed, tallyLink_stakes, tallyLink_unbonding, recordVote_stakes,
        recordVote_unbonding, le_refl]
  | payment _ _ _ _ moved _ =>
      obtain ⟨_, rfl⟩ := (applyPayment_eq_ok _ _ _ _).mp moved
      exact le_rfl

/-- A slash leaves its offender nothing bonded. -/
theorem applySlash_bondedOf
    (moved : applySlash config block state tx = .ok after)
    {offender : Str}
    (convicted : offenderOf tx = some offender)
    (named : tx.recipient = SLASH_SENTINEL) :
    after.stakes.getD offender 0 = 0 ∧ after.unbondingOf offender = 0 := by
  obtain ⟨_, treasury, _, other, _, proven, _, _, paid, charged, rfl⟩ :=
    (applySlash_eq_ok _ _ _ _ _).mp moved
  rw [offenderOf, if_pos named, proven] at convicted
  obtain rfl := Option.some.inj convicted
  simp only [LedgerState.unbondingOf, confiscate, Dict.getD_erase, if_true, queueTotal_nil,
    and_self]

end

/-! ## Whole windows -/

namespace ProofOfStakeChain

section

variable [Primitives] {args : GenesisArgs} {chain after : ProofOfStakeChain}

/-- Transactions of the next block that do not slash an address keep it exposed. -/
theorem Reachable.exposed_le_of_applyTxs
    (reachable : Reachable args chain)
    {block : Block}
    (next : block.index = chain.head.index + 1)
    (delayed : 0 < chain.config.unbondingBlocks)
    (deadline : Int)
    (within : block.index ≤ deadline)
    (beyond : deadline < block.index + chain.config.unbondingBlocks)
    (address : Str)
    {transactions : List Transaction}
    (innocent : ∀ tx ∈ transactions, offenderOf tx ≠ some address)
    {state : LedgerState}
    (ran : applyTxs chain.config block chain.state.justified
      (applyBlockPre chain.config block chain.state) transactions = .ok state) :
    Healthy block.index state ∧
      exposed deadline chain.state address ≤ exposed deadline state address := by
  refine applyTxs_invariant
    (fun state => Healthy block.index state ∧
      exposed deadline chain.state address ≤ exposed deadline state address) ?_ ?_ ran
  · rintro tx inside before after ⟨healthy, kept⟩ valid _ applied
    have step := applied.exposed_le valid delayed beyond (innocent tx inside)
    exact ⟨healthy.applied valid applied, kept.trans step⟩
  · refine ⟨applyBlockPre_healthy reachable.healthy next, ?_⟩
    rw [exposed_applyBlockPre within]

/-- Blocks that do not slash an address keep it exposed up to the deadline. -/
theorem Reachable.exposed_le_of_submitBlocks
    (reachable : Reachable args chain)
    (delayed : 0 < chain.config.unbondingBlocks)
    {address : Str}
    {blocks : List Block}
    (short : (blocks.length : Int) ≤ chain.config.unbondingBlocks)
    (innocent : ∀ block ∈ blocks, ∀ tx ∈ block.transactions, offenderOf tx ≠ some address)
    (extended : chain.submitBlocks blocks = .ok after) :
    Reachable args after ∧ after.config = chain.config ∧
      after.head.index = chain.head.index + blocks.length ∧
      exposed (chain.head.index + chain.config.unbondingBlocks) chain.state address ≤
        exposed (chain.head.index + chain.config.unbondingBlocks) after.state address := by
  refine foldlM_traces
    (fun earlier after => Reachable args after ∧ after.config = chain.config ∧
      after.head.index = chain.head.index + earlier.length ∧
      exposed (chain.head.index + chain.config.unbondingBlocks) chain.state address ≤
        exposed (chain.head.index + chain.config.unbondingBlocks) after.state address)
    ?_ ⟨reachable, rfl, (add_zero _).symm, le_rfl⟩ extended
  rintro earlier block later position before next ⟨reached, same, height, kept⟩ submitted
  have accepted := submitted_of_submitBlock submitted
  have index := accepted.index
  have room : (earlier.length : Int) + 1 ≤ blocks.length := by
    rw [position, List.length_append, List.length_cons]
    push_cast
    omega
  have step := reached.exposed_le_of_applyTxs index (same ▸ delayed)
    (chain.head.index + chain.config.unbondingBlocks) (by omega) (by rw [same]; omega) address
    (innocent block (by simp [position])) accepted.ran
  refine ⟨reached.block submitted, accepted.config.trans same, ?_, kept.trans step.2⟩
  rw [accepted.newest, List.length_append, List.length_singleton]
  push_cast
  omega

/-- The slashable window: as long as no slash convicts an address, at most as
many blocks as coins unbond for leave it bonded with all that it had staked; and
a slash of the address in one of these blocks takes at least that, and leaves
nothing. -/
theorem Reachable.slashable_window
    (reachable : Reachable args chain)
    (delayed : 0 < chain.config.unbondingBlocks)
    {address : Str}
    {blocks : List Block}
    (innocent : ∀ block ∈ blocks, ∀ tx ∈ block.transactions, offenderOf tx ≠ some address)
    (extended : chain.submitBlocks blocks = .ok after) :
    ((blocks.length : Int) ≤ chain.config.unbondingBlocks →
      chain.stakeOf address ≤ after.stakeOf address + after.state.unbondingOf address) ∧
    ((blocks.length : Int) < chain.config.unbondingBlocks →
      ∀ block next, after.submitBlock block = .ok next →
      ∀ earlier tx later, block.transactions = earlier ++ tx :: later →
        (∀ other ∈ earlier, offenderOf other ≠ some address) → offenderOf tx = some address →
        ∃ state slashed,
          applyTxs after.config block after.state.justified
            (applyBlockPre after.config block after.state) earlier = .ok state ∧
          applySlash after.config block state tx = .ok slashed ∧
          chain.stakeOf address ≤ state.bondedOf address ∧
          slashed.stakes.getD address 0 = 0 ∧ slashed.unbondingOf address = 0) := by
  have start := reachable.healthy.stake_le_exposed
    (chain.head.index + chain.config.unbondingBlocks) address
  constructor
  · intro short
    obtain ⟨reached, _, _, kept⟩ :=
      reachable.exposed_le_of_submitBlocks delayed short innocent extended
    have covered := reached.healthy.exposed_le_bondedOf
      (chain.head.index + chain.config.unbondingBlocks) address
    exact start.trans (kept.trans covered)
  · intro short block next submitted earlier tx later position clean convicted
    obtain ⟨reached, same, height, kept⟩ :=
      reachable.exposed_le_of_submitBlocks delayed short.le innocent extended
    have accepted := submitted_of_submitBlock submitted
    have index := accepted.index
    obtain ⟨seen, ran⟩ := (applyTxs_eq_ok _ _ _ _ _ _).mp accepted.ran
    rw [position] at ran
    obtain ⟨before, reachedTx, rest⟩ := (foldlM_append_eq_ok _ _ _ _).mp ran
    obtain ⟨progress, stepped, _⟩ := (foldlM_cons_eq_ok _ _ _ _).mp rest
    obtain ⟨_, _, _, _, applied⟩ := (applyNext_eq_ok _ _ _ _ _ _).mp stepped
    have prefixRan : applyTxs after.config block after.state.justified
        (applyBlockPre after.config block after.state) earlier = .ok before.2 :=
      (applyTxs_eq_ok _ _ _ _ _ _).mpr ⟨before.1, reachedTx⟩
    have named : tx.recipient = SLASH_SENTINEL := by
      by_contra other
      rw [offenderOf, if_neg other] at convicted
      cases convicted
    have slashed : applySlash after.config block before.2 tx = .ok progress.2 := by
      rw [applyTx, if_neg (by rw [named]; decide), if_neg (by rw [named]; decide),
        if_pos named] at applied
      exact applied
    obtain ⟨healthy, step⟩ := reached.exposed_le_of_applyTxs index (same ▸ delayed)
      (chain.head.index + chain.config.unbondingBlocks) (by omega) (by rw [same]; omega) address
      clean prefixRan
    have covered := healthy.exposed_le_bondedOf
      (chain.head.index + chain.config.unbondingBlocks) address
    exact ⟨before.2, progress.2, prefixRan, slashed,
      start.trans (kept.trans (step.trans covered)), applySlash_bondedOf slashed convicted named⟩

end

end ProofOfStakeChain

/-! ## A withdrawal inside the window -/

section

open NoTheftSample

attribute [local instance] Symbolic.primitives

/-- The validator withdraws 100 of its 400 staked units, and all 400 stay
bonded. -/
theorem slashable_window_withdrawal :
    before.stakeOf (Symbolic.wallet 1).address = 400 ∧
      next.stakeOf (Symbolic.wallet 1).address = 300 ∧
      400 ≤ next.stakeOf (Symbolic.wallet 1).address +
        next.state.unbondingOf (Symbolic.wallet 1).address := by
  have staked : before.stakeOf (Symbolic.wallet 1).address = 400 := by decide +kernel
  have extended : before.submitBlocks [next.head] = .ok next := by
    rw [ProofOfStakeChain.submitBlocks, foldlM_cons_eq_ok]
    exact ⟨next, next_submitted, rfl⟩
  have kept := (before_reachable.slashable_window (by decide +kernel)
    (by decide +kernel : ∀ block ∈ [next.head], ∀ tx ∈ block.transactions,
      offenderOf tx ≠ some (Symbolic.wallet 1).address) extended).1 (by decide +kernel)
  rw [staked] at kept
  exact ⟨staked, by decide +kernel, kept⟩

end

end Mindees
