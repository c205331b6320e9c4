import Mindees.Core.Reader
import Mindees.Consensus.VestingLock
import Mindees.Node.Acceptance

/-!
# What an address may spend

The query reads the lock at the head from the liquid, staked and unbonding coins
of an address.  A payment that stays within the answer passes the vesting rule of
the next block, where the lock is smaller and coins have only moved between the
containers, as long as no slash takes the bonded coins in between.
-/

namespace Mindees

open Library

namespace ProofOfStakeChain

/-- Base units still locked for an address, at the head unless a height is given. -/
def lockedOf (chain : ProofOfStakeChain) (address : Str) (height : Option Int := none) : Int :=
  match chain.config.vesting.get? address with
  | none => 0
  | some grant => grant.lockedAt (height.getD chain.head.index)

/-- The liquid balance that an address may move right now. -/
def spendableOf (chain : ProofOfStakeChain) (address : Str) : Int :=
  let balance := chain.state.balances.getD address 0
  let lock := chain.lockedOf address
  if lock ≤ 0 then balance
  else
    let holding := balance + chain.state.stakes.getD address 0 + chain.state.unbondingOf address
    max 0 (min balance (holding - lock))

variable {chain : ProofOfStakeChain} {address : Str} {amount : Int}

theorem le_balanceOf_of_spendable
    (positive : 0 < amount)
    (covered : amount ≤ chain.spendableOf address) :
    amount ≤ chain.balanceOf address := by
  simp only [spendableOf] at covered
  rw [balanceOf]
  split_ifs at covered <;> omega

/-- Spending within the answer leaves the lock of the head covered. -/
theorem lockedOf_le_of_spendable
    (positive : 0 < amount)
    (covered : amount ≤ chain.spendableOf address) :
    chain.lockedOf address ≤ 0 ∨
      chain.lockedOf address ≤ chain.state.holding address - amount := by
  simp only [spendableOf] at covered
  rw [LedgerState.holding]
  split_ifs at covered with unlocked
  · exact .inl unlocked
  · refine .inr ?_
    omega

section

variable [Primitives] {args : GenesisArgs} {block : Block} {earlier : List Transaction}
  {tx : Transaction} {state : LedgerState}

/-- Transactions of others leave an address what it holds, unless one of them
slashes it. -/
theorem Reachable.holding_le_of_others
    (reachable : Reachable args chain)
    (next : block.index = chain.head.index + 1)
    (others : ∀ other ∈ earlier, other.sender ≠ address)
    (innocent : ∀ other ∈ earlier, offenderOf other ≠ some address)
    (ran : chain.applyPart block earlier = .ok state) :
    chain.state.holding address ≤ state.holding address := by
  have start : Healthy block.index (chain.stateBefore block) :=
    applyBlockPre_healthy reachable.healthy next
  have kept : Healthy block.index state ∧ chain.state.holding address ≤ state.holding address := by
    refine applyTxs_invariant
      (fun state => Healthy block.index state ∧
        chain.state.holding address ≤ state.holding address) ?_ ⟨start, ?_⟩ ran
    · intro other inside before after held valid _ applied
      obtain ⟨healthy, holds⟩ := held
      refine ⟨healthy.applied valid applied, holds.trans ?_⟩
      exact applied.holding_le_of_ne_sender healthy valid (others other inside)
        (innocent other inside)
    · rw [stateBefore, holding_applyBlockPre]
  exact kept.2

/-- Neither the funds check nor the vesting rule stops a payment. -/
def PaymentPasses
    (config : Config)
    (block : Block)
    (state : LedgerState)
    (tx : Transaction) : Prop :=
  tx.amount + tx.fee ≤ state.balances.getD tx.sender 0 ∧
    ∀ after, applyPayment block state tx = .ok after →
      enforceVesting config tx.sender block.index after = .ok ()

/-- The first payment of a sender in the next block passes when it stays within
what was spendable, unless a slash of the sender comes before it. -/
theorem Reachable.spendable_accepted
    (reachable : Reachable args chain)
    (next : block.index = chain.head.index + 1)
    (others : ∀ other ∈ earlier, other.sender ≠ tx.sender)
    (innocent : ∀ other ∈ earlier, offenderOf other ≠ some tx.sender)
    (ran : chain.applyPart block earlier = .ok state)
    (amount : 0 < tx.amount)
    (fee : 0 ≤ tx.fee)
    (notStake : tx.recipient ≠ STAKE_SENTINEL)
    (notUnstake : tx.recipient ≠ UNSTAKE_SENTINEL)
    (notSlash : tx.recipient ≠ SLASH_SENTINEL)
    (notVote : tx.recipient ≠ VOTE_SENTINEL)
    (covered : tx.amount + tx.fee ≤ chain.spendableOf tx.sender) :
    PaymentPasses chain.config block state tx ∧
      ∃ after, applyTx chain.config block chain.state.justified state tx = .ok after := by
  have positive : 0 < tx.amount + tx.fee := by omega
  obtain ⟨seen, folded⟩ := (applyTxs_eq_ok _ _ _ _ _ _).mp ran
  obtain ⟨_, tracks⟩ := tracks_of_ran reachable.healthy next folded
  have funded : tx.amount + tx.fee ≤ state.balances.getD tx.sender 0 := by
    have own : Mempool.ofSender tx.sender earlier = [] := by
      rw [Mempool.ofSender, List.filter_eq_nil_iff]
      intro other inside
      simpa using others other inside
    have balance := tracks.balances tx.sender
    rw [own, Mempool.spent_nil, add_zero] at balance
    exact (le_balanceOf_of_spendable positive covered).trans balance
  have held := reachable.holding_le_of_others next others innocent ran
  have accepted : keepsLocked chain.config block state tx tx.amount = true := by
    rw [keepsLocked]
    cases granted : chain.config.vesting.get? tx.sender with
    | none => rfl
    | some grant =>
        have older : grant.lockedAt block.index ≤ grant.lockedAt chain.head.index :=
          (reachable.grants_valid granted).lockedAt_antitone (by omega)
        have locked := lockedOf_le_of_spendable positive covered
        rw [lockedOf, granted] at locked
        have outflow : -(tx.amount + tx.fee) ≤ flow block tx tx.amount tx.sender := by
          rw [flow, if_pos rfl]
          split_ifs <;> omega
        simp only [Option.getD_none] at locked
        simp only [Bool.decide_or, Bool.or_eq_true, decide_eq_true_eq]
        omega
  obtain ⟨after, applied⟩ :=
    (applyTx_payment_iff notStake notUnstake notSlash notVote funded).mpr accepted
  refine ⟨⟨funded, fun other moved => ?_⟩, after, applied⟩
  exact (keepsLocked_iff (applyPayment_holding moved tx.sender)).mp accepted

end

end ProofOfStakeChain

/-! ## A slash before the payment -/

namespace SpendableSample

open ProofOfStakeChain

attribute [local instance] Symbolic.reading

def founder : Wallet := Symbolic.wallet 1

/-- A validator with 100 liquid and 50 staked units, 120 of them locked. -/
def holder : Wallet := Symbolic.wallet 2

def args : GenesisArgs where
  allocations :=
    (Dict.empty.set founder.address (MAX_SUPPLY_UNITS - 150)).set holder.address 150
  initialStakes := (Dict.empty.set founder.address 500).set holder.address 50
  vesting := Dict.empty.set holder.address [120, 0, 1000, 1000]
  treasuryAddress := some (Symbolic.wallet 3).address

/-- A block with a report and a payment, and the states around the report. -/
structure Scene where
  chain : ProofOfStakeChain
  report : Transaction
  payment : Transaction
  block : Block
  before : LedgerState
  state : LedgerState
  paid : LedgerState

/-- The holder seals two blocks of one height and is reported in the block that
carries its payment of all that it may spend. -/
def stage : Except Error Scene := do
  let chain ← init args
  let first ← sealBlock chain.head.hash 1 holder [] 0 0 0
  let second ← sealBlock chain.head.hash 1 holder [] 1 0 0
  let report ← slashTx founder first second 0 0 0
  let payment ← paymentTx holder founder.address 30 0 0 0
  let block ← sealBlock chain.head.hash 1 founder [report, payment] 1 0 0
  let before ← chain.applyPart block []
  let state ← chain.applyPart block [report]
  let paid ← applyPayment block state payment
  raiseIf (succeeded (enforceVesting chain.config payment.sender block.index paid) = true)
    Error.valueError
  pure { chain, report, payment, block, before, state, paid }

/-- What makes the payment one that the query promises. -/
def Promised (scene : Scene) : Prop :=
  scene.block.index = scene.chain.head.index + 1 ∧
    scene.report.sender ≠ scene.payment.sender ∧
    scene.payment.isValid = true ∧
    scene.chain.state.nonces.getD scene.payment.sender 0 = scene.payment.nonce ∧
    scene.payment.recipient ≠ STAKE_SENTINEL ∧ scene.payment.recipient ≠ UNSTAKE_SENTINEL ∧
    scene.payment.recipient ≠ SLASH_SENTINEL ∧ scene.payment.recipient ≠ VOTE_SENTINEL ∧
    scene.payment.amount + scene.payment.fee ≤ scene.chain.spendableOf scene.payment.sender

instance (scene : Scene) : Decidable (Promised scene) := inferInstanceAs (Decidable (_ ∧ _))

theorem staged : (stage.toOption.elim false fun scene => Promised scene) = true := by
  decide +kernel

theorem promised : ∃ scene, stage = .ok scene ∧ Promised scene := by
  have kept := staged
  cases ran : stage with
  | error raised =>
      rw [ran] at kept
      cases kept
  | ok scene =>
      rw [ran] at kept
      exact ⟨scene, rfl, of_decide_eq_true kept⟩

/-- Without the report the payment passes. -/
theorem spendable_accepted_first :
    ∃ scene, stage = .ok scene ∧
      PaymentPasses scene.chain.config scene.block scene.before scene.payment := by
  obtain ⟨scene, ran, next, _, valid, _, notStake, notUnstake, notSlash, notVote, covered⟩ :=
    promised
  refine ⟨scene, ran, ?_⟩
  simp only [stage, bind_eq_ok, raiseIf_eq_ok, exists_unit, pure_eq_ok] at ran
  obtain ⟨chain, initialised, _, _, _, _, _, _, payment, _, block, _, before, started, _, _, _, _,
    _, rfl⟩ := ran
  have units := Transaction.isValid.units valid
  exact (Reachable.spendable_accepted (.genesis initialised) next
    (by simp) (by simp) started (Transaction.isValid.amount_pos valid notSlash notVote) units.2.1
    notStake notUnstake notSlash notVote covered).1

/-- After the report the vesting rule stops it. -/
theorem slashed_before_spending :
    ¬∀ (args : GenesisArgs) (chain : ProofOfStakeChain) (block : Block)
      (earlier : List Transaction) (tx : Transaction) (state : LedgerState),
      Reachable args chain → block.index = chain.head.index + 1 →
      (∀ other ∈ earlier, other.sender ≠ tx.sender) →
      chain.applyPart block earlier = .ok state → tx.isValid = true →
      chain.state.nonces.getD tx.sender 0 = tx.nonce →
      tx.recipient ≠ STAKE_SENTINEL → tx.recipient ≠ UNSTAKE_SENTINEL →
      tx.recipient ≠ SLASH_SENTINEL → tx.recipient ≠ VOTE_SENTINEL →
      tx.amount + tx.fee ≤ chain.spendableOf tx.sender →
      PaymentPasses chain.config block state tx := by
  intro claim
  obtain ⟨scene, ran, next, other, valid, nonce, notStake, notUnstake, notSlash, notVote,
    covered⟩ := promised
  simp only [stage, bind_eq_ok, raiseIf_eq_ok, exists_unit, pure_eq_ok] at ran
  obtain ⟨chain, initialised, _, _, _, _, report, _, payment, _, block, _, _, _, state, reached,
    paid, moved, stopped, rfl⟩ := ran
  have passes := claim _ _ _ [report] _ _ (.genesis initialised) next (by simpa using other)
    reached valid nonce notStake notUnstake notSlash notVote covered
  rw [passes.2 paid moved] at stopped
  exact stopped rfl

end SpendableSample

end Mindees
