import Mindees.Consensus.Exceptions
import Mindees.Node.Acceptance

/-!
# The balance model of selection

Selection follows the liquid balance of each sender on its own, by what its
transactions cost.  The chain interleaves all senders, pays fees and shares out
slashes, and never leaves a sender less than selection counted on.  So no
selected transaction is rejected for its nonce, as a duplicate or for funds.
-/

namespace Mindees

open Library

namespace Mempool

/-- A pool that admissions and prunings have led to. -/
inductive Kept [Primitives] : Mempool → Prop
  | init : Kept init
  | add {mempool after : Mempool} {tx : Transaction} {chain : ProofOfStakeChain} {new : Bool} :
      Kept mempool → mempool.add tx chain = .ok (new, after) → Kept after
  | update {mempool : Mempool} (chain : ProofOfStakeChain) :
      Kept mempool → Kept (mempool.update chain)

theorem Kept.sound
    [Primitives]
    {mempool : Mempool}
    (kept : mempool.Kept) :
    mempool.Sound := by
  induction kept with
  | init => exact sound_init
  | add _ added inductionHypothesis => exact inductionHypothesis.add added
  | update chain _ inductionHypothesis => exact inductionHypothesis.update chain

/-- The balance that selection has in hand for a sender once it has taken some
transactions. -/
def simulatedBalance
    (chain : ProofOfStakeChain)
    (taken : List Transaction)
    (sender : Str) : Int :=
  chain.balanceOf sender + spent chain.config.unbondingBlocks (ofSender sender taken)

end Mempool

/-! ## What stops a funded transaction -/

section

variable [Primitives] {config : Config} {block : Block} {justifiedParent : Finset Str}
  {state : LedgerState} {tx : Transaction}

/-- A transaction whose sender has what it costs is not rejected for funds. -/
theorem raises_applyTx_of_funded
    (funded : (cost tx config.unbondingBlocks).1 ≤ state.balances.getD tx.sender 0) :
    Raises (fun error => ¬error.Avoidable) (applyTx config block justifiedParent state tx) := by
  have plain : ∀ error : Error, error.Plain → ¬error.Avoidable := fun _ raised => raised.2
  have vesting : ∀ after, Raises (fun error => ¬error.Avoidable)
      (enforceVesting config tx.sender block.index after) :=
    fun after => (raises_enforceVesting _ _ _ after).mono plain
  have fees : Raises (fun error => ¬error.Avoidable) (payFee block state tx) :=
    (raises_payFee block state tx).mono plain
  have stake (named : tx.recipient = STAKE_SENTINEL) :
      Raises (fun error => ¬error.Avoidable) (applyStake block state tx) := by
    rw [cost_stake _ named] at funded
    simp [applyStake, rejectIf, not_lt.mpr funded, (raises_addItem _ _ _).mono plain]
  have unstake (named : tx.recipient = UNSTAKE_SENTINEL) :
      Raises (fun error => ¬error.Avoidable) (applyUnstake config block state tx) := by
    rw [cost_unstake _ named] at funded
    have stakeless : ¬(Error.validation
        s!"insufficient stake to withdraw for {text tx.sender}").Avoidable := by
      simp [Error.Avoidable, Error.Opens, toString]
    simp [applyUnstake, rejectIf, not_lt.mpr funded, (raises_addItem _ _ _).mono plain,
      (raises_withdrawStake _ _ _).mono plain, stakeless]
  have slash (named : tx.recipient = SLASH_SENTINEL) :
      Raises (fun error => ¬error.Avoidable) (applySlash config block state tx) := by
    rw [cost_special _ (.inl named)] at funded
    have empty : ¬(Error.validation "slash tx carries no evidence").Avoidable := by
      simp [Error.Avoidable, Error.Opens]
    have unset :
        ¬(Error.validation "chain has no treasury address for slashing").Avoidable := by
      simp [Error.Avoidable, Error.Opens]
    have repeated : ¬(Error.validation "offense already slashed").Avoidable := by
      simp [Error.Avoidable, Error.Opens]
    simp [applySlash, rejectIf, not_lt.mpr funded, (raises_slashOffense _).mono plain, fees,
      empty, unset, repeated]
  have vote (named : tx.recipient = VOTE_SENTINEL) :
      Raises (fun error => ¬error.Avoidable)
        (applyVote config block justifiedParent state tx) := by
    rw [cost_special _ (.inr named)] at funded
    simp [applyVote, rejectIf, not_lt.mpr funded, (raises_voteLink _).mono plain,
      (raises_checkVote _ _ _ _ _).mono plain, fees]
  have payment (notUnstake : tx.recipient ≠ UNSTAKE_SENTINEL)
      (notSlash : tx.recipient ≠ SLASH_SENTINEL) (notVote : tx.recipient ≠ VOTE_SENTINEL) :
      Raises (fun error => ¬error.Avoidable) (applyPayment block state tx) := by
    rw [cost_payment _ notUnstake notSlash notVote] at funded
    simp [applyPayment, rejectIf, not_lt.mpr funded]
  rw [applyTx]
  split_ifs with isStake isUnstake isSlash isVote
  · simp [stake isStake, vesting]
  · simp [unstake isUnstake, vesting]
  · exact slash isSlash
  · exact vote isVote
  · simp [payment isUnstake isSlash isVote, vesting]

namespace ProofOfStakeChain

variable {args : GenesisArgs} {chain : ProofOfStakeChain} {mempool : Mempool} {maxCount : Nat}
  {earlier later : List Transaction}

/-- Folding the transactions that selection took first, without the checks that
precede each of them, keeps to the model. -/
theorem tracks_of_selected
    (sound : mempool.Sound)
    (healthy : Healthy chain.head.index chain.state)
    (next : block.index = chain.head.index + 1)
    (selected : mempool.select chain maxCount = earlier ++ later)
    (ran : earlier.foldlM (applyTx chain.config block chain.state.justified)
      (chain.stateBefore block) = .ok state) :
    Tracks chain block earlier state := by
  induction earlier using List.reverseRecOn generalizing later state with
  | nil =>
      cases ran
      exact tracks_start healthy next
  | append_singleton earlier last inductionHypothesis =>
      obtain ⟨before, reached, stepped⟩ := (foldlM_concat_eq_ok _ _ _ _).mp ran
      rw [List.append_assoc, List.singleton_append] at selected
      have tracks := inductionHypothesis selected reached
      have valid : last.isValid = true :=
        Mempool.select_valid sound (by rw [selected]; simp)
      have nonce : before.nonces.getD last.sender 0 = last.nonce := by
        rw [tracks.nonces last.sender]
        exact (Mempool.select_next selected).1.symm
      exact tracks.step valid nonce ((applyTx_eq_ok _ _ _ _ _ _).mp stepped)

/-- Wherever selection puts a transaction, the chain has its nonce next and the
sender has what selection counted on; so nothing it selects is rejected for its
nonce, as a duplicate or for missing funds. -/
theorem Reachable.select_simulates
    (reachable : Reachable args chain)
    (kept : mempool.Kept)
    (next : block.index = chain.head.index + 1)
    (selected : mempool.select chain maxCount = earlier ++ tx :: later)
    (ran : earlier.foldlM (applyTx chain.config block chain.state.justified)
      (chain.stateBefore block) = .ok state) :
    state.nonces.getD tx.sender 0 = tx.nonce ∧
      Mempool.simulatedBalance chain earlier tx.sender ≤ state.balances.getD tx.sender 0 ∧
      (cost tx chain.config.unbondingBlocks).1 ≤
        Mempool.simulatedBalance chain earlier tx.sender ∧
      tx.txid ∉ earlier.map Transaction.txid ∧
      ∀ seen ⊆ earlier.map Transaction.txid,
        Raises (fun error => ¬error.Avoidable)
          (applyNext chain.config block chain.state.justified (seen, state) tx) := by
  have sound := kept.sound
  have tracks := tracks_of_selected sound reachable.healthy next selected ran
  have nonce : state.nonces.getD tx.sender 0 = tx.nonce := by
    rw [tracks.nonces tx.sender]
    exact (Mempool.select_next selected).1.symm
  have balance := tracks.balances tx.sender
  have affordable := (Mempool.select_next selected).2
  have fresh := Mempool.select_fresh sound selected
  refine ⟨nonce, balance, affordable, fresh, fun seen part => ?_⟩
  have new : tx.txid ∉ seen := fun repeated => fresh (part repeated)
  have applied : Raises (fun error => ¬error.Avoidable)
      (applyTx chain.config block chain.state.justified state tx) :=
    raises_applyTx_of_funded (affordable.trans balance)
  have valid : tx.isValid = true := Mempool.select_valid sound (by rw [selected]; simp)
  simp [applyNext, rejectIf, new, nonce, applied, valid]

end ProofOfStakeChain

end

/-! ## Two senders -/

namespace BalanceSample

open ProofOfStakeChain Mempool

attribute [local instance] Symbolic.primitives

/-- A pool, what selection makes of it, and the state before its last choice. -/
structure Scene where
  chain : ProofOfStakeChain
  mempool : Mempool
  block : Block
  withdrawal : Transaction
  spending : Transaction
  transfer : Transaction
  state : LedgerState

/-- A validator withdraws stake and pays, and another address pays it in
between. -/
def stage : Except Error Scene := do
  let chain ← init Sample.args
  let validator := Symbolic.wallet 1
  let other := Symbolic.wallet 2
  let withdrawal ← unstakeTx validator 100 2 0 0
  let spending ← paymentTx validator other.address 70 1 1 0
  let transfer ← paymentTx other validator.address 10 2 0 0
  let (_, one) ← Mempool.init.add withdrawal chain
  let (_, two) ← one.add spending chain
  let (_, mempool) ← two.add transfer chain
  let block ← sealBlock chain.head.hash 1 validator (mempool.select chain) 0 0 0
  let state ← [withdrawal, transfer].foldlM
    (applyTx chain.config block chain.state.justified) (chain.stateBefore block)
  raiseIf (mempool.select chain ≠ [withdrawal, transfer] ++ spending :: [] ∨
    block.index ≠ chain.head.index + 1) Error.valueError
  pure { chain, mempool, block, withdrawal, spending, transfer, state }

theorem staged : succeeded stage = true := by decide +kernel

theorem select_simulates_pair :
    ∃ scene, stage = .ok scene ∧
      simulatedBalance scene.chain [scene.withdrawal, scene.transfer] scene.spending.sender ≤
        scene.state.balances.getD scene.spending.sender 0 := by
  obtain ⟨scene, ran⟩ := (succeeded_iff stage).mp staged
  refine ⟨scene, ran, ?_⟩
  simp only [stage, bind_eq_ok, raiseIf_eq_ok, exists_unit, pure_eq_ok, not_or, not_not] at ran
  obtain ⟨chain, initialised, withdrawal, _, spending, _, transfer, _, one, first, two, second,
    mempool, third, block, _, state, folded, ⟨selected, next⟩, rfl⟩ := ran
  have kept : Kept mempool.2 := ((Kept.init.add first).add second).add third
  exact (Reachable.select_simulates (.genesis initialised) kept next selected folded).2.1

end BalanceSample

end Mindees
