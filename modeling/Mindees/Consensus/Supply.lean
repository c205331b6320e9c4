import Mathlib.Algebra.Order.BigOperators.Group.List
import Mindees.Consensus.Money
import Mindees.Consensus.Produce

/-!
# The ledger invariant

No reachable ledger holds a negative balance, an empty stake or a matured
unbonding entry, and every operation conserves the sum of all coins by itself,
so that the supply check never rejects a block.
-/

namespace Mindees

open Library

/-- A ledger at a height: balances are non-negative, recorded stakes positive,
and unbonding entries positive, bonded by now and released later. -/
structure Healthy (height : Int) (state : LedgerState) : Prop where
  balances : ∀ address, 0 ≤ state.balances.getD address 0
  stakes : ∀ address amount, state.stakes.get? address = some amount → 0 < amount
  queues : ∀ address, ∀ entry ∈ state.unbonding.getD address [],
    0 < entry.amount ∧ entry.bondHeight ≤ height ∧ height < entry.releaseHeight

namespace Healthy

variable {height : Int} {state : LedgerState}

theorem stake_nonneg
    (healthy : Healthy height state)
    (address : Str) :
    0 ≤ state.stakes.getD address 0 := by
  rw [Dict.getD]
  cases found : state.stakes.get? address with
  | none => exact le_rfl
  | some amount => exact (healthy.stakes address amount found).le

theorem unbonding_nonneg
    (healthy : Healthy height state)
    (address : Str) :
    0 ≤ state.unbondingOf address := by
  refine List.sum_nonneg fun amount inside => ?_
  obtain ⟨entry, present, rfl⟩ := List.mem_map.mp inside
  exact (healthy.queues address entry present).1.le

theorem bonded_nonneg
    (healthy : Healthy height state)
    (address : Str) :
    0 ≤ state.bondedOf address :=
  add_nonneg (healthy.stake_nonneg address) (healthy.unbonding_nonneg address)

/-- Maturing at a later height leaves entries that are released after it. -/
theorem matureUnbonding
    {before : Int}
    (healthy : Healthy before state)
    (later : before ≤ height) :
    Healthy height (matureUnbonding height state) where
  balances address := by
    have due : 0 ≤ released height (state.unbonding.getD address []) := by
      refine List.sum_nonneg fun amount inside => ?_
      obtain ⟨entry, present, rfl⟩ := List.mem_map.mp inside
      exact (healthy.queues address entry (List.mem_of_mem_filter present)).1.le
    rw [getD_balances_matureUnbonding]
    exact add_nonneg (healthy.balances address) due
  stakes := healthy.stakes
  queues address entry present := by
    rw [getD_unbonding_matureUnbonding, stillBonded, List.mem_filter] at present
    obtain ⟨positive, bonded, _⟩ := healthy.queues address entry present.1
    exact ⟨positive, bonded.trans later, by simpa using present.2⟩

/-- Only the ledger part of a state matters. -/
theorem congr
    {other : LedgerState}
    (healthy : Healthy height state)
    (balances : other.balances = state.balances)
    (stakes : other.stakes = state.stakes)
    (unbonding : other.unbonding = state.unbonding) :
    Healthy height other where
  balances := balances ▸ healthy.balances
  stakes := stakes ▸ healthy.stakes
  queues := unbonding ▸ healthy.queues

/-! ## Operations -/

variable {block : Block} {after : LedgerState} {tx : Transaction}

theorem payFee
    (healthy : Healthy height state)
    (fee : 0 ≤ tx.fee)
    (funded : tx.fee ≤ state.balances.getD tx.sender 0)
    (paid : payFee block state tx = .ok after) :
    Healthy height after := by
  obtain ⟨_, rfl⟩ := (payFee_eq_ok block state after tx).mp paid
  refine ⟨fun address => ?_, healthy.stakes, healthy.queues⟩
  have old := healthy.balances address
  simp only [getD_credit]
  split_ifs with sender <;> (try subst sender) <;> omega

theorem applyPayment
    (healthy : Healthy height state)
    (amount : 0 ≤ tx.amount)
    (fee : 0 ≤ tx.fee)
    (moved : applyPayment block state tx = .ok after) :
    Healthy height after := by
  obtain ⟨funded, rfl⟩ := (applyPayment_eq_ok block state after tx).mp moved
  refine ⟨fun address => ?_, healthy.stakes, healthy.queues⟩
  have old := healthy.balances address
  simp only [getD_credit]
  split_ifs with sender <;> (try subst sender) <;> omega

theorem applyStake
    (healthy : Healthy height state)
    (amount : 0 < tx.amount)
    (fee : 0 ≤ tx.fee)
    (moved : applyStake block state tx = .ok after) :
    Healthy height after := by
  obtain ⟨funded, _, rfl⟩ := (applyStake_eq_ok block state after tx).mp moved
  refine ⟨fun address => ?_, fun address value found => ?_, healthy.queues⟩
  · have old := healthy.balances address
    simp only [getD_credit]
    split_ifs with sender <;> (try subst sender) <;> omega
  · simp only [get?_credit] at found
    split_ifs at found
    · have old := healthy.stake_nonneg tx.sender
      cases found
      omega
    · exact healthy.stakes address value found

theorem applyUnstake
    {config : Config}
    (healthy : Healthy block.index state)
    (amount : 0 < tx.amount)
    (fee : 0 ≤ tx.fee)
    (moved : applyUnstake config block state tx = .ok after) :
    Healthy block.index after := by
  obtain ⟨funded, staked, _, stakes, withdrawn, rfl⟩ :=
    (applyUnstake_eq_ok config block state after tx).mp moved
  refine ⟨fun address => ?_, fun address value found => ?_, fun address entry present => ?_⟩
  · have old := healthy.balances address
    simp only [getD_credit]
    split_ifs <;> simp only [getD_credit] <;> split_ifs with sender <;>
      (try subst sender) <;> omega
  · rcases withdrawStake_get? withdrawn found with ⟨_, kept⟩ | ⟨_, left, nonzero⟩
    · exact healthy.stakes address value kept
    · omega
  · simp only [getD_unstakedQueues, List.mem_append] at present
    rcases present with old | new
    · exact healthy.queues address entry old
    · split_ifs at new with delayed
      · rw [List.mem_singleton] at new
        subst new
        exact ⟨amount, le_rfl, by simpa using delayed.1⟩
      · cases new

theorem applyVote
    [Primitives]
    {config : Config}
    {justifiedParent : Finset Str}
    (healthy : Healthy height state)
    (fee : 0 ≤ tx.fee)
    (moved : applyVote config block justifiedParent state tx = .ok after) :
    Healthy height after := by
  obtain ⟨link, _, _, funded, paid, charged, rfl⟩ :=
    (applyVote_eq_ok config block justifiedParent state after tx).mp moved
  exact (healthy.payFee fee funded charged).congr (by simp) (by simp) (by simp)

theorem punished
    (healthy : Healthy height state)
    (treasury reporter offender : Str) :
    Healthy height (punished treasury reporter offender state) := by
  refine ⟨fun address => ?_, fun address value found => ?_, fun address entry present => ?_⟩
  · have old := healthy.balances address
    have shares := reporterShare_bounds (healthy.bonded_nonneg offender)
    simp only [Mindees.punished, getD_redistribute]
    split_ifs <;> omega
  · simp only [Mindees.punished, confiscate, Dict.get?_erase] at found
    split_ifs at found
    exact healthy.stakes address value found
  · simp only [Mindees.punished, confiscate, Dict.getD_erase] at present
    split_ifs at present
    · cases present
    · exact healthy.queues address entry present

theorem applySlash
    [Primitives]
    {config : Config}
    (healthy : Healthy height state)
    (fee : 0 ≤ tx.fee)
    (moved : applySlash config block state tx = .ok after) :
    Healthy height after := by
  obtain ⟨_, treasury, _, offender, offense, _, _, funded, paid, charged, rfl⟩ :=
    (applySlash_eq_ok config block state after tx).mp moved
  exact ((healthy.payFee fee funded charged).punished treasury tx.sender offender).congr
    rfl rfl rfl

/-- Amounts that are no less than zero, and more than zero where coins move, keep the
ledger healthy. -/
theorem applied_of_units
    [Primitives]
    {config : Config}
    {justifiedParent : Finset Str}
    (healthy : Healthy block.index state)
    (units : 0 ≤ tx.amount ∧ 0 ≤ tx.fee)
    (positive : tx.recipient ≠ SLASH_SENTINEL → tx.recipient ≠ VOTE_SENTINEL → 0 < tx.amount)
    (applied : Applied config block justifiedParent state tx after) :
    Healthy block.index after := by
  obtain ⟨amount, fee⟩ := units
  cases applied with
  | stake named moved _ =>
      exact healthy.applyStake (positive (by rw [named]; decide) (by rw [named]; decide)) fee moved
  | unstake named moved _ =>
      exact healthy.applyUnstake (positive (by rw [named]; decide) (by rw [named]; decide)) fee
        moved
  | slash _ moved => exact healthy.applySlash fee moved
  | vote _ moved => exact healthy.applyVote fee moved
  | payment _ _ _ _ moved _ => exact healthy.applyPayment amount fee moved

/-- Every valid transaction keeps the ledger healthy at the height of its
block. -/
theorem applied
    [Primitives]
    {config : Config}
    {justifiedParent : Finset Str}
    (healthy : Healthy block.index state)
    (valid : tx.isValid = true)
    (applied : Applied config block justifiedParent state tx after) :
    Healthy block.index after := by
  obtain ⟨amount, fee, _⟩ := Transaction.isValid.units valid
  exact healthy.applied_of_units ⟨amount, fee⟩ (Transaction.isValid.amount_pos valid) applied

end Healthy

/-! ## Genesis -/

/-- Moving initial stakes out of the balances. -/
theorem foldlM_addInitialStake
    {allocations balances stakes : Dict Str Int}
    {entries : List (Str × Int)}
    (nonneg : ∀ address, 0 ≤ allocations.getD address 0)
    (ran : entries.foldlM addInitialStake (allocations, Dict.empty) = .ok (balances, stakes)) :
    (∀ address, 0 ≤ balances.getD address 0) ∧
    (∀ address amount, stakes.get? address = some amount → 0 < amount) ∧
    total balances + total stakes = total allocations := by
  let invariant : Dict Str Int × Dict Str Int → Prop := fun progress =>
    (∀ address, 0 ≤ progress.1.getD address 0) ∧
    (∀ address amount, progress.2.get? address = some amount → 0 < amount) ∧
    total progress.1 + total progress.2 = total allocations
  refine foldlM_invariant invariant ?_ ⟨nonneg, ?_, ?_⟩ ran
  · rintro ⟨address, amount⟩ _ ⟨balances, stakes⟩ ⟨balances', stakes'⟩ ⟨rich, staked, sum⟩ stepped
    simp only [addInitialStake, rejectIf, bind_eq_ok, raiseIf_eq_ok, addItem_eq_ok, pure_eq_ok,
      Prod.mk.injEq, exists_unit, exists_and_left, and_assoc, exists_eq_left'] at stepped
    obtain ⟨positive, covered, _, rfl, rfl⟩ := stepped
    rw [not_or, Bool.not_eq_false, isUnits_iff] at positive
    refine ⟨fun other => ?_, fun other value found => ?_, ?_⟩
    · have old : 0 ≤ balances.getD other 0 := rich other
      simp only [getD_credit]
      split_ifs with same
      · subst same
        omega
      · omega
    · simp only [get?_credit] at found
      split_ifs at found
      · have old : 0 ≤ stakes.getD address 0 := by
          rw [Dict.getD]
          cases recorded : stakes.get? address with
          | none => exact le_rfl
          | some value => exact (staked address value recorded).le
        cases found
        omega
      · exact staked other value found
    · simp only [total_credit] at sum ⊢
      omega
  · intro address amount found
    cases found
  · simp [total]

/-- Opening an empty account for the treasury changes no balance. -/
theorem getD_withTreasury
    (treasury : Option Str)
    (balances : Dict Str Int)
    (address : Str) :
    (withTreasury treasury balances).getD address 0 = balances.getD address 0 := by
  cases treasury with
  | none => rfl
  | some treasury =>
      simp only [withTreasury, Dict.getD, Dict.get?_setDefault]
      split_ifs with fresh
      · obtain ⟨rfl, absent⟩ := fresh
        rw [Dict.contains, Option.isSome_eq_false_iff, Option.isNone_iff_eq_none] at absent
        rw [absent]
        rfl
      · rfl

theorem total_withTreasury
    (treasury : Option Str)
    (balances : Dict Str Int) :
    total (withTreasury treasury balances) = total balances := by
  cases treasury with
  | none => rfl
  | some treasury =>
      simp only [withTreasury, Dict.setDefault]
      split_ifs with present
      · rfl
      · rw [Dict.contains, Bool.not_eq_true, Option.isSome_eq_false_iff,
          Option.isNone_iff_eq_none] at present
        rw [total, Dict.sumBy_set, Dict.quantityAt, present, total]
        simp

/-- Genesis allocations are non-negative and sum to the cap. -/
theorem checkAllocations_eq_ok
    {allocations : Dict Str Int}
    (checked : checkAllocations allocations = .ok ()) :
    (∀ address, 0 ≤ allocations.getD address 0) ∧ total allocations = MAX_SUPPLY_UNITS := by
  simp only [checkAllocations, rejectIf, bind_eq_ok, raiseIf_eq_ok, exists_unit,
    Bool.not_eq_false, List.all_eq_true, isUnits_iff, not_not] at checked
  obtain ⟨units, capped, _⟩ := checked
  refine ⟨fun address => ?_, capped⟩
  rw [Dict.getD]
  cases found : allocations.get? address with
  | none => exact le_rfl
  | some amount => exact units amount ((allocations.mem_values_iff amount).mpr ⟨address, found⟩)

section

variable [Primitives] {args : GenesisArgs} {chain : ProofOfStakeChain}

namespace ProofOfStakeChain

theorem init_healthy
    (initialised : init args = .ok chain) :
    Healthy chain.head.index chain.state ∧ chain.state.totalSupply = MAX_SUPPLY_UNITS := by
  obtain ⟨checked, balances, stakes, moved, _, _, _, state, _⟩ :=
    (init_eq_ok args chain).mp initialised
  obtain ⟨nonneg, capped⟩ := checkAllocations_eq_ok checked
  obtain ⟨rich, staked, sum⟩ := foldlM_addInitialStake nonneg moved
  rw [state]
  refine ⟨⟨fun address => ?_, staked, fun address entry present => ?_⟩, ?_⟩
  · exact (getD_withTreasury _ balances address).symm ▸ rich address
  · cases present
  · simp only [LedgerState.totalSupply, genesisState, total_withTreasury, unbondingGrandTotal,
      Dict.sumBy_empty]
    omega

/-- The hook before the transactions leads to the height of the block. -/
theorem applyBlockPre_healthy
    {block : Block}
    (healthy : Healthy chain.head.index chain.state)
    (next : block.index = chain.head.index + 1) :
    Healthy block.index (applyBlockPre chain.config block chain.state) := by
  have later : chain.head.index ≤ block.index := by omega
  have matured := healthy.matureUnbonding later
  exact matured.congr (by rw [applyBlockPre_eq]) (by rw [applyBlockPre_eq])
    (by rw [applyBlockPre_eq])

/-- The transactions of a block keep the ledger healthy at its height. -/
theorem applyChecked_healthy
    {block : Block}
    {after : LedgerState}
    (healthy : Healthy chain.head.index chain.state)
    (checked : chain.applyChecked block = .ok after) :
    Healthy block.index after := by
  obtain ⟨_, next, _, _, applied⟩ := (applyChecked_eq_ok chain block after).mp checked
  exact applyTxs_invariant (Healthy block.index)
    (fun tx _ before after healthy valid _ applied => healthy.applied valid applied)
    (applyBlockPre_healthy healthy next) applied

theorem applyChecked_totalSupply
    {block : Block}
    {after : LedgerState}
    (checked : chain.applyChecked block = .ok after) :
    after.totalSupply = chain.state.totalSupply := by
  obtain ⟨_, _, _, _, applied⟩ := (applyChecked_eq_ok chain block after).mp checked
  rw [applyTxs_totalSupply applied, totalSupply_applyBlockPre]

/-- Reachable ledgers are healthy at the height of the head. -/
theorem Reachable.healthy
    (reachable : Reachable args chain) :
    Healthy chain.head.index chain.state := by
  induction reachable with
  | genesis initialised => exact (init_healthy initialised).1
  | block _ submitted inductionHypothesis =>
      rw [head_submitBlock submitted]
      obtain ⟨applied, _⟩ := (submitBlock_eq_ok _ _ _).mp submitted
      exact applyChecked_healthy inductionHypothesis ((apply_eq_ok _ _ _).mp applied).1

theorem Reachable.totalSupply_eq
    (reachable : Reachable args chain) :
    chain.state.totalSupply = MAX_SUPPLY_UNITS := by
  cases reachable with
  | genesis initialised => exact (init_healthy initialised).2
  | block _ submitted =>
      obtain ⟨applied, _⟩ := (submitBlock_eq_ok _ _ _).mp submitted
      exact ((apply_eq_ok _ _ _).mp applied).2

/-- In every reachable state the balances are non-negative, the recorded stakes
positive and the unbonding entries positive, bonded by now and released later;
the coins sum to the cap; each step of a block conserves the sum by itself; and
the supply check changes the outcome of no block. -/
theorem Reachable.ledger_invariant
    (reachable : Reachable args chain) :
    (∀ address, 0 ≤ chain.state.balances.getD address 0) ∧
    (∀ address amount, chain.state.stakes.get? address = some amount → 0 < amount) ∧
    (∀ address queue, chain.state.unbonding.get? address = some queue → ∀ entry ∈ queue,
      0 < entry.amount ∧ entry.bondHeight ≤ chain.head.index ∧
        chain.head.index < entry.releaseHeight) ∧
    chain.state.totalSupply = MAX_SUPPLY_UNITS ∧
    (∀ block, (applyBlockPre chain.config block chain.state).totalSupply =
      chain.state.totalSupply) ∧
    (∀ block justifiedParent before after tx,
      applyTx chain.config block justifiedParent before tx = .ok after →
      after.totalSupply = before.totalSupply) ∧
    (∀ block after, chain.applyChecked block = .ok after → checkSupply after = .ok ()) ∧
    ∀ block, chain.apply block = chain.applyChecked block := by
  have healthy := reachable.healthy
  have supply := reachable.totalSupply_eq
  have passes : ∀ block after,
      chain.applyChecked block = .ok after → checkSupply after = .ok () := by
    intro block after checked
    have conserved := (applyChecked_totalSupply checked).trans supply
    rw [checkSupply, raiseIf_eq_ok, not_not, conserved]
  refine ⟨healthy.balances, healthy.stakes, fun address queue found => ?_, supply,
    fun block => totalSupply_applyBlockPre chain.config block chain.state,
    fun block justifiedParent before after tx applied => ?_, passes, fun block => ?_⟩
  · have queued := healthy.queues address
    rwa [Dict.getD_eq_of_get? found] at queued
  · exact ((applyTx_eq_ok _ _ _ _ _ _).mp applied).totalSupply
  · rw [apply]
    cases checked : chain.applyChecked block with
    | error error => rfl
    | ok after =>
        change (checkSupply after >>= fun _ => pure after) = .ok after
        rw [passes block after checked]
        rfl

end ProofOfStakeChain

end

/-! ## A run -/

namespace Sample

open ProofOfStakeChain

attribute [local instance] Symbolic.primitives

/-- Two wallets that anyone can recompute. -/
def keyring : List Wallet := [Symbolic.wallet 1, Symbolic.wallet 2]

/-- Two founders, one of them staked. -/
def args : GenesisArgs where
  allocations :=
    (Dict.empty.set (Symbolic.wallet 1).address (MAX_SUPPLY_UNITS - 1000)).set
      (Symbolic.wallet 2).address 1000
  initialStakes := Dict.empty.set (Symbolic.wallet 1).address 500
  unbondingBlocks := 2

/-- A payment next to a stake, then an unstake. -/
def rounds : List (List Draft) :=
  [[.pay 0 1 70 3, .stake 1 200 1], [.unstake 0 100 0]]

theorem played : succeeded (play keyring args rounds) = true := by decide +kernel

/-- The chain after the rounds. -/
def chain : ProofOfStakeChain := outcome (play keyring args rounds) played

theorem reachable : Reachable args chain := play_reachable (eq_ok_outcome _ played)

/-- The invariant on a chain that holds liquid, staked and unbonding coins. -/
theorem ledger_invariant_sample :
    chain.state.totalSupply = MAX_SUPPLY_UNITS ∧
    ∀ block, chain.apply block = chain.applyChecked block := by
  obtain ⟨_, _, _, supply, _, _, _, unreachable⟩ := reachable.ledger_invariant
  exact ⟨supply, unreachable⟩

end Sample

end Mindees
