import Mindees.Consensus.Effects

/-!
# Where the coins go

The effect of every operation on the total supply and on the holding of each
address, for all ways in which sender, recipient, proposer, reporter, offender
and treasury can coincide.
-/

namespace Mindees

open Library

/-! ## Fields that votes leave alone -/

section

variable (config : Config) (state : LedgerState) (voter : Str) (link : Link)

@[simp] theorem recordVote_balances :
    (recordVote state voter link).balances = state.balances := rfl

@[simp] theorem recordVote_stakes :
    (recordVote state voter link).stakes = state.stakes := rfl

@[simp] theorem recordVote_unbonding :
    (recordVote state voter link).unbonding = state.unbonding := rfl

/-- A tally touches nothing but the justified and the finalized checkpoints. -/
theorem tallyLink_frame :
    ∃ justified finalized, tallyLink config state link = { state with justified, finalized } := by
  by_cases reached : isSupermajority
      (votedStake (state.ffgStake.getD link.source Dict.empty)
        (state.ffgVotes.getD (link.source, link.target) ∅) state.slashedAddrs)
      (activeStake (state.ffgStake.getD link.source Dict.empty) state.slashedAddrs) = true
  · exact ⟨_, _, if_pos reached⟩
  · exact ⟨state.justified, state.finalized, if_neg reached⟩

@[simp] theorem tallyLink_balances :
    (tallyLink config state link).balances = state.balances := by
  obtain ⟨_, _, frame⟩ := tallyLink_frame config state link
  rw [frame]

@[simp] theorem tallyLink_stakes :
    (tallyLink config state link).stakes = state.stakes := by
  obtain ⟨_, _, frame⟩ := tallyLink_frame config state link
  rw [frame]

@[simp] theorem tallyLink_unbonding :
    (tallyLink config state link).unbonding = state.unbonding := by
  obtain ⟨_, _, frame⟩ := tallyLink_frame config state link
  rw [frame]

end

/-! ## Withdrawals and confiscations -/

/-- What a withdrawal does to each stake and to their sum. -/
theorem withdrawStake_spec
    {stakes after : Dict Str Int}
    {sender : Str}
    {amount : Int}
    (withdrawn : withdrawStake stakes sender amount = .ok after) :
    (∀ address, after.getD address 0 =
      stakes.getD address 0 + if sender = address then -amount else 0) ∧
    total after = total stakes - amount := by
  obtain ⟨_, _, rfl⟩ := (withdrawStake_eq_ok stakes after sender amount).mp withdrawn
  split_ifs with emptied
  · refine ⟨fun address => ?_, ?_⟩
    · rw [Dict.getD_erase, ← getD_credit]
      split_ifs with same
      · rw [← same, emptied]
      · rfl
    · rw [total_erase, total_credit, emptied]
      omega
  · refine ⟨fun address => getD_credit stakes sender address (-amount), ?_⟩
    rw [total_credit]
    omega

/-- A stake recorded after a withdrawal was recorded before, or is what the
withdrawal left of it. -/
theorem withdrawStake_get?
    {stakes after : Dict Str Int}
    {sender address : Str}
    {amount value : Int}
    (withdrawn : withdrawStake stakes sender amount = .ok after)
    (found : after.get? address = some value) :
    (sender ≠ address ∧ stakes.get? address = some value) ∨
      (sender = address ∧ value = stakes.getD sender 0 - amount ∧ value ≠ 0) := by
  obtain ⟨_, _, rfl⟩ := (withdrawStake_eq_ok stakes after sender amount).mp withdrawn
  split_ifs at found with emptied
  · rw [Dict.get?_erase] at found
    split_ifs at found with same
    rw [get?_credit, if_neg same] at found
    exact .inl ⟨same, found⟩
  · rw [get?_credit] at found
    split_ifs at found with same
    · refine .inr ⟨same, ?_, ?_⟩
      · cases found
        omega
      · rw [getD_credit, if_pos rfl] at emptied
        cases found
        exact emptied
    · exact .inl ⟨same, found⟩

/-- The entry of an unstake joins the queue of its sender. -/
theorem getD_unstakedQueues
    (config : Config)
    (block : Block)
    (unbonding : Dict Str (List Unbonding))
    (tx : Transaction)
    (address : Str) :
    (unstakedQueues config block unbonding tx).getD address [] =
      unbonding.getD address [] ++
        if 0 < config.unbondingBlocks ∧ tx.sender = address then
          [⟨tx.amount, block.index, block.index + config.unbondingBlocks⟩]
        else [] := by
  rw [unstakedQueues]
  by_cases delayed : 0 < config.unbondingBlocks
  · rw [if_pos delayed, Dict.getD_set]
    by_cases same : tx.sender = address <;> simp [delayed, same]
  · simp [delayed]

theorem unbondingGrandTotal_unstakedQueues
    (config : Config)
    (block : Block)
    (unbonding : Dict Str (List Unbonding))
    (tx : Transaction) :
    unbondingGrandTotal (unstakedQueues config block unbonding tx) =
      unbondingGrandTotal unbonding + (tx.amount - instantReturn config tx) := by
  rw [unstakedQueues, instantReturn]
  split_ifs
  · rw [unbondingGrandTotal_set, queueTotal_append]
    simp only [queueTotal, List.map_cons, List.map_nil, List.sum_cons, List.sum_nil]
    omega
  · omega

/-- The beneficiary of the reporter's share. -/
def beneficiary (treasury reporter offender : Str) : Str :=
  if reporter ≠ offender then reporter else treasury

/-- The reporter's share of a confiscated amount. -/
def reporterShare (bonded : Int) : Int := bonded * REPORTER_BPS / 10000

@[simp] theorem total_redistribute
    (treasury reporter offender : Str)
    (bonded : Int)
    (balances : Dict Str Int) :
    total (redistribute treasury reporter offender bonded balances) =
      total balances + bonded := by
  rw [redistribute, total_credit, total_credit]
  omega

theorem getD_redistribute
    (treasury reporter offender address : Str)
    (bonded : Int)
    (balances : Dict Str Int) :
    (redistribute treasury reporter offender bonded balances).getD address 0 =
      balances.getD address 0 +
        (if beneficiary treasury reporter offender = address then reporterShare bonded
        else 0) +
        (if treasury = address then bonded - reporterShare bonded else 0) := by
  rw [redistribute, getD_credit, getD_credit]
  rfl

/-- The ledger after a slash whose fee has been paid. -/
def punished (treasury reporter offender : Str) (paid : LedgerState) : LedgerState :=
  { confiscate paid offender with
    balances := redistribute treasury reporter offender (paid.bondedOf offender) paid.balances }

/-- A slash conserves the sum of all coins. -/
theorem totalSupply_punished
    (treasury reporter offender : Str)
    (paid : LedgerState) :
    (punished treasury reporter offender paid).totalSupply = paid.totalSupply := by
  simp only [punished, LedgerState.totalSupply, confiscate, total_redistribute, total_erase,
    unbondingGrandTotal_erase, LedgerState.bondedOf, LedgerState.unbondingOf]
  omega

/-- A slash takes what the offender has bonded and hands it to the beneficiary
and the treasury. -/
theorem holding_punished
    (treasury reporter offender : Str)
    (paid : LedgerState)
    (address : Str) :
    (punished treasury reporter offender paid).holding address =
      paid.holding address -
        (if offender = address then paid.bondedOf offender else 0) +
        (if beneficiary treasury reporter offender = address then
          reporterShare (paid.bondedOf offender) else 0) +
        (if treasury = address then
          paid.bondedOf offender - reporterShare (paid.bondedOf offender) else 0) := by
  simp only [punished, LedgerState.holding, LedgerState.unbondingOf, confiscate,
    getD_redistribute, Dict.getD_erase, LedgerState.bondedOf]
  by_cases same : offender = address
  · subst same
    simp only [if_true, queueTotal_nil]
    omega
  · simp only [same, if_false]
    omega

/-- Neither share of a non-negative amount is negative. -/
theorem reporterShare_bounds
    {bonded : Int}
    (nonneg : 0 ≤ bonded) :
    0 ≤ reporterShare bonded ∧ reporterShare bonded ≤ bonded := by
  unfold reporterShare REPORTER_BPS
  omega

/-! ## Payments, stakes, unstakes and fees -/

/-- The coins a transaction hands to or takes from an address, fees included.
Staking and unstaking move coins inside the holding of their sender. -/
def flow (block : Block) (tx : Transaction) (moved : Int) (address : Str) : Int :=
  (if tx.sender = address then -(moved + tx.fee) else 0) +
    (if tx.recipient = address then moved else 0) +
    (if block.validator = address then tx.fee else 0)

theorem payFee_holding
    {block : Block}
    {state after : LedgerState}
    {tx : Transaction}
    (paid : payFee block state tx = .ok after)
    (address : Str) :
    after.holding address = state.holding address + flow block tx 0 address := by
  obtain ⟨_, rfl⟩ := (payFee_eq_ok block state after tx).mp paid
  simp only [LedgerState.holding, LedgerState.unbondingOf, getD_credit, flow]
  split_ifs <;> omega

theorem applyPayment_holding
    {block : Block}
    {state after : LedgerState}
    {tx : Transaction}
    (moved : applyPayment block state tx = .ok after)
    (address : Str) :
    after.holding address = state.holding address + flow block tx tx.amount address := by
  obtain ⟨_, rfl⟩ := (applyPayment_eq_ok block state after tx).mp moved
  simp only [LedgerState.holding, LedgerState.unbondingOf, getD_credit, flow]
  omega

theorem applyStake_holding
    {block : Block}
    {state after : LedgerState}
    {tx : Transaction}
    (moved : applyStake block state tx = .ok after)
    (address : Str) :
    after.holding address = state.holding address + flow block tx 0 address := by
  obtain ⟨_, _, rfl⟩ := (applyStake_eq_ok block state after tx).mp moved
  simp only [LedgerState.holding, LedgerState.unbondingOf, getD_credit, flow]
  split_ifs <;> omega

theorem applyUnstake_holding
    {config : Config}
    {block : Block}
    {state after : LedgerState}
    {tx : Transaction}
    (moved : applyUnstake config block state tx = .ok after)
    (address : Str) :
    after.holding address = state.holding address + flow block tx 0 address := by
  obtain ⟨_, _, _, stakes, withdrawn, rfl⟩ :=
    (applyUnstake_eq_ok config block state after tx).mp moved
  have staked := (withdrawStake_spec withdrawn).1 address
  have queued := getD_unstakedQueues config block state.unbonding tx address
  simp only [LedgerState.holding, LedgerState.unbondingOf, getD_credit, flow, staked,
    queued, queueTotal_append]
  by_cases delayed : 0 < config.unbondingBlocks
  · simp only [delayed, if_true, true_and, getD_credit]
    split_ifs <;> simp [queueTotal] <;> omega
  · simp only [delayed, if_false, false_and, getD_credit, queueTotal_nil]
    split_ifs <;> omega

theorem payFee_totalSupply
    {block : Block}
    {state after : LedgerState}
    {tx : Transaction}
    (paid : payFee block state tx = .ok after) :
    after.totalSupply = state.totalSupply := by
  obtain ⟨_, rfl⟩ := (payFee_eq_ok block state after tx).mp paid
  simp only [LedgerState.totalSupply, total_credit]
  omega

/-! ## Whole transactions -/

section

variable [Primitives]

/-- Every kind of transaction conserves the sum of all coins by itself. -/
theorem Applied.totalSupply
    {config : Config}
    {block : Block}
    {justifiedParent : Finset Str}
    {state after : LedgerState}
    {tx : Transaction}
    (applied : Applied config block justifiedParent state tx after) :
    after.totalSupply = state.totalSupply := by
  cases applied with
  | stake _ moved _ =>
      obtain ⟨_, _, rfl⟩ := (applyStake_eq_ok block state after tx).mp moved
      simp only [LedgerState.totalSupply, total_credit]
      omega
  | unstake _ moved _ =>
      obtain ⟨_, _, _, stakes, withdrawn, rfl⟩ :=
        (applyUnstake_eq_ok config block state after tx).mp moved
      have staked := (withdrawStake_spec withdrawn).2
      have queued := unbondingGrandTotal_unstakedQueues config block state.unbonding tx
      simp only [LedgerState.totalSupply, total_credit, staked, queued, instantReturn]
      split_ifs
      · simp only [total_credit]
        omega
      · simp only [total_credit]
        omega
  | slash _ moved =>
      obtain ⟨_, treasury, _, offender, offense, _, _, _, paid, charged, rfl⟩ :=
        (applySlash_eq_ok config block state after tx).mp moved
      exact (totalSupply_punished treasury tx.sender offender paid).trans
        (payFee_totalSupply charged)
  | vote _ moved =>
      obtain ⟨link, _, _, _, paid, charged, rfl⟩ :=
        (applyVote_eq_ok config block justifiedParent state after tx).mp moved
      have kept := payFee_totalSupply charged
      simpa only [LedgerState.totalSupply, tallyLink_balances, tallyLink_stakes,
        tallyLink_unbonding, recordVote_balances, recordVote_stakes,
        recordVote_unbonding] using kept
  | payment _ _ _ _ moved _ =>
      obtain ⟨_, rfl⟩ := (applyPayment_eq_ok block state after tx).mp moved
      simp only [LedgerState.totalSupply, total_credit]
      omega

/-- Only slashes convict anybody. -/
theorem Applied.slashedAddrs_eq
    {config : Config}
    {block : Block}
    {justifiedParent : Finset Str}
    {state after : LedgerState}
    {tx : Transaction}
    (applied : Applied config block justifiedParent state tx after)
    (notSlash : tx.recipient ≠ SLASH_SENTINEL) :
    after.slashedAddrs = state.slashedAddrs := by
  cases applied with
  | stake _ moved _ =>
      obtain ⟨_, _, rfl⟩ := (applyStake_eq_ok block state after tx).mp moved
      rfl
  | unstake _ moved _ =>
      obtain ⟨_, _, _, _, _, rfl⟩ := (applyUnstake_eq_ok config block state after tx).mp moved
      rfl
  | slash named _ => exact absurd named notSlash
  | vote _ moved =>
      obtain ⟨link, _, _, _, paid, charged, rfl⟩ :=
        (applyVote_eq_ok config block justifiedParent state after tx).mp moved
      obtain ⟨_, rfl⟩ := (payFee_eq_ok block state paid tx).mp charged
      obtain ⟨_, _, frame⟩ := tallyLink_frame config (recordVote _ tx.sender link) link
      rw [frame]
      rfl
  | payment _ _ _ _ moved _ =>
      obtain ⟨_, rfl⟩ := (applyPayment_eq_ok block state after tx).mp moved
      rfl

/-- The transactions of a block conserve the sum of all coins. -/
theorem applyTxs_totalSupply
    {config : Config}
    {block : Block}
    {justifiedParent : Finset Str}
    {state after : LedgerState}
    {transactions : List Transaction}
    (applied : applyTxs config block justifiedParent state transactions = .ok after) :
    after.totalSupply = state.totalSupply :=
  applyTxs_invariant (fun reached => reached.totalSupply = state.totalSupply)
    (fun _ _ _ _ kept _ _ stepped => stepped.totalSupply.trans kept) rfl applied

theorem applyVote_holding
    {config : Config}
    {block : Block}
    {justifiedParent : Finset Str}
    {state after : LedgerState}
    {tx : Transaction}
    (moved : applyVote config block justifiedParent state tx = .ok after)
    (address : Str) :
    after.holding address = state.holding address + flow block tx 0 address := by
  obtain ⟨link, _, _, _, paid, charged, rfl⟩ :=
    (applyVote_eq_ok config block justifiedParent state after tx).mp moved
  rw [← payFee_holding charged address]
  simp only [LedgerState.holding, LedgerState.unbondingOf, tallyLink_balances,
    tallyLink_stakes, tallyLink_unbonding, recordVote_balances, recordVote_stakes,
    recordVote_unbonding]

/-- A slash takes what the offender has bonded and hands it to the beneficiary
and the treasury. -/
theorem applySlash_holding
    {config : Config}
    {block : Block}
    {state after : LedgerState}
    {tx : Transaction}
    (moved : applySlash config block state tx = .ok after) :
    ∃ treasury offender offense,
      config.treasuryAddress = some treasury ∧
      slashOffense tx.evidence = .ok (offender, offense) ∧
      ∀ address, after.holding address =
        state.holding address + flow block tx 0 address -
          (if offender = address then state.bondedOf offender else 0) +
          (if beneficiary treasury tx.sender offender = address then
            reporterShare (state.bondedOf offender) else 0) +
          (if treasury = address then
            state.bondedOf offender - reporterShare (state.bondedOf offender) else 0) := by
  obtain ⟨_, treasury, named, offender, offense, proven, _, _, paid, charged, rfl⟩ :=
    (applySlash_eq_ok config block state after tx).mp moved
  have bonded : paid.bondedOf offender = state.bondedOf offender := by
    obtain ⟨_, rfl⟩ := (payFee_eq_ok block state paid tx).mp charged
    rfl
  refine ⟨treasury, offender, offense, named, proven, fun address => ?_⟩
  rw [← payFee_holding charged address, ← bonded, ← holding_punished]
  rfl

end

end Mindees
