import Mindees.Consensus.Genesis

/-!
# What each operation does

One equation for every operation of a block: the conditions under which it
succeeds and the state it leads to.  Later modules argue from these equations
and do not unfold the operations again.
-/

namespace Mindees

open Library

/-! ## Maturing -/

/-- The entries of a queue that stay bonded past a height. -/
def stillBonded (height : Int) (queue : List Unbonding) : List Unbonding :=
  queue.filter fun entry => height < entry.releaseHeight

/-- The amount of a queue that a height releases. -/
def released (height : Int) (queue : List Unbonding) : Int :=
  queueTotal (queue.filter fun entry => entry.releaseHeight ≤ height)

theorem released_add_stillBonded (height : Int) (queue : List Unbonding) :
    released height queue + queueTotal (stillBonded height queue) = queueTotal queue := by
  induction queue with
  | nil => rfl
  | cons entry rest inductionHypothesis =>
      simp only [released, stillBonded, queueTotal] at inductionHypothesis ⊢
      by_cases due : entry.releaseHeight ≤ height
      · have notLater : ¬height < entry.releaseHeight := by omega
        simp only [List.filter_cons, due, notLater, decide_true, decide_false, if_true,
          Bool.false_eq_true, if_false, List.map_cons, List.sum_cons]
        omega
      · have later : height < entry.releaseHeight := by omega
        simp only [List.filter_cons, due, later, decide_true, decide_false, if_true,
          Bool.false_eq_true, if_false, List.map_cons, List.sum_cons]
        omega

/-- Maturing a queue keeps the later entries and credits the rest. -/
theorem foldl_matureEntry
    (height : Int)
    (address : Str)
    (queue : List Unbonding)
    (balances : Dict Str Int)
    (remaining : List Unbonding) :
    let result := queue.foldl (matureEntry height address) (balances, remaining)
    result.2 = remaining ++ stillBonded height queue ∧
      total result.1 = total balances + released height queue ∧
      ∀ other, result.1.getD other 0 =
        balances.getD other 0 + if address = other then released height queue else 0 := by
  induction queue generalizing balances remaining with
  | nil => simp [stillBonded, released, queueTotal]
  | cons entry rest inductionHypothesis =>
      rw [List.foldl_cons]
      by_cases due : entry.releaseHeight ≤ height
      · have notLater : ¬height < entry.releaseHeight := by omega
        obtain ⟨kept, sum, pointwise⟩ :=
          inductionHypothesis (credit balances address entry.amount) remaining
        have more : released height (entry :: rest) = entry.amount + released height rest := by
          simp [released, queueTotal, due]
        refine ⟨?_, ?_, ?_⟩
        · simpa [matureEntry, due, stillBonded, notLater] using kept
        · simp only [matureEntry, due, if_true, sum, total_credit, more]
          omega
        · intro other
          simp only [matureEntry, due, if_true, pointwise, getD_credit, more]
          split <;> omega
      · have later : height < entry.releaseHeight := by omega
        obtain ⟨kept, sum, pointwise⟩ := inductionHypothesis balances (remaining ++ [entry])
        have same : released height (entry :: rest) = released height rest := by
          simp [released, due]
        refine ⟨?_, ?_, ?_⟩
        · simpa [matureEntry, due, stillBonded, later] using kept
        · simpa only [matureEntry, due, if_false, same] using sum
        · simpa only [matureEntry, due, if_false, same] using pointwise

/-- A step of the maturing loop in terms of the queue of its address. -/
theorem matureAddress_spec
    (height : Int)
    (balances : Dict Str Int)
    (unbonding : Dict Str (List Unbonding))
    (address : Str) :
    let queue := unbonding.getD address []
    let result := matureAddress height (balances, unbonding) address
    total result.1 = total balances + released height queue ∧
      (∀ other, result.1.getD other 0 =
        balances.getD other 0 + if address = other then released height queue else 0) ∧
      unbondingGrandTotal result.2 = unbondingGrandTotal unbonding - released height queue ∧
      ∀ other, result.2.getD other [] =
        if address = other then stillBonded height queue else unbonding.getD other [] := by
  obtain ⟨kept, sum, pointwise⟩ :=
    foldl_matureEntry height address (unbonding.getD address []) balances []
  rw [List.nil_append] at kept
  have split := released_add_stillBonded height (unbonding.getD address [])
  simp only [matureAddress, kept]
  refine ⟨sum, pointwise, ?_, ?_⟩
  · split_ifs with some
    · rw [unbondingGrandTotal_set]
      omega
    · rw [unbondingGrandTotal_erase]
      rw [not_not.mp some, queueTotal_nil] at split
      omega
  · intro other
    split_ifs with some same same
    · rw [Dict.getD_set, if_pos same]
    · rw [Dict.getD_set, if_neg same]
    · rw [Dict.getD_erase, if_pos same, not_not.mp some]
    · rw [Dict.getD_erase, if_neg same]

/-- The maturing loop over any distinct addresses. -/
theorem foldl_matureAddress
    (height : Int)
    (addresses : List Str)
    (distinct : addresses.Nodup)
    (balances : Dict Str Int)
    (unbonding : Dict Str (List Unbonding)) :
    let result := addresses.foldl (matureAddress height) (balances, unbonding)
    total result.1 + unbondingGrandTotal result.2 =
        total balances + unbondingGrandTotal unbonding ∧
      (∀ other, result.1.getD other 0 = balances.getD other 0 +
        if other ∈ addresses then released height (unbonding.getD other []) else 0) ∧
      ∀ other, result.2.getD other [] =
        if other ∈ addresses then stillBonded height (unbonding.getD other [])
        else unbonding.getD other [] := by
  induction addresses generalizing balances unbonding with
  | nil => simp
  | cons address rest inductionHypothesis =>
      obtain ⟨absent, distinctRest⟩ := List.nodup_cons.mp distinct
      obtain ⟨sum, pointwise, grand, queues⟩ :=
        matureAddress_spec height balances unbonding address
      obtain ⟨sumRest, pointwiseRest, queuesRest⟩ :=
        inductionHypothesis distinctRest
          (matureAddress height (balances, unbonding) address).1
          (matureAddress height (balances, unbonding) address).2
      rw [Prod.mk.eta] at sumRest pointwiseRest queuesRest
      rw [List.foldl_cons]
      refine ⟨by omega, ?_, ?_⟩
      · intro other
        rw [pointwiseRest, pointwise, queues]
        by_cases here : address = other
        · subst here
          simp [absent]
        · simp [here, Ne.symm here]
      · intro other
        rw [queuesRest, queues]
        by_cases here : address = other
        · subst here
          simp [absent]
        · simp [here, Ne.symm here]

namespace LedgerState

theorem getD_unbonding_of_not_mem_keys
    (state : LedgerState)
    {address : Str}
    (absent : address ∉ state.unbonding.keys) :
    state.unbonding.getD address [] = [] := by
  rw [Dict.mem_keys_iff] at absent
  rw [Dict.getD]
  cases found : state.unbonding.get? address with
  | none => rfl
  | some queue => exact absurd ⟨queue, found⟩ absent

end LedgerState

/-- Maturing credits every address what its queue releases. -/
theorem getD_balances_matureUnbonding
    (height : Int)
    (state : LedgerState)
    (address : Str) :
    (matureUnbonding height state).balances.getD address 0 =
      state.balances.getD address 0 + released height (state.unbonding.getD address []) := by
  obtain ⟨_, pointwise, _⟩ := foldl_matureAddress height state.unbonding.keys
    state.unbonding.nodupKeys state.balances state.unbonding
  refine (pointwise address).trans ?_
  split_ifs with present
  · rfl
  · rw [state.getD_unbonding_of_not_mem_keys present]
    rfl

/-- Maturing leaves every address the entries that are released later. -/
theorem getD_unbonding_matureUnbonding
    (height : Int)
    (state : LedgerState)
    (address : Str) :
    (matureUnbonding height state).unbonding.getD address [] =
      stillBonded height (state.unbonding.getD address []) := by
  obtain ⟨_, _, queues⟩ := foldl_matureAddress height state.unbonding.keys
    state.unbonding.nodupKeys state.balances state.unbonding
  refine (queues address).trans ?_
  split_ifs with present
  · rfl
  · rw [state.getD_unbonding_of_not_mem_keys present]
    rfl

/-- Maturing moves coins and keeps their number. -/
@[simp] theorem totalSupply_matureUnbonding
    (height : Int)
    (state : LedgerState) :
    (matureUnbonding height state).totalSupply = state.totalSupply := by
  obtain ⟨sum, _, _⟩ := foldl_matureAddress height state.unbonding.keys
    state.unbonding.nodupKeys state.balances state.unbonding
  change total (matureUnbonding height state).balances +
    unbondingGrandTotal (matureUnbonding height state).unbonding = _ at sum
  have stakes : (matureUnbonding height state).stakes = state.stakes := rfl
  rw [LedgerState.totalSupply, LedgerState.totalSupply, stakes]
  omega

/-- Maturing keeps every holding. -/
@[simp] theorem holding_matureUnbonding
    (height : Int)
    (state : LedgerState)
    (address : Str) :
    (matureUnbonding height state).holding address = state.holding address := by
  have split := released_add_stillBonded height (state.unbonding.getD address [])
  have stakes : (matureUnbonding height state).stakes = state.stakes := rfl
  simp only [LedgerState.holding, LedgerState.unbondingOf, stakes,
    getD_balances_matureUnbonding, getD_unbonding_matureUnbonding]
  omega

/-! ## Payments, stakes, unstakes and fees -/

theorem applyPayment_eq_ok
    (block : Block)
    (state after : LedgerState)
    (tx : Transaction) :
    applyPayment block state tx = .ok after ↔
      tx.amount + tx.fee ≤ state.balances.getD tx.sender 0 ∧
      { state with
        balances :=
          credit (credit (credit state.balances tx.sender (-(tx.amount + tx.fee)))
            tx.recipient tx.amount) block.validator tx.fee
        nonces :=
          (state.nonces.set tx.sender (tx.nonce + 1)).setDefault tx.recipient
            ((state.nonces.set tx.sender (tx.nonce + 1)).getD tx.recipient 0) } = after := by
  simp only [applyPayment, rejectIf, bind_eq_ok, raiseIf_eq_ok, pure_eq_ok, not_lt,
    exists_and_left, exists_const]

theorem applyStake_eq_ok
    (block : Block)
    (state after : LedgerState)
    (tx : Transaction) :
    applyStake block state tx = .ok after ↔
      tx.amount + tx.fee ≤ state.balances.getD tx.sender 0 ∧
      state.balances.contains tx.sender = true ∧
      { state with
        balances :=
          credit (credit state.balances tx.sender (-(tx.amount + tx.fee)))
            block.validator tx.fee
        stakes := credit state.stakes tx.sender tx.amount
        nonces := state.nonces.set tx.sender (tx.nonce + 1) } = after := by
  simp only [applyStake, rejectIf, bind_eq_ok, raiseIf_eq_ok, pure_eq_ok, addItem_eq_ok,
    not_lt, exists_and_left, exists_const, and_assoc, exists_eq_left']

theorem withdrawStake_eq_ok
    (stakes after : Dict Str Int)
    (sender : Str)
    (amount : Int) :
    withdrawStake stakes sender amount = .ok after ↔
      stakes.contains sender = true ∧
      ¬((credit stakes sender (-amount)).getD sender 0 = 0 ∧
        (credit stakes sender (-amount)).size ≤ 1) ∧
      (if (credit stakes sender (-amount)).getD sender 0 = 0 then
        (credit stakes sender (-amount)).erase sender
      else credit stakes sender (-amount)) = after := by
  simp only [withdrawStake, rejectIf, bind_eq_ok, raiseIf_eq_ok, pure_eq_ok, addItem_eq_ok,
    exists_and_left, exists_const, and_assoc, exists_eq_left']

/-- The coins an unstake returns at once. -/
def instantReturn (config : Config) (tx : Transaction) : Int :=
  if 0 < config.unbondingBlocks then 0 else tx.amount

/-- The queues after an unstake. -/
def unstakedQueues
    (config : Config)
    (block : Block)
    (unbonding : Dict Str (List Unbonding))
    (tx : Transaction) : Dict Str (List Unbonding) :=
  if 0 < config.unbondingBlocks then
    unbonding.set tx.sender (unbonding.getD tx.sender [] ++
      [⟨tx.amount, block.index, block.index + config.unbondingBlocks⟩])
  else unbonding

theorem applyUnstake_eq_ok
    (config : Config)
    (block : Block)
    (state after : LedgerState)
    (tx : Transaction) :
    applyUnstake config block state tx = .ok after ↔
      tx.fee ≤ state.balances.getD tx.sender 0 ∧
      tx.amount ≤ state.stakes.getD tx.sender 0 ∧
      state.balances.contains tx.sender = true ∧
      ∃ stakes, withdrawStake state.stakes tx.sender tx.amount = .ok stakes ∧
      { state with
        balances :=
          credit
            (if 0 < config.unbondingBlocks then credit state.balances tx.sender (-tx.fee)
            else credit (credit state.balances tx.sender (-tx.fee)) tx.sender tx.amount)
            block.validator tx.fee
        stakes
        unbonding := unstakedQueues config block state.unbonding tx
        nonces := state.nonces.set tx.sender (tx.nonce + 1) } = after := by
  simp only [applyUnstake, rejectIf, bind_eq_ok, raiseIf_eq_ok, pure_eq_ok, addItem_eq_ok,
    not_lt, exists_and_left, exists_const, and_assoc, exists_eq_left', unstakedQueues]

theorem payFee_eq_ok
    (block : Block)
    (state after : LedgerState)
    (tx : Transaction) :
    payFee block state tx = .ok after ↔
      state.balances.contains tx.sender = true ∧
      { state with
        balances := credit (credit state.balances tx.sender (-tx.fee)) block.validator tx.fee
        nonces := state.nonces.set tx.sender (tx.nonce + 1) } = after := by
  simp only [payFee, bind_eq_ok, pure_eq_ok, addItem_eq_ok, and_assoc, exists_and_left,
    exists_eq_left']

theorem enforceVesting_eq_ok
    (config : Config)
    (address : Str)
    (height : Int)
    (state : LedgerState) :
    enforceVesting config address height state = .ok () ↔
      ∀ grant, config.vesting.get? address = some grant →
        grant.lockedAt height ≤ 0 ∨ grant.lockedAt height ≤ state.holding address := by
  rw [enforceVesting]
  cases config.vesting.get? address with
  | none => simp
  | some grant =>
      simp only [rejectIf, raiseIf_eq_ok, Option.some.injEq, forall_eq']
      omega

section

variable [Primitives]

/-- The hook before the transactions matures coins and records a snapshot. -/
theorem applyBlockPre_eq
    (config : Config)
    (block : Block)
    (state : LedgerState) :
    applyBlockPre config block state =
      { matureUnbonding block.index state with
        ffgStake :=
          if block.index % config.epoch = 0 then state.ffgStake.set block.hash state.stakes
          else state.ffgStake
        ffgHeight :=
          if block.index % config.epoch = 0 then state.ffgHeight.set block.hash block.index
          else state.ffgHeight } := by
  rw [applyBlockPre, snapshotCheckpoint]
  split <;> rfl

section

variable (config : Config) (block : Block) (state : LedgerState)

@[simp] theorem applyBlockPre_stakes :
    (applyBlockPre config block state).stakes = state.stakes := by
  rw [applyBlockPre_eq]
  rfl

@[simp] theorem applyBlockPre_nonces :
    (applyBlockPre config block state).nonces = state.nonces := by
  rw [applyBlockPre_eq]
  rfl

@[simp] theorem applyBlockPre_slashedAddrs :
    (applyBlockPre config block state).slashedAddrs = state.slashedAddrs := by
  rw [applyBlockPre_eq]
  rfl

@[simp] theorem applyBlockPre_ffgVotes :
    (applyBlockPre config block state).ffgVotes = state.ffgVotes := by
  rw [applyBlockPre_eq]
  rfl

@[simp] theorem applyBlockPre_ffgSeenTarget :
    (applyBlockPre config block state).ffgSeenTarget = state.ffgSeenTarget := by
  rw [applyBlockPre_eq]
  rfl

@[simp] theorem applyBlockPre_justified :
    (applyBlockPre config block state).justified = state.justified := by
  rw [applyBlockPre_eq]
  rfl

@[simp] theorem applyBlockPre_finalized :
    (applyBlockPre config block state).finalized = state.finalized := by
  rw [applyBlockPre_eq]
  rfl

end

@[simp] theorem totalSupply_applyBlockPre
    (config : Config)
    (block : Block)
    (state : LedgerState) :
    (applyBlockPre config block state).totalSupply = state.totalSupply := by
  rw [applyBlockPre_eq, ← totalSupply_matureUnbonding block.index state]
  rfl

@[simp] theorem holding_applyBlockPre
    (config : Config)
    (block : Block)
    (state : LedgerState)
    (address : Str) :
    (applyBlockPre config block state).holding address = state.holding address := by
  rw [applyBlockPre_eq, ← holding_matureUnbonding block.index state]
  rfl

/-! ## Votes, slashes and whole transactions -/

theorem applyVote_eq_ok
    (config : Config)
    (block : Block)
    (justifiedParent : Finset Str)
    (state after : LedgerState)
    (tx : Transaction) :
    applyVote config block justifiedParent state tx = .ok after ↔
      ∃ link, voteLink tx.evidence = .ok link ∧
        checkVote config justifiedParent state tx.sender link = .ok () ∧
        tx.fee ≤ state.balances.getD tx.sender 0 ∧
        ∃ paid, payFee block state tx = .ok paid ∧
          tallyLink config (recordVote paid tx.sender link) link = after := by
  simp only [applyVote, rejectIf, bind_eq_ok, raiseIf_eq_ok, pure_eq_ok, not_lt,
    exists_and_left, exists_unit]

theorem applySlash_eq_ok
    (config : Config)
    (block : Block)
    (state after : LedgerState)
    (tx : Transaction) :
    applySlash config block state tx = .ok after ↔
      tx.evidence ≠ [] ∧
      ∃ treasury, config.treasuryAddress = some treasury ∧
      ∃ offender offense, slashOffense tx.evidence = .ok (offender, offense) ∧
        offense ∉ state.slashed ∧
        tx.fee ≤ state.balances.getD tx.sender 0 ∧
        ∃ paid, payFee block state tx = .ok paid ∧
          { confiscate paid offender with
            balances :=
              redistribute treasury tx.sender offender (paid.bondedOf offender) paid.balances
            slashed := insert offense paid.slashed } = after := by
  simp only [applySlash, rejectIf, bind_eq_ok, raiseIf_eq_ok, pure_eq_ok, not_lt,
    require_eq_ok, exists_and_left, exists_const, Prod.exists, confiscate]

/-- A transaction is applied in one of five ways. -/
inductive Applied
    (config : Config)
    (block : Block)
    (justifiedParent : Finset Str)
    (state : LedgerState)
    (tx : Transaction)
    (after : LedgerState) : Prop
  | stake :
      tx.recipient = STAKE_SENTINEL →
      applyStake block state tx = .ok after →
      enforceVesting config tx.sender block.index after = .ok () →
      Applied config block justifiedParent state tx after
  | unstake :
      tx.recipient = UNSTAKE_SENTINEL →
      applyUnstake config block state tx = .ok after →
      enforceVesting config tx.sender block.index after = .ok () →
      Applied config block justifiedParent state tx after
  | slash :
      tx.recipient = SLASH_SENTINEL →
      applySlash config block state tx = .ok after →
      Applied config block justifiedParent state tx after
  | vote :
      tx.recipient = VOTE_SENTINEL →
      applyVote config block justifiedParent state tx = .ok after →
      Applied config block justifiedParent state tx after
  | payment :
      tx.recipient ≠ STAKE_SENTINEL → tx.recipient ≠ UNSTAKE_SENTINEL →
      tx.recipient ≠ SLASH_SENTINEL → tx.recipient ≠ VOTE_SENTINEL →
      applyPayment block state tx = .ok after →
      enforceVesting config tx.sender block.index after = .ok () →
      Applied config block justifiedParent state tx after

theorem applyTx_eq_ok
    (config : Config)
    (block : Block)
    (justifiedParent : Finset Str)
    (state after : LedgerState)
    (tx : Transaction) :
    applyTx config block justifiedParent state tx = .ok after ↔
      Applied config block justifiedParent state tx after := by
  rw [applyTx]
  constructor
  · intro applied
    split_ifs at applied with stake unstake slash vote
    · simp only [bind_eq_ok, pure_eq_ok] at applied
      obtain ⟨middle, moved, _, kept, rfl⟩ := applied
      exact .stake stake moved kept
    · simp only [bind_eq_ok, pure_eq_ok] at applied
      obtain ⟨middle, moved, _, kept, rfl⟩ := applied
      exact .unstake unstake moved kept
    · exact .slash slash applied
    · exact .vote vote applied
    · simp only [bind_eq_ok, pure_eq_ok] at applied
      obtain ⟨middle, moved, _, kept, rfl⟩ := applied
      exact .payment stake unstake slash vote moved kept
  · intro applied
    cases applied with
    | stake named moved kept =>
        rw [if_pos named]
        simp [moved, kept]
    | unstake named moved kept =>
        rw [if_neg (by rw [named]; decide), if_pos named]
        simp [moved, kept]
    | slash named moved =>
        rw [if_neg (by rw [named]; decide), if_neg (by rw [named]; decide), if_pos named, moved]
    | vote named moved =>
        rw [if_neg (by rw [named]; decide), if_neg (by rw [named]; decide),
          if_neg (by rw [named]; decide), if_pos named, moved]
    | payment notStake notUnstake notSlash notVote moved kept =>
        rw [if_neg notStake, if_neg notUnstake, if_neg notSlash, if_neg notVote]
        simp [moved, kept]

/-- What names itself a slash is applied as one. -/
theorem Applied.of_slash
    {config : Config}
    {block : Block}
    {justifiedParent : Finset Str}
    {state after : LedgerState}
    {tx : Transaction}
    (applied : Applied config block justifiedParent state tx after)
    (named : tx.recipient = SLASH_SENTINEL) :
    applySlash config block state tx = .ok after := by
  cases applied with
  | stake other _ _ => exact absurd (other.symm.trans named) (by decide)
  | unstake other _ _ => exact absurd (other.symm.trans named) (by decide)
  | vote other _ => exact absurd (other.symm.trans named) (by decide)
  | payment _ _ notSlash _ _ _ => exact absurd named notSlash
  | slash _ moved => exact moved

theorem applyNext_eq_ok
    (config : Config)
    (block : Block)
    (justifiedParent : Finset Str)
    (progress result : List Str × LedgerState)
    (tx : Transaction) :
    applyNext config block justifiedParent progress tx = .ok result ↔
      tx.txid ∉ progress.1 ∧ tx.isValid = true ∧
      progress.2.nonces.getD tx.sender 0 = tx.nonce ∧
      result.1 = tx.txid :: progress.1 ∧
      applyTx config block justifiedParent progress.2 tx = .ok result.2 := by
  obtain ⟨seen, state⟩ := progress
  obtain ⟨seenAfter, after⟩ := result
  simp only [applyNext, rejectIf, bind_eq_ok, raiseIf_eq_ok, pure_eq_ok, Prod.mk.injEq,
    exists_and_left, exists_const, Bool.not_eq_false, not_not, ne_eq]
  constructor
  · rintro ⟨fresh, valid, nonce, state', applied, rfl, rfl⟩
    exact ⟨fresh, valid, nonce, rfl, applied⟩
  · rintro ⟨fresh, valid, nonce, rfl, applied⟩
    exact ⟨fresh, valid, nonce, after, applied, rfl, rfl⟩

theorem applyTxs_eq_ok
    (config : Config)
    (block : Block)
    (justifiedParent : Finset Str)
    (start finish : LedgerState)
    (transactions : List Transaction) :
    applyTxs config block justifiedParent start transactions = .ok finish ↔
      ∃ seen, transactions.foldlM (applyNext config block justifiedParent) ([], start) =
        .ok (seen, finish) := by
  simp only [applyTxs, bind_eq_ok, pure_eq_ok, Prod.exists, exists_eq_right]

/-- The last transaction of a list is applied to the state that the others lead
to. -/
theorem applyTxs_concat
    {config : Config}
    {block : Block}
    {justifiedParent : Finset Str}
    {start finish : LedgerState}
    {transactions : List Transaction}
    {tx : Transaction}
    (applied : applyTxs config block justifiedParent start (transactions ++ [tx]) = .ok finish) :
    ∃ before, applyTxs config block justifiedParent start transactions = .ok before ∧
      tx.isValid = true ∧ Applied config block justifiedParent before tx finish := by
  obtain ⟨seen, ran⟩ := (applyTxs_eq_ok _ _ _ _ _ _).mp applied
  obtain ⟨before, reached, stepped⟩ := (foldlM_concat_eq_ok _ _ _ _).mp ran
  obtain ⟨_, valid, _, _, moved⟩ := (applyNext_eq_ok _ _ _ _ _ _).mp stepped
  exact ⟨before.2, (applyTxs_eq_ok _ _ _ _ _ _).mpr ⟨before.1, reached⟩, valid,
    (applyTx_eq_ok _ _ _ _ _ _).mp moved⟩

/-- A transaction in the middle of a list is applied to the state that those
before it lead to. -/
theorem applyTxs_split
    {config : Config}
    {block : Block}
    {justifiedParent : Finset Str}
    {start finish : LedgerState}
    {earlier later : List Transaction}
    {tx : Transaction}
    (applied : applyTxs config block justifiedParent start (earlier ++ tx :: later) =
      .ok finish) :
    ∃ before after, applyTxs config block justifiedParent start earlier = .ok before ∧
      tx.isValid = true ∧ before.nonces.getD tx.sender 0 = tx.nonce ∧
      Applied config block justifiedParent before tx after := by
  obtain ⟨seen, ran⟩ := (applyTxs_eq_ok _ _ _ _ _ _).mp applied
  obtain ⟨before, reached, onward⟩ := (foldlM_append_eq_ok _ _ _ _).mp ran
  obtain ⟨after, stepped, _⟩ := (foldlM_cons_eq_ok _ _ _ _).mp onward
  obtain ⟨_, valid, nonce, _, moved⟩ := (applyNext_eq_ok _ _ _ _ _ _).mp stepped
  exact ⟨before.2, after.2, (applyTxs_eq_ok _ _ _ _ _ _).mpr ⟨before.1, reached⟩, valid, nonce,
    (applyTx_eq_ok _ _ _ _ _ _).mp moved⟩

/-- What every valid transaction adds to the transactions before it, the
transactions of a block add to each other. -/
theorem applyTxs_traces
    {config : Config}
    {block : Block}
    {justifiedParent : Finset Str}
    {start finish : LedgerState}
    {transactions : List Transaction}
    (property : List Transaction → LedgerState → Prop)
    (preserved : ∀ earlier tx later, transactions = earlier ++ tx :: later →
      ∀ before after, property earlier before → tx.isValid = true →
        before.nonces.getD tx.sender 0 = tx.nonce →
        Applied config block justifiedParent before tx after →
        property (earlier ++ [tx]) after)
    (initially : property [] start)
    (applied : applyTxs config block justifiedParent start transactions = .ok finish) :
    property transactions finish := by
  obtain ⟨seen, ran⟩ := (applyTxs_eq_ok _ _ _ _ _ _).mp applied
  refine foldlM_traces (fun earlier progress => property earlier progress.2) ?_ initially ran
  intro earlier tx later position before after holds stepped
  obtain ⟨_, valid, nonce, _, applied⟩ :=
    (applyNext_eq_ok config block justifiedParent before after tx).mp stepped
  exact preserved earlier tx later position before.2 after.2 holds valid nonce
    ((applyTx_eq_ok config block justifiedParent before.2 after.2 tx).mp applied)

/-- What every valid transaction preserves after the transactions before it,
the transactions of a block preserve together. -/
theorem applyTxs_invariant_along
    {config : Config}
    {block : Block}
    {justifiedParent : Finset Str}
    {start finish : LedgerState}
    {transactions : List Transaction}
    (invariant : LedgerState → Prop)
    (preserved : ∀ earlier tx later, transactions = earlier ++ tx :: later →
      ∀ before after, applyTxs config block justifiedParent start earlier = .ok before →
        invariant before → tx.isValid = true →
        before.nonces.getD tx.sender 0 = tx.nonce →
        Applied config block justifiedParent before tx after → invariant after)
    (initially : invariant start)
    (applied : applyTxs config block justifiedParent start transactions = .ok finish) :
    invariant finish := by
  obtain ⟨seen, ran⟩ := (applyTxs_eq_ok _ _ _ _ _ _).mp applied
  refine foldlM_invariant_along (fun progress => invariant progress.2) ?_ initially ran
  intro earlier tx later position before after reached holds stepped
  obtain ⟨_, valid, nonce, _, applied⟩ :=
    (applyNext_eq_ok config block justifiedParent before after tx).mp stepped
  exact preserved earlier tx later position before.2 after.2
    ((applyTxs_eq_ok _ _ _ _ _ _).mpr ⟨before.1, reached⟩) holds valid nonce
    ((applyTx_eq_ok config block justifiedParent before.2 after.2 tx).mp applied)

/-- What every valid transaction preserves, the transactions of a block
preserve together. -/
theorem applyTxs_invariant
    {config : Config}
    {block : Block}
    {justifiedParent : Finset Str}
    {start finish : LedgerState}
    {transactions : List Transaction}
    (invariant : LedgerState → Prop)
    (preserved : ∀ tx ∈ transactions, ∀ before after,
      invariant before → tx.isValid = true →
      before.nonces.getD tx.sender 0 = tx.nonce →
      Applied config block justifiedParent before tx after → invariant after)
    (initially : invariant start)
    (applied : applyTxs config block justifiedParent start transactions = .ok finish) :
    invariant finish := by
  refine applyTxs_invariant_along invariant ?_ initially applied
  intro earlier tx later position before after _
  exact preserved tx (by simp [position]) before after

namespace ProofOfStakeChain

theorem applyChecked_eq_ok
    (chain : ProofOfStakeChain)
    (block : Block)
    (after : LedgerState) :
    chain.applyChecked block = .ok after ↔
      block.previousHash = chain.head.hash ∧
      block.index = chain.head.index + 1 ∧
      block.merkleRoot = merkleRoot (block.transactions.map Transaction.txid) ∧
      checkProposer chain.state.stakes block = .ok () ∧
      applyTxs chain.config block chain.state.justified
        (applyBlockPre chain.config block chain.state) block.transactions = .ok after := by
  simp only [applyChecked, rejectIf, bind_eq_ok, raiseIf_eq_ok, exists_and_left, exists_unit,
    not_not, ne_eq]

theorem apply_eq_ok
    (chain : ProofOfStakeChain)
    (block : Block)
    (after : LedgerState) :
    chain.apply block = .ok after ↔
      chain.applyChecked block = .ok after ∧ after.totalSupply = MAX_SUPPLY_UNITS := by
  simp only [apply, checkSupply, rejectIf, bind_eq_ok, raiseIf_eq_ok, pure_eq_ok,
    exists_and_left, exists_const, not_not, ne_eq]
  constructor
  · rintro ⟨_, checked, supply, rfl⟩
    exact ⟨checked, supply⟩
  · rintro ⟨checked, supply⟩
    exact ⟨after, checked, supply, rfl⟩

theorem submitBlock_eq_ok
    (chain after : ProofOfStakeChain)
    (block : Block) :
    chain.submitBlock block = .ok after ↔
      chain.apply block = .ok after.state ∧ after.config = chain.config ∧
      after.chain = chain.chain ++ [block] := by
  simp only [submitBlock, bind_eq_ok, pure_eq_ok]
  constructor
  · rintro ⟨state, applied, rfl⟩
    exact ⟨applied, rfl, rfl⟩
  · rintro ⟨applied, config, blocks⟩
    refine ⟨after.state, applied, ?_⟩
    cases after
    cases config
    cases blocks
    rfl

/-- The newest block of an extended chain. -/
theorem head_submitBlock
    {before after : ProofOfStakeChain}
    {block : Block}
    (submitted : before.submitBlock block = .ok after) :
    after.head = block := by
  obtain ⟨_, _, blocks⟩ := (submitBlock_eq_ok before after block).mp submitted
  simp [head, blocks]

/-- Everything that an accepted block has passed, and what it leads to. -/
structure Submitted (before : ProofOfStakeChain) (block : Block) (after : ProofOfStakeChain) :
    Prop where
  previous : block.previousHash = before.head.hash
  index : block.index = before.head.index + 1
  checked : before.applyChecked block = .ok after.state
  proposer : checkProposer before.state.stakes block = .ok ()
  ran : applyTxs before.config block before.state.justified
    (applyBlockPre before.config block before.state) block.transactions = .ok after.state
  config : after.config = before.config
  blocks : after.chain = before.chain ++ [block]
  newest : after.head = block

theorem submitted_of_submitBlock
    {before after : ProofOfStakeChain}
    {block : Block}
    (accepted : before.submitBlock block = .ok after) :
    Submitted before block after := by
  obtain ⟨applied, config, blocks⟩ := (submitBlock_eq_ok _ _ _).mp accepted
  obtain ⟨checked, _⟩ := (apply_eq_ok _ _ _).mp applied
  obtain ⟨previous, index, _, proposer, ran⟩ := (applyChecked_eq_ok _ _ _).mp checked
  exact ⟨previous, index, checked, proposer, ran, config, blocks, head_submitBlock accepted⟩

/-! ## Reachable chains -/

section

variable {args : GenesisArgs} {chain : ProofOfStakeChain}

/-- The index of the newest block counts the blocks before it. -/
theorem Reachable.length_eq
    (reachable : Reachable args chain) :
    (chain.chain.length : Int) = chain.head.index + 1 := by
  induction reachable with
  | genesis initialised =>
      obtain ⟨_, _, _, _, _, _, _, _, blocks⟩ := (init_eq_ok _ _).mp initialised
      simp [head, blocks, genesisBlock, Block.postInit]
  | block _ submitted inductionHypothesis =>
      have accepted := submitted_of_submitBlock submitted
      have next := accepted.index
      rw [accepted.newest, accepted.blocks, List.length_append, List.length_singleton]
      omega

/-- Every block stands at the position that its index names. -/
theorem Reachable.index_eq
    (reachable : Reachable args chain)
    {position : Nat}
    {block : Block}
    (here : chain.chain[position]? = some block) :
    block.index = position := by
  induction reachable with
  | genesis initialised =>
      obtain ⟨_, _, _, _, _, _, _, _, blocks⟩ := (init_eq_ok _ _).mp initialised
      rw [blocks, List.getElem?_singleton] at here
      split_ifs at here with first
      cases here
      simp [first, genesisBlock, Block.postInit]
  | @block before after newest earlier submitted inductionHypothesis =>
      have accepted := submitted_of_submitBlock submitted
      have next := accepted.index
      have length := earlier.length_eq
      rw [accepted.blocks] at here
      by_cases old : position < before.chain.length
      · rw [List.getElem?_append_left old] at here
        exact inductionHypothesis here
      · rw [List.getElem?_append_right (not_lt.mp old), List.getElem?_singleton] at here
        split_ifs at here with last
        cases here
        omega

/-- An accepted block gets the next position. -/
theorem Reachable.next_position
    {block : Block}
    {after : ProofOfStakeChain}
    (reachable : Reachable args chain)
    (accepted : Submitted chain block after) :
    block.index = chain.chain.length := by
  rw [accepted.index, reachable.length_eq]

/-- The genesis parameters fix the configuration and the first block. -/
theorem Reachable.config_eq
    (reachable : Reachable args chain) :
    chain.config =
        { vesting := args.vesting.mapValues toGrant
          unbondingBlocks := args.unbondingBlocks
          treasuryAddress := args.treasuryAddress
          epoch := args.epoch } ∧
      0 < args.epoch ∧ chain.chain[0]? = some (genesisBlock args.timestamp) := by
  induction reachable with
  | genesis initialised =>
      obtain ⟨_, _, _, _, _, epoch, config, _, blocks⟩ := (init_eq_ok _ _).mp initialised
      exact ⟨config, epoch, by rw [blocks]; rfl⟩
  | @block before after _ _ submitted inductionHypothesis =>
      obtain ⟨_, config, blocks⟩ := (submitBlock_eq_ok _ _ _).mp submitted
      obtain ⟨same, epoch, first⟩ := inductionHypothesis
      refine ⟨config.trans same, epoch, ?_⟩
      rw [blocks, List.getElem?_append_left (List.length_pos_of_ne_nil before.nonempty), first]

end

end ProofOfStakeChain

end

end Mindees
