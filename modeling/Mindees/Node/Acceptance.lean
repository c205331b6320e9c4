import Mindees.Consensus.Nonces
import Mindees.Node.Selection

/-!
# What the chain asks beyond selection

Selection models nonces and liquid balances.  The remaining rules of each kind
of transaction are one test here; the chain applies a selection exactly when
every transaction passes it in the state that its predecessors leave.
-/

namespace Mindees

open Library

/-! ## Costs by kind -/

section

variable {tx : Transaction} (unbondingBlocks : Int)

theorem cost_stake
    (named : tx.recipient = STAKE_SENTINEL) :
    cost tx unbondingBlocks = (tx.amount + tx.fee, -(tx.amount + tx.fee)) := by
  rw [cost, if_neg (by rw [named]; decide), if_neg (by rw [named]; decide)]

theorem cost_unstake
    (named : tx.recipient = UNSTAKE_SENTINEL) :
    cost tx unbondingBlocks =
      (tx.fee, if 0 < unbondingBlocks then -tx.fee else tx.amount - tx.fee) := by
  rw [cost, if_neg (by rw [named]; decide), if_pos named]
  split_ifs <;> rfl

theorem cost_special
    (named : tx.recipient = SLASH_SENTINEL ∨ tx.recipient = VOTE_SENTINEL) :
    cost tx unbondingBlocks = (tx.fee, -tx.fee) := by
  rw [cost, if_pos named]

theorem cost_payment
    (notUnstake : tx.recipient ≠ UNSTAKE_SENTINEL)
    (notSlash : tx.recipient ≠ SLASH_SENTINEL)
    (notVote : tx.recipient ≠ VOTE_SENTINEL) :
    cost tx unbondingBlocks = (tx.amount + tx.fee, -(tx.amount + tx.fee)) := by
  have notSpecial : ¬(tx.recipient = SLASH_SENTINEL ∨ tx.recipient = VOTE_SENTINEL) :=
    not_or.mpr ⟨notSlash, notVote⟩
  rw [cost, if_neg notSpecial, if_neg notUnstake]

end

/-! ## The remaining rules -/

section

variable [Primitives]

/-- A grant holder keeps what is locked after its own transaction. -/
def keepsLocked
    (config : Config)
    (block : Block)
    (state : LedgerState)
    (tx : Transaction)
    (moved : Int) : Bool :=
  match config.vesting.get? tx.sender with
  | none => true
  | some grant =>
      let lock := grant.lockedAt block.index
      lock ≤ 0 ∨ lock ≤ state.holding tx.sender + flow block tx moved tx.sender

/-- The rules of the chain that selection does not model. -/
def meetsRules
    (config : Config)
    (block : Block)
    (justifiedParent : Finset Str)
    (state : LedgerState)
    (tx : Transaction) : Bool :=
  if tx.recipient = STAKE_SENTINEL then keepsLocked config block state tx 0
  else if tx.recipient = UNSTAKE_SENTINEL then
    state.balances.contains tx.sender && decide (tx.amount ≤ state.stakes.getD tx.sender 0) &&
      succeeded (withdrawStake state.stakes tx.sender tx.amount) &&
      keepsLocked config block state tx 0
  else if tx.recipient = SLASH_SENTINEL then
    state.balances.contains tx.sender && config.treasuryAddress.isSome &&
      match slashOffense tx.evidence with
      | .ok (_, offense) => decide (offense ∉ state.slashed)
      | .error _ => false
  else if tx.recipient = VOTE_SENTINEL then
    state.balances.contains tx.sender &&
      match voteLink tx.evidence with
      | .ok link => succeeded (checkVote config justifiedParent state tx.sender link)
      | .error _ => false
  else keepsLocked config block state tx tx.amount

section

variable {config : Config} {block : Block} {justifiedParent : Finset Str}
  {state after : LedgerState} {tx : Transaction}

omit [Primitives] in
theorem keepsLocked_iff
    {moved : Int}
    (holding : after.holding tx.sender = state.holding tx.sender + flow block tx moved tx.sender) :
    keepsLocked config block state tx moved = true ↔
      enforceVesting config tx.sender block.index after = .ok () := by
  rw [enforceVesting_eq_ok, keepsLocked, holding]
  cases config.vesting.get? tx.sender with
  | none => simp
  | some grant => simp

omit [Primitives] in
/-- A stake can be withdrawn in full while somebody else has one. -/
theorem withdrawStake_succeeds_iff
    {stakes : Dict Str Int}
    {sender : Str}
    {amount : Int}
    (positive : ∀ address value, stakes.get? address = some value → 0 < value)
    (spends : 0 < amount)
    (covered : amount ≤ stakes.getD sender 0) :
    succeeded (withdrawStake stakes sender amount) = true ↔
      (stakes.getD sender 0 = amount → ∃ other, sender ≠ other ∧ 0 < stakes.getD other 0) := by
  have staker : stakes.contains sender = true := contains_of_funded (by omega)
  have size : (credit stakes sender (-amount)).size = stakes.size := by
    rw [credit, Dict.size_set_eq, staker]
    rfl
  have rest : (credit stakes sender (-amount)).getD sender 0 = stakes.getD sender 0 - amount := by
    rw [getD_credit, if_pos rfl, sub_eq_add_neg]
  simp only [succeeded_iff, withdrawStake_eq_ok, staker, rest, size, true_and, exists_and_left,
    exists_eq', and_true, not_and, sub_eq_zero]
  refine imp_congr_right fun _ => ?_
  rw [not_le]
  constructor
  · intro several
    obtain ⟨other, value, apart, found⟩ := Dict.exists_other_key several sender
    refine ⟨other, apart, ?_⟩
    rw [Dict.getD_eq_of_get? found]
    exact positive other value found
  · rintro ⟨other, apart, staked⟩
    obtain ⟨value, found⟩ := (Dict.contains_iff _ _).mp staker
    have smaller := stakes.size_erase found
    obtain ⟨left, kept⟩ := (Dict.contains_iff stakes other).mp (contains_of_funded staked)
    have found : (stakes.erase sender).get? other = some left := by
      rw [Dict.get?_erase, if_neg apart, kept]
    have smallest := (stakes.erase sender).size_erase found
    omega

/-- A funded stake needs only the vesting rule. -/
theorem applyTx_stake_iff
    (amount : 0 < tx.amount)
    (fee : 0 ≤ tx.fee)
    (named : tx.recipient = STAKE_SENTINEL)
    (funded : tx.amount + tx.fee ≤ state.balances.getD tx.sender 0) :
    (∃ after, applyTx config block justifiedParent state tx = .ok after) ↔
      keepsLocked config block state tx 0 = true := by
  obtain ⟨staked, moved⟩ : ∃ staked, applyStake block state tx = .ok staked :=
    ⟨_, (applyStake_eq_ok block state _ tx).mpr ⟨funded, contains_of_funded (by omega), rfl⟩⟩
  rw [keepsLocked_iff (applyStake_holding moved tx.sender), applyTx, if_pos named]
  simp only [moved, bind_eq_ok, Except.ok.injEq, exists_eq_left', exists_unit, pure_eq_ok,
    exists_and_left, exists_eq', and_true]

/-- A funded payment needs only the vesting rule. -/
theorem applyTx_payment_iff
    (notStake : tx.recipient ≠ STAKE_SENTINEL)
    (notUnstake : tx.recipient ≠ UNSTAKE_SENTINEL)
    (notSlash : tx.recipient ≠ SLASH_SENTINEL)
    (notVote : tx.recipient ≠ VOTE_SENTINEL)
    (funded : tx.amount + tx.fee ≤ state.balances.getD tx.sender 0) :
    (∃ after, applyTx config block justifiedParent state tx = .ok after) ↔
      keepsLocked config block state tx tx.amount = true := by
  obtain ⟨paid, moved⟩ : ∃ paid, applyPayment block state tx = .ok paid :=
    ⟨_, (applyPayment_eq_ok block state _ tx).mpr ⟨funded, rfl⟩⟩
  rw [keepsLocked_iff (applyPayment_holding moved tx.sender), applyTx, if_neg notStake,
    if_neg notUnstake, if_neg notSlash, if_neg notVote]
  simp only [moved, bind_eq_ok, Except.ok.injEq, exists_eq_left', exists_unit, pure_eq_ok,
    exists_and_left, exists_eq', and_true]

/-- A funded unstake needs the stake it withdraws, a validator that remains, and
the vesting rule. -/
theorem applyTx_unstake_iff
    (named : tx.recipient = UNSTAKE_SENTINEL)
    (funded : tx.fee ≤ state.balances.getD tx.sender 0) :
    (∃ after, applyTx config block justifiedParent state tx = .ok after) ↔
      state.balances.contains tx.sender = true ∧ tx.amount ≤ state.stakes.getD tx.sender 0 ∧
        succeeded (withdrawStake state.stakes tx.sender tx.amount) = true ∧
        keepsLocked config block state tx 0 = true := by
  have notStake : tx.recipient ≠ STAKE_SENTINEL := by rw [named]; decide
  simp only [applyTx_eq_ok, succeeded_iff]
  constructor
  · rintro ⟨after, applied⟩
    cases applied with
    | unstake _ moved kept =>
        obtain ⟨_, enough, present, stakes, withdrawn, _⟩ :=
          (applyUnstake_eq_ok config block state after tx).mp moved
        exact ⟨present, enough, ⟨stakes, withdrawn⟩,
          (keepsLocked_iff (applyUnstake_holding moved tx.sender)).mpr kept⟩
    | stake other _ _ => exact absurd other notStake
    | slash other _ => exact absurd (named.symm.trans other) (by decide)
    | vote other _ => exact absurd (named.symm.trans other) (by decide)
    | payment _ other _ _ _ _ => exact absurd named other
  · rintro ⟨present, enough, ⟨stakes, withdrawn⟩, kept⟩
    obtain ⟨unstaked, moved⟩ : ∃ unstaked, applyUnstake config block state tx = .ok unstaked :=
      ⟨_, (applyUnstake_eq_ok config block state _ tx).mpr
        ⟨funded, enough, present, stakes, withdrawn, rfl⟩⟩
    exact ⟨unstaked, .unstake named moved
      ((keepsLocked_iff (applyUnstake_holding moved tx.sender)).mp kept)⟩

/-- A funded slash needs a treasury and evidence of an offense that has not been
punished. -/
theorem applyTx_slash_iff
    (valid : tx.isValid = true)
    (named : tx.recipient = SLASH_SENTINEL)
    (funded : tx.fee ≤ state.balances.getD tx.sender 0) :
    (∃ after, applyTx config block justifiedParent state tx = .ok after) ↔
      state.balances.contains tx.sender = true ∧ config.treasuryAddress.isSome = true ∧
        ∃ offender offense, slashOffense tx.evidence = .ok (offender, offense) ∧
          offense ∉ state.slashed := by
  have evidence := (Transaction.isValid.amount_eq_zero valid (.inl named)).2
  have unfolded : applyTx config block justifiedParent state tx =
      applySlash config block state tx := by
    rw [applyTx, if_neg (by rw [named]; decide), if_neg (by rw [named]; decide), if_pos named]
  simp only [unfolded, applySlash_eq_ok, payFee_eq_ok, Option.isSome_iff_exists]
  constructor
  · rintro ⟨_, _, treasury, found, offender, offense, proven, new, _, _, ⟨present, _⟩, _⟩
    exact ⟨present, ⟨treasury, found⟩, offender, offense, proven, new⟩
  · rintro ⟨present, ⟨treasury, found⟩, offender, offense, proven, new⟩
    exact ⟨_, evidence, treasury, found, offender, offense, proven, new, funded, _,
      ⟨present, rfl⟩, rfl⟩

/-- A funded vote needs a link that the chain accepts from its voter. -/
theorem applyTx_vote_iff
    (named : tx.recipient = VOTE_SENTINEL)
    (funded : tx.fee ≤ state.balances.getD tx.sender 0) :
    (∃ after, applyTx config block justifiedParent state tx = .ok after) ↔
      state.balances.contains tx.sender = true ∧
        ∃ link, voteLink tx.evidence = .ok link ∧
          checkVote config justifiedParent state tx.sender link = .ok () := by
  have unfolded : applyTx config block justifiedParent state tx =
      applyVote config block justifiedParent state tx := by
    rw [applyTx, if_neg (by rw [named]; decide), if_neg (by rw [named]; decide),
      if_neg (by rw [named]; decide), if_pos named]
  simp only [unfolded, applyVote_eq_ok, payFee_eq_ok]
  constructor
  · rintro ⟨_, link, parsed, checked, _, _, ⟨present, _⟩, _⟩
    exact ⟨present, link, parsed, checked⟩
  · rintro ⟨present, link, parsed, checked⟩
    exact ⟨_, link, parsed, checked, funded, _, ⟨present, rfl⟩, rfl⟩

/-- An affordable transaction is applied exactly when it meets the remaining
rules. -/
theorem applyTx_iff_meetsRules
    (valid : tx.isValid = true)
    (funded : (cost tx config.unbondingBlocks).1 ≤ state.balances.getD tx.sender 0) :
    (∃ after, applyTx config block justifiedParent state tx = .ok after) ↔
      meetsRules config block justifiedParent state tx = true := by
  rw [meetsRules]
  split_ifs with stake unstake slash vote
  · rw [cost_stake _ stake] at funded
    have amount := Transaction.isValid.amount_pos valid (by rw [stake]; decide)
      (by rw [stake]; decide)
    exact applyTx_stake_iff amount (Transaction.isValid.units valid).2.1 stake funded
  · rw [cost_unstake _ unstake] at funded
    rw [applyTx_unstake_iff unstake funded]
    simp only [Bool.and_eq_true, decide_eq_true_eq, and_assoc]
  · rw [cost_special _ (.inl slash)] at funded
    rw [applyTx_slash_iff valid slash funded]
    cases slashOffense tx.evidence with
    | error error => simp
    | ok proven =>
        obtain ⟨offender, offense⟩ := proven
        simp [and_assoc]
  · rw [cost_special _ (.inr vote)] at funded
    rw [applyTx_vote_iff vote funded]
    cases voteLink tx.evidence with
    | error error => simp
    | ok link => simp [succeeded_iff, exists_unit]
  · rw [cost_payment _ unstake slash vote] at funded
    exact applyTx_payment_iff stake unstake slash vote funded

end

/-! ## Nonces and liquid balances along a block -/

section

variable {config : Config} {block : Block} {justifiedParent : Finset Str}
  {before after : LedgerState} {tx : Transaction}

/-- No liquid balance falls further than selection accounts for. -/
theorem Applied.balances_le
    (healthy : Healthy block.index before)
    (amount : 0 ≤ tx.amount)
    (fee : 0 ≤ tx.fee)
    (applied : Applied config block justifiedParent before tx after)
    (address : Str) :
    before.balances.getD address 0 +
        (if tx.sender = address then (cost tx config.unbondingBlocks).2 else 0) ≤
      after.balances.getD address 0 := by
  cases applied with
  | stake named moved _ =>
      obtain ⟨_, _, rfl⟩ := (applyStake_eq_ok _ _ _ _).mp moved
      simp only [cost_stake _ named, getD_credit]
      split_ifs <;> omega
  | unstake named moved _ =>
      obtain ⟨_, _, _, _, _, rfl⟩ := (applyUnstake_eq_ok _ _ _ _ _).mp moved
      simp only [cost_unstake _ named]
      by_cases delayed : 0 < config.unbondingBlocks
      · simp only [delayed, if_true, getD_credit]
        split_ifs <;> omega
      · simp only [delayed, if_false, getD_credit]
        split_ifs <;> omega
  | slash named moved =>
      obtain ⟨_, treasury, _, offender, _, _, _, funded, paid, charged, rfl⟩ :=
        (applySlash_eq_ok _ _ _ _ _).mp moved
      have bonded := (healthy.payFee fee funded charged).bonded_nonneg offender
      obtain ⟨shareNonneg, shareSmall⟩ := reporterShare_bounds bonded
      have charge : before.balances.getD address 0 +
          (if tx.sender = address then -tx.fee else 0) ≤ paid.balances.getD address 0 := by
        obtain ⟨_, rfl⟩ := (payFee_eq_ok _ _ _ _).mp charged
        simp only [getD_credit]
        split_ifs <;> omega
      simp only [cost_special _ (.inl named), getD_redistribute]
      split_ifs at charge ⊢ <;> omega
  | vote named moved =>
      obtain ⟨link, _, _, _, paid, charged, rfl⟩ := (applyVote_eq_ok _ _ _ _ _ _).mp moved
      obtain ⟨_, rfl⟩ := (payFee_eq_ok _ _ _ _).mp charged
      simp only [cost_special _ (.inr named), tallyLink_balances, recordVote_balances, getD_credit]
      split_ifs <;> omega
  | payment _ notUnstake notSlash notVote moved _ =>
      obtain ⟨_, rfl⟩ := (applyPayment_eq_ok _ _ _ _).mp moved
      simp only [cost_payment _ notUnstake notSlash notVote, getD_credit]
      split_ifs <;> omega

end

/-! ## Applying a selection -/

namespace ProofOfStakeChain

/-- The state before the transactions of a block. -/
def stateBefore (chain : ProofOfStakeChain) (block : Block) : LedgerState :=
  applyBlockPre chain.config block chain.state

/-- The state after some transactions of a block. -/
def applyPart (chain : ProofOfStakeChain) (block : Block) (transactions : List Transaction) :
    Except Error LedgerState :=
  applyTxs chain.config block chain.state.justified (chain.stateBefore block) transactions

/-- The ledger inside a block follows the nonces of selection and holds at least
the balances it counts with. -/
structure Tracks
    (chain : ProofOfStakeChain)
    (block : Block)
    (earlier : List Transaction)
    (state : LedgerState) : Prop where
  nonces : ∀ address, state.nonces.getD address 0 =
    chain.state.nonces.getD address 0 + (Mempool.ofSender address earlier).length
  balances : ∀ address, chain.balanceOf address +
    Mempool.spent chain.config.unbondingBlocks (Mempool.ofSender address earlier) ≤
      state.balances.getD address 0
  healthy : Healthy block.index state

section

variable {args : GenesisArgs} {chain : ProofOfStakeChain} {block : Block}
  {earlier : List Transaction} {before after : LedgerState} {tx : Transaction}

theorem tracks_start
    (healthy : Healthy chain.head.index chain.state)
    (next : block.index = chain.head.index + 1) :
    Tracks chain block [] (chain.stateBefore block) := by
  refine ⟨fun address => ?_, fun address => ?_, applyBlockPre_healthy healthy next⟩
  · rw [stateBefore, applyBlockPre_nonces]
    exact (add_zero _).symm
  · have due : 0 ≤ released block.index (chain.state.unbonding.getD address []) := by
      refine List.sum_nonneg fun amount inside => ?_
      obtain ⟨entry, present, rfl⟩ := List.mem_map.mp inside
      exact (healthy.queues address entry (List.mem_of_mem_filter present)).1.le
    have matured := getD_balances_matureUnbonding block.index chain.state address
    have same : (chain.stateBefore block).balances =
        (matureUnbonding block.index chain.state).balances := by
      rw [stateBefore, applyBlockPre_eq]
    rw [same, matured]
    have nothing : Mempool.ofSender address [] = [] := rfl
    rw [nothing, Mempool.spent_nil, balanceOf]
    omega

theorem Tracks.step
    (tracks : Tracks chain block earlier before)
    (valid : tx.isValid = true)
    (nonce : before.nonces.getD tx.sender 0 = tx.nonce)
    (applied : Applied chain.config block chain.state.justified before tx after) :
    Tracks chain block (earlier ++ [tx]) after := by
  refine ⟨fun address => ?_, fun address => ?_, tracks.healthy.applied valid applied⟩
  · have counted := tracks.nonces address
    rw [applied.getD_nonces, Mempool.ofSender_append, Mempool.ofSender_singleton,
      List.length_append]
    by_cases same : tx.sender = address
    · subst same
      rw [if_pos rfl, if_pos rfl, ← nonce, counted, List.length_singleton]
      push_cast
      omega
    · rw [if_neg same, if_neg same, counted, List.length_nil, Nat.add_zero]
  · have counted := tracks.balances address
    obtain ⟨amount, fee, _⟩ := Transaction.isValid.units valid
    have moved := applied.balances_le tracks.healthy amount fee address
    rw [Mempool.ofSender_append, Mempool.ofSender_singleton, Mempool.spent_append]
    by_cases same : tx.sender = address
    · rw [if_pos same, Mempool.spent_singleton]
      rw [if_pos same] at moved
      omega
    · rw [if_neg same, Mempool.spent_nil]
      rw [if_neg same] at moved
      omega

/-- What a part of a block leaves behind. -/
theorem tracks_of_ran
    {seen : List Str}
    {state : LedgerState}
    (healthy : Healthy chain.head.index chain.state)
    (next : block.index = chain.head.index + 1)
    (ran : earlier.foldlM (applyNext chain.config block chain.state.justified)
      ([], chain.stateBefore block) = .ok (seen, state)) :
    seen = (earlier.map Transaction.txid).reverse ∧ Tracks chain block earlier state := by
  induction earlier using List.reverseRecOn generalizing seen state with
  | nil =>
      cases ran
      exact ⟨rfl, tracks_start healthy next⟩
  | append_singleton part last inductionHypothesis =>
      obtain ⟨⟨seenBefore, middle⟩, ranBefore, stepped⟩ := (foldlM_concat_eq_ok _ _ _ _).mp ran
      obtain ⟨rfl, tracks⟩ := inductionHypothesis ranBefore
      obtain ⟨_, valid, nonce, rfl, applied⟩ := (applyNext_eq_ok _ _ _ _ _ _).mp stepped
      refine ⟨by simp, tracks.step valid nonce ((applyTx_eq_ok _ _ _ _ _ _).mp applied)⟩

/-- A selected transaction is applied after its predecessors exactly when it
meets the remaining rules. -/
theorem applyNext_select_iff
    {mempool : Mempool}
    {maxCount : Nat}
    {later : List Transaction}
    {seen : List Str}
    {state : LedgerState}
    (sound : mempool.Sound)
    (healthy : Healthy chain.head.index chain.state)
    (next : block.index = chain.head.index + 1)
    (selected : mempool.select chain maxCount = earlier ++ tx :: later)
    (ran : earlier.foldlM (applyNext chain.config block chain.state.justified)
      ([], chain.stateBefore block) = .ok (seen, state)) :
    (∃ progress, applyNext chain.config block chain.state.justified (seen, state) tx =
      .ok progress) ↔ meetsRules chain.config block chain.state.justified state tx = true := by
  obtain ⟨rfl, tracks⟩ := tracks_of_ran healthy next ran
  obtain ⟨nonce, affordable⟩ := Mempool.select_next selected
  have inside : tx ∈ mempool.select chain maxCount := by
    rw [selected]
    exact List.mem_append_right _ List.mem_cons_self
  have valid := Mempool.select_valid sound inside
  have fresh : tx.txid ∉ (earlier.map Transaction.txid).reverse := by
    rw [List.mem_reverse]
    exact Mempool.select_fresh sound selected
  have expected : state.nonces.getD tx.sender 0 = tx.nonce := by
    rw [nonce, tracks.nonces]
  have funded : (cost tx chain.config.unbondingBlocks).1 ≤ state.balances.getD tx.sender 0 :=
    affordable.trans (tracks.balances tx.sender)
  rw [← applyTx_iff_meetsRules valid funded]
  constructor
  · rintro ⟨progress, stepped⟩
    exact ⟨progress.2, ((applyNext_eq_ok _ _ _ _ _ _).mp stepped).2.2.2.2⟩
  · rintro ⟨after, applied⟩
    exact ⟨(tx.txid :: (earlier.map Transaction.txid).reverse, after),
      (applyNext_eq_ok _ _ _ _ _ _).mpr ⟨fresh, valid, expected, rfl, applied⟩⟩

/-- Every selected transaction meets the remaining rules in the state that its
predecessors leave. -/
def SelectionMeetsRules
    (chain : ProofOfStakeChain)
    (block : Block)
    (selected : List Transaction) : Prop :=
  ∀ earlier tx later, selected = earlier ++ tx :: later →
    ∀ state, chain.applyPart block earlier = .ok state →
      meetsRules chain.config block chain.state.justified state tx = true

/-- The chain applies a selection exactly when it meets the remaining rules. -/
theorem applyPart_select_iff
    {mempool : Mempool}
    {maxCount : Nat}
    (sound : mempool.Sound)
    (healthy : Healthy chain.head.index chain.state)
    (next : block.index = chain.head.index + 1) :
    (∃ after, chain.applyPart block (mempool.select chain maxCount) = .ok after) ↔
      chain.SelectionMeetsRules block (mempool.select chain maxCount) := by
  simp only [SelectionMeetsRules, applyPart, applyTxs_eq_ok]
  rw [exists_comm, ← Prod.exists', foldlM_succeeds_iff]
  constructor
  · rintro succeeds earlier tx later selected state ⟨seen, ran⟩
    exact (applyNext_select_iff sound healthy next selected ran).mp
      (succeeds earlier tx later selected (seen, state) ran)
  · rintro meets earlier tx later selected ⟨seen, state⟩ ran
    exact (applyNext_select_iff sound healthy next selected ran).mpr
      (meets earlier tx later selected state ⟨seen, ran⟩)

end

end ProofOfStakeChain

end

end Mindees
