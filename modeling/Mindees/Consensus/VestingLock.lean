import Mindees.Consensus.Supply

/-!
# The vesting lock over whole runs

Payments, stakes and unstakes keep what is locked in the holding of their
sender.  Votes and slashes pay their fee without that check, so the lock holds
over a run exactly as long as these fees, less what the transaction hands back
to its sender, come out of unlocked coins.
-/

namespace Mindees

open Library

/-- The grants that the constructor accepts are valid and covered. -/
theorem foldlM_checkGrant
    {balances stakes : Dict Str Int}
    {entries : List (Str × List Int)}
    (ran : entries.foldlM (checkGrant balances stakes) () = .ok ()) :
    ∀ entry ∈ entries, (toGrant entry.2).Valid ∧
      (toGrant entry.2).total ≤ balances.getD entry.1 0 + stakes.getD entry.1 0 := by
  induction entries with
  | nil => simp
  | cons entry rest inductionHypothesis =>
      obtain ⟨⟨⟩, first, remaining⟩ := (foldlM_cons_eq_ok _ _ _ _).mp ran
      obtain ⟨address, grant⟩ := entry
      intro other present
      rcases List.mem_cons.mp present with rfl | later
      · simp only [checkGrant, rejectIf, bind_eq_ok, raiseIf_eq_ok, exists_unit, not_or,
          not_not, Bool.not_eq_false, not_lt] at first
        obtain ⟨⟨size, units⟩, covered⟩ := first
        -- four numbers, each of them in units
        obtain ⟨total, grant, rfl⟩ := List.exists_cons_of_length_eq_add_one size
        obtain ⟨start, cliff, duration, rfl⟩ := List.length_eq_three.mp (Nat.succ.inj size)
        simp only [List.all_cons, List.all_nil, Bool.and_true, Bool.and_eq_true,
          isUnits_iff] at units
        obtain ⟨nonnegTotal, nonnegStart, nonnegCliff, nonnegDuration⟩ := units
        exact ⟨⟨nonnegTotal, nonnegStart, nonnegCliff, nonnegDuration⟩, covered⟩
      · exact inductionHypothesis remaining other later

/-! ## What a slash and a vote leave to their sender -/

section

variable [Primitives]

/-- The offender that a slash proves. -/
def offenderOf (tx : Transaction) : Option Str :=
  if tx.recipient = SLASH_SENTINEL then
    match slashOffense tx.evidence with
    | .ok (offender, _) => some offender
    | .error _ => none
  else none

theorem offenderOf_eq_some_iff
    (tx : Transaction)
    (offender : Str) :
    offenderOf tx = some offender ↔ tx.recipient = SLASH_SENTINEL ∧
      ∃ offense, slashOffense tx.evidence = .ok (offender, offense) := by
  rw [offenderOf]
  split_ifs with named
  · rw [and_iff_right named]
    cases slashOffense tx.evidence with
    | error raised => simp
    | ok proven => simp [Prod.ext_iff]
  · simp [named]

/-- What a slash hands to a reporter who is not the offender. -/
def reward (config : Config) (state : LedgerState) (tx : Transaction) : Int :=
  match config.treasuryAddress, offenderOf tx with
  | some treasury, some offender =>
      let bonded := state.bondedOf offender
      reporterShare bonded + if treasury = tx.sender then bonded - reporterShare bonded else 0
  | _, _ => 0

/-- The vesting rule, asked of a vote or slash before it is applied: what its
sender holds, less the fee unless it proposes the block itself, plus its reward,
still covers what its grant locks.  Offenders are exempt. -/
def FeeIsUnlocked
    (config : Config)
    (block : Block)
    (state : LedgerState)
    (tx : Transaction) : Prop :=
  ∀ grant ∈ config.vesting.get? tx.sender,
    tx.recipient = SLASH_SENTINEL ∨ tx.recipient = VOTE_SENTINEL →
    tx.sender ∉ state.slashedAddrs → offenderOf tx ≠ some tx.sender →
    grant.lockedAt block.index ≤
      state.holding tx.sender - (if block.validator = tx.sender then 0 else tx.fee) +
        reward config state tx

instance
    (config : Config)
    (block : Block)
    (state : LedgerState)
    (tx : Transaction) :
    Decidable (FeeIsUnlocked config block state tx) :=
  inferInstanceAs (Decidable (∀ grant ∈ config.vesting.get? tx.sender, _))

/-- Every vote and slash of a block pays its fee from unlocked coins, in the
state that the transactions before it lead to. -/
def FeesAreUnlocked (chain : ProofOfStakeChain) (block : Block) : Prop :=
  ∀ earlier tx later, block.transactions = earlier ++ tx :: later →
    ∀ state, applyTxs chain.config block chain.state.justified
        (applyBlockPre chain.config block chain.state) earlier = .ok state →
      FeeIsUnlocked chain.config block state tx

/-- A block without transactions pays no fees. -/
theorem feesAreUnlocked_nil
    {chain : ProofOfStakeChain}
    {block : Block}
    (none : block.transactions = []) :
    FeesAreUnlocked chain block := by
  intro earlier tx later position
  simp [none] at position

/-- A block of one transaction applies it to the state after the hook. -/
theorem feesAreUnlocked_single
    {chain : ProofOfStakeChain}
    {block : Block}
    {tx : Transaction}
    (only : block.transactions = [tx])
    (unlocked : FeeIsUnlocked chain.config block
      (applyBlockPre chain.config block chain.state) tx) :
    FeesAreUnlocked chain block := by
  intro earlier other later position state reached
  rw [only] at position
  obtain ⟨rfl, rfl, rfl⟩ : earlier = [] ∧ tx = other ∧ [] = later := by
    cases earlier with
    | nil => simpa using position
    | cons first rest => simp at position
  simp only [applyTxs_eq_ok, List.foldlM_nil, pure_eq_ok, Prod.mk.injEq] at reached
  obtain ⟨_, _, rfl⟩ := reached
  exact unlocked

/-! ## One transaction -/

section

variable {config : Config} {block : Block} {justifiedParent : Finset Str}
  {state after : LedgerState} {tx : Transaction}

/-- Offenders stay on record, and a slash adds the one it proves. -/
theorem Applied.slashedAddrs
    (applied : Applied config block justifiedParent state tx after) :
    (∀ address ∈ state.slashedAddrs, address ∈ after.slashedAddrs) ∧
    ∀ offender, offenderOf tx = some offender → offender ∈ after.slashedAddrs := by
  by_cases named : tx.recipient = SLASH_SENTINEL
  · obtain ⟨_, _, _, offender, _, proof, _, _, paid, charged, rfl⟩ :=
      (applySlash_eq_ok config block state after tx).mp (applied.of_slash named)
    obtain ⟨_, rfl⟩ := (payFee_eq_ok block state paid tx).mp charged
    refine ⟨fun _ present => Finset.mem_insert_of_mem present, fun other proven => ?_⟩
    rw [offenderOf, if_pos named, proof] at proven
    cases proven
    exact Finset.mem_insert_self _ _
  · rw [applied.slashedAddrs_eq named]
    refine ⟨fun _ present => present, fun offender proven => ?_⟩
    rw [offenderOf, if_neg named] at proven
    cases proven

/-- Nobody but the sender and an offender loses coins. -/
theorem Applied.holding_le_of_ne_sender
    (applied : Applied config block justifiedParent state tx after)
    (healthy : Healthy block.index state)
    (valid : tx.isValid = true)
    {address : Str}
    (notSender : tx.sender ≠ address)
    (innocent : offenderOf tx ≠ some address) :
    state.holding address ≤ after.holding address := by
  obtain ⟨amount, fee, _⟩ := Transaction.isValid.units valid
  have gain : ∀ moved, 0 ≤ moved → 0 ≤ flow block tx moved address := by
    intro moved nonneg
    simp only [flow, if_neg notSender]
    split_ifs <;> omega
  have gain_fee := gain 0 le_rfl
  cases applied with
  | stake _ moved _ =>
      rw [applyStake_holding moved address]
      omega
  | unstake _ moved _ =>
      rw [applyUnstake_holding moved address]
      omega
  | slash named moved =>
      obtain ⟨treasury, offender, offense, _, proven, holding⟩ := applySlash_holding moved
      have convicted : offenderOf tx = some offender := by
        rw [offenderOf, if_pos named, proven]
      have other : offender ≠ address := by
        rintro rfl
        exact innocent convicted
      have shares := reporterShare_bounds (healthy.bonded_nonneg offender)
      rw [holding address, if_neg other]
      split_ifs <;> omega
  | vote _ moved =>
      rw [applyVote_holding moved address]
      omega
  | payment _ _ _ _ moved _ =>
      have gain_amount := gain tx.amount amount
      rw [applyPayment_holding moved address]
      omega

/-- What a vote or a slash leaves to a sender who is not its offender. -/
theorem Applied.holding_sender
    (applied : Applied config block justifiedParent state tx after)
    (special : tx.recipient = SLASH_SENTINEL ∨ tx.recipient = VOTE_SENTINEL)
    (notOffender : offenderOf tx ≠ some tx.sender) :
    after.holding tx.sender =
      state.holding tx.sender - (if block.validator = tx.sender then 0 else tx.fee) +
        reward config state tx := by
  have charge : flow block tx 0 tx.sender =
      -(if block.validator = tx.sender then 0 else tx.fee) := by
    simp only [flow]
    split_ifs <;> omega
  cases applied with
  | stake named _ _ =>
      rw [named] at special
      exact absurd special (by decide)
  | unstake named _ _ =>
      rw [named] at special
      exact absurd special (by decide)
  | slash named moved =>
      obtain ⟨treasury, offender, offense, account, proven, holding⟩ := applySlash_holding moved
      have convicted : offenderOf tx = some offender := by
        rw [offenderOf, if_pos named, proven]
      have other : offender ≠ tx.sender := by
        rintro rfl
        exact notOffender convicted
      have paidOut : reward config state tx = reporterShare (state.bondedOf offender) +
          if treasury = tx.sender then
            state.bondedOf offender - reporterShare (state.bondedOf offender)
          else 0 := by
        rw [reward, account, convicted]
      have toReporter : beneficiary treasury tx.sender offender = tx.sender :=
        if_pos (Ne.symm other)
      rw [holding tx.sender, charge, paidOut, if_neg other, if_pos toReporter]
      omega
  | vote named moved =>
      have unpaid : reward config state tx = 0 := by
        have innocent : offenderOf tx = none := by
          rw [offenderOf, if_neg (by rw [named]; decide)]
        rw [reward, innocent]
        cases config.treasuryAddress <;> rfl
      rw [applyVote_holding moved tx.sender, charge, unpaid]
      omega
  | payment _ _ notSlash notVote _ _ =>
      exact absurd special (not_or.mpr ⟨notSlash, notVote⟩)

/-- A transaction keeps the lock of every holder that is not an offender when
it is no vote or slash, or pays its fee from unlocked coins. -/
theorem Applied.keeps_lock
    (applied : Applied config block justifiedParent state tx after)
    (healthy : Healthy block.index state)
    (valid : tx.isValid = true)
    (unlocked : FeeIsUnlocked config block state tx)
    {address : Str}
    {grant : Grant}
    (granted : config.vesting.get? address = some grant)
    (notOffender : address ∉ after.slashedAddrs)
    (kept : grant.lockedAt block.index ≤ state.holding address) :
    grant.lockedAt block.index ≤ after.holding address := by
  by_cases sender : tx.sender = address
  · subst sender
    obtain ⟨older, newer⟩ := applied.slashedAddrs
    have enforced : enforceVesting config tx.sender block.index after = .ok () →
        grant.lockedAt block.index ≤ after.holding tx.sender := by
      intro checked
      have afterwards := healthy.applied valid applied
      have rich := afterwards.balances tx.sender
      have staked := afterwards.bonded_nonneg tx.sender
      have rule := (enforceVesting_eq_ok _ _ _ _).mp checked grant granted
      simp only [LedgerState.holding, LedgerState.bondedOf] at staked rule ⊢
      omega
    have special : tx.recipient = SLASH_SENTINEL ∨ tx.recipient = VOTE_SENTINEL →
        grant.lockedAt block.index ≤ after.holding tx.sender := by
      intro named
      have notConvicted : offenderOf tx ≠ some tx.sender :=
        fun convicted => notOffender (newer tx.sender convicted)
      rw [applied.holding_sender named notConvicted]
      exact unlocked grant granted named (fun slashed => notOffender (older _ slashed))
        notConvicted
    cases applied with
    | stake _ _ checked => exact enforced checked
    | unstake _ _ checked => exact enforced checked
    | slash named _ => exact special (.inl named)
    | vote named _ => exact special (.inr named)
    | payment _ _ _ _ _ checked => exact enforced checked
  · have innocent : offenderOf tx ≠ some address :=
      fun convicted => notOffender (applied.slashedAddrs.2 address convicted)
    exact kept.trans (applied.holding_le_of_ne_sender healthy valid sender innocent)

end

/-! ## Whole blocks -/

/-- Every holder of a grant that was never slashed holds what is locked. -/
def LocksHold (vesting : Dict Str Grant) (height : Int) (state : LedgerState) : Prop :=
  ∀ address grant, vesting.get? address = some grant → address ∉ state.slashedAddrs →
    grant.lockedAt height ≤ state.holding address

namespace ProofOfStakeChain

variable {args : GenesisArgs} {chain : ProofOfStakeChain}

theorem init_locksHold
    (initialised : init args = .ok chain) :
    (∀ address grant, chain.config.vesting.get? address = some grant → grant.Valid) ∧
      LocksHold chain.config.vesting chain.head.index chain.state := by
  obtain ⟨_, balances, stakes, _, granted, _, config, state, _⟩ :=
    (init_eq_ok args chain).mp initialised
  have checked := foldlM_checkGrant granted
  have listed : ∀ address grant, chain.config.vesting.get? address = some grant →
      grant.Valid ∧ grant.total ≤ balances.getD address 0 + stakes.getD address 0 := by
    intro address grant found
    rw [config, Dict.get?_mapValues, Option.map_eq_some_iff] at found
    obtain ⟨numbers, recorded, rfl⟩ := found
    exact checked (address, numbers) ((args.vesting.mem_entries_iff address numbers).mpr recorded)
  refine ⟨fun address grant found => (listed address grant found).1,
    fun address grant found _ => ?_⟩
  obtain ⟨valid, covered⟩ := listed address grant found
  have bounded := valid.lockedAt_le_total chain.head.index
  simp only [state, genesisState, LedgerState.holding, LedgerState.unbondingOf,
    getD_withTreasury, Dict.getD_empty, queueTotal_nil]
  omega

theorem Reachable.grants_valid
    (reachable : Reachable args chain)
    {address : Str}
    {grant : Grant}
    (found : chain.config.vesting.get? address = some grant) :
    grant.Valid := by
  induction reachable with
  | genesis initialised => exact (init_locksHold initialised).1 address grant found
  | block _ submitted inductionHypothesis =>
      obtain ⟨_, config, _⟩ := (submitBlock_eq_ok _ _ _).mp submitted
      exact inductionHypothesis (config ▸ found)

/-- In every run in which votes and slashes pay their fees from unlocked coins,
every grant holder that was never slashed holds what its grant locks. -/
theorem ReachableBy.locks_hold
    (reached : ReachableBy args FeesAreUnlocked chain) :
    LocksHold chain.config.vesting chain.head.index chain.state := by
  induction reached with
  | genesis initialised => exact (init_locksHold initialised).2
  | @block before after block earlier unlocked submitted inductionHypothesis =>
      obtain ⟨applied, config, _⟩ := (submitBlock_eq_ok _ _ _).mp submitted
      obtain ⟨checked, _⟩ := (apply_eq_ok _ _ _).mp applied
      obtain ⟨_, next, _, _, ran⟩ := (applyChecked_eq_ok _ _ _).mp checked
      rw [head_submitBlock submitted, config]
      let invariant := fun state =>
        Healthy block.index state ∧ LocksHold before.config.vesting block.index state
      have start : invariant (applyBlockPre before.config block before.state) := by
        refine ⟨applyBlockPre_healthy earlier.reachable.healthy next, ?_⟩
        intro address grant granted notOffender
        rw [applyBlockPre_eq] at notOffender
        rw [holding_applyBlockPre]
        have older : before.head.index ≤ block.index := by omega
        exact ((earlier.reachable.grants_valid granted).lockedAt_antitone older).trans
          (inductionHypothesis address grant granted notOffender)
      have finish : invariant after.state := by
        refine applyTxs_invariant_along invariant ?_ start ran
        rintro prior tx rest position state state' reached ⟨healthy, locked⟩ valid _ applied
        refine ⟨healthy.applied valid applied, fun address grant granted notOffender => ?_⟩
        have innocent : address ∉ state.slashedAddrs :=
          fun slashed => notOffender (applied.slashedAddrs.1 address slashed)
        exact applied.keeps_lock healthy valid (unlocked prior tx rest position state reached)
          granted notOffender (locked address grant granted innocent)
      exact finish.2

end ProofOfStakeChain

end

/-! ## A covered fee and a leaking one -/

namespace VestingSample

open ProofOfStakeChain

attribute [local instance] Symbolic.primitives

/-- A founder whose grant vests much later, and a large validator. -/
def keyring : List Wallet := [Symbolic.wallet 1, Symbolic.wallet 2]

def founder : Str := (Symbolic.wallet 1).address

/-- A founder holding a thousand units, part of them locked for long. -/
def args (granted : Int) : GenesisArgs where
  allocations :=
    (Dict.empty.set founder 1000).set (Symbolic.wallet 2).address (MAX_SUPPLY_UNITS - 1000)
  initialStakes := (Dict.empty.set founder 100).set (Symbolic.wallet 2).address 1000000
  vesting := Dict.empty.set founder [granted, 0, 100, 100]
  epoch := 1

/-- One empty block to vote for, and the founder's vote for it at a price. -/
def rounds (fee : Int) : List (List Draft) := [[], [.vote 0 0 1 fee]]

theorem opened : succeeded (init (args 600)) = true := by decide +kernel

/-- The genesis of a founder that can spend 400 units. -/
def origin : ProofOfStakeChain := outcome (init (args 600)) opened

theorem extended : succeeded (addRound keyring origin []) = true := by decide +kernel

/-- One block later. -/
def first : ProofOfStakeChain := outcome (addRound keyring origin []) extended

theorem voted : succeeded (addRound keyring first [.vote 0 0 1 300]) = true := by
  decide +kernel

/-- The founder has voted for 300 units. -/
def second : ProofOfStakeChain := outcome (addRound keyring first [.vote 0 0 1 300]) voted

theorem second_reached : ReachableBy (args 600) FeesAreUnlocked second := by
  obtain ⟨submittedFirst, signedFirst⟩ := addRound_submits (eq_ok_outcome _ extended)
  obtain ⟨submittedSecond, _⟩ := addRound_submits (eq_ok_outcome _ voted)
  have reachedFirst : ReachableBy (args 600) FeesAreUnlocked first := by
    refine .block (.genesis (eq_ok_outcome _ opened)) (feesAreUnlocked_nil ?_) submittedFirst
    exact (Except.ok.inj signedFirst).symm
  obtain ⟨vote, only⟩ : ∃ vote, second.head.transactions = [vote] :=
    List.length_eq_one_iff.mp (by decide +kernel)
  have fits : ∀ tx ∈ second.head.transactions,
      FeeIsUnlocked first.config second.head
        (applyBlockPre first.config second.head first.state) tx := by
    decide +kernel
  refine .block reachedFirst (feesAreUnlocked_single only (fits vote ?_)) submittedSecond
  rw [only]
  exact List.mem_singleton_self vote

/-- With the fee covered, the founder still holds the 600 units it must. -/
theorem locks_hold_covered :
    second.state.holding founder = 700 ∧
      LocksHold second.config.vesting second.head.index second.state :=
  ⟨by decide +kernel, second_reached.locks_hold⟩

theorem leaked : succeeded (play keyring (args 1000) (rounds 900)) = true := by decide +kernel

/-- The chain in which the founder pays 900 of its 1000 locked units as the fee
of a vote, to the proposer. -/
def leakedChain : ProofOfStakeChain := outcome (play keyring (args 1000) (rounds 900)) leaked

/-- The vote is accepted, and the founder is left with 100 units while all 1000
are locked. -/
theorem vote_fee_spends_locked_coins :
    ¬∀ chain, Reachable (args 1000) chain →
      LocksHold chain.config.vesting chain.head.index chain.state := by
  intro claimed
  have kept := claimed leakedChain (play_reachable (eq_ok_outcome _ leaked)) founder
    ⟨1000, 0, 100, 100⟩ (by decide +kernel) (by decide +kernel)
  have locked : (⟨1000, 0, 100, 100⟩ : Grant).lockedAt leakedChain.head.index = 1000 := by
    decide +kernel
  have left : leakedChain.state.holding founder = 100 := by decide +kernel
  omega

end VestingSample

end Mindees
