import Mindees.Core.Reader
import Mindees.Consensus.VestingLock
import Mindees.Library.Runs

/-!
# Who can propose the next block

An unstake may not withdraw the last stake.  A slash has no such guard, so a
chain keeps an electable proposer exactly as long as no slash takes the stake
of its last validator, unless another one stakes in the rest of the block.
-/

namespace Mindees

open Library

/-- Some address has positive stake. -/
def HasValidator (stakes : Dict Str Int) : Prop := ∃ address, 0 < stakes.getD address 0

/-! ## Elections -/

theorem sortedValidators_sum_pos
    {stakes : Dict Str Int}
    (staked : HasValidator stakes) :
    0 < ((sortedValidators stakes).map fun address => stakes.getD address 0).sum := by
  obtain ⟨address, positive⟩ := staked
  have inside := (mem_sortedValidators stakes address).mpr positive
  have every : ∀ amount ∈ (sortedValidators stakes).map fun address => stakes.getD address 0,
      0 < amount := by
    intro amount present
    obtain ⟨other, listed, rfl⟩ := List.mem_map.mp present
    exact (mem_sortedValidators stakes other).mp listed
  refine List.sum_pos _ every ?_
  exact List.ne_nil_of_mem (List.mem_map.mpr ⟨address, inside, rfl⟩)

/-- Every election returns an address when there is a validator. -/
theorem electValidator_total
    {stakes : Dict Str Int}
    (staked : HasValidator stakes)
    (drawn : Bytes) :
    ∃ address, electValidator stakes drawn = .ok address := by
  have positive := sortedValidators_sum_pos staked
  have some : sortedValidators stakes ≠ [] := by
    intro none
    simp [none] at positive
  simp only [electValidator, rejectIf, bind_eq_ok, raiseIf_eq_ok, exists_unit]
  cases electLoop stakes ((intFromBytes drawn : Int) %
      ((sortedValidators stakes).map fun address => stakes.getD address 0).sum)
      (sortedValidators stakes) 0 with
  | some address => exact ⟨address, positive.ne', rfl⟩
  | none =>
      refine ⟨(sortedValidators stakes).getLast some, positive.ne', ?_⟩
      rw [require_eq_ok, List.getLast?_eq_some_getLast some]

namespace ProofOfStakeChain

/-- Some stake is positive, and every election returns a proposer. -/
def Electable (chain : ProofOfStakeChain) : Prop :=
  (∃ address, 0 < chain.stakeOf address) ∧
    ∀ drawn, ∃ address, electValidator chain.state.stakes drawn = .ok address

theorem electable_iff_hasValidator (chain : ProofOfStakeChain) :
    chain.Electable ↔ HasValidator chain.state.stakes := by
  constructor
  · intro electable
    exact electable.1
  · intro staked
    exact ⟨staked, electValidator_total staked⟩

end ProofOfStakeChain

/-! ## One transaction -/

theorem hasValidator_credit
    {stakes : Dict Str Int}
    {address : Str}
    {amount : Int}
    (nonneg : 0 ≤ stakes.getD address 0)
    (positive : 0 < amount) :
    HasValidator (credit stakes address amount) := by
  refine ⟨address, ?_⟩
  rw [getD_credit, if_pos rfl]
  omega

/-- An unstake leaves a validator. -/
theorem hasValidator_withdrawStake
    {stakes after : Dict Str Int}
    {sender : Str}
    {amount : Int}
    (positive : ∀ address value, stakes.get? address = some value → 0 < value)
    (covered : amount ≤ stakes.getD sender 0)
    (withdrawn : withdrawStake stakes sender amount = .ok after) :
    HasValidator after := by
  obtain ⟨_, guarded, rfl⟩ := (withdrawStake_eq_ok stakes after sender amount).mp withdrawn
  have left : (credit stakes sender (-amount)).getD sender 0 = stakes.getD sender 0 - amount := by
    rw [getD_credit, if_pos rfl, sub_eq_add_neg]
  split_ifs with emptied
  · -- the guard counted another entry
    have several : 1 < (credit stakes sender (-amount)).size := by
      by_contra few
      exact guarded ⟨emptied, not_lt.mp few⟩
    obtain ⟨other, value, different, found⟩ := Dict.exists_other_key several sender
    rw [get?_credit, if_neg different] at found
    refine ⟨other, ?_⟩
    rw [Dict.getD_erase, if_neg different, getD_credit, if_neg different, add_zero,
      Dict.getD_eq_of_get? found]
    exact positive other value found
  · refine ⟨sender, ?_⟩
    omega

section

variable [Primitives]

/-- After a transaction there is a validator exactly when it is a stake, or when
one of the earlier validators is not the offender that it convicts. -/
theorem Applied.hasValidator_iff
    {config : Config}
    {block : Block}
    {justifiedParent : Finset Str}
    {state after : LedgerState}
    {tx : Transaction}
    (applied : Applied config block justifiedParent state tx after)
    (healthy : Healthy block.index state)
    (valid : tx.isValid = true) :
    HasValidator after.stakes ↔ tx.recipient = STAKE_SENTINEL ∨
      ∃ address, 0 < state.stakes.getD address 0 ∧ offenderOf tx ≠ some address := by
  have innocent : tx.recipient ≠ SLASH_SENTINEL → offenderOf tx = none := fun notSlash => if_neg notSlash
  have unchanged : tx.recipient ≠ STAKE_SENTINEL → tx.recipient ≠ SLASH_SENTINEL →
      after.stakes = state.stakes →
      (HasValidator after.stakes ↔ tx.recipient = STAKE_SENTINEL ∨
        ∃ address, 0 < state.stakes.getD address 0 ∧ offenderOf tx ≠ some address) := by
    intro notStake notSlash same
    simp [same, HasValidator, notStake, innocent notSlash]
  cases applied with
  | stake named moved _ =>
      have positive := Transaction.isValid.amount_pos valid
        (by rw [named]; decide) (by rw [named]; decide)
      obtain ⟨_, _, rfl⟩ := (applyStake_eq_ok block state after tx).mp moved
      exact iff_of_true (hasValidator_credit (healthy.stake_nonneg tx.sender) positive)
        (.inl named)
  | unstake named moved _ =>
      have positive := Transaction.isValid.amount_pos valid
        (by rw [named]; decide) (by rw [named]; decide)
      obtain ⟨_, staked, _, stakes, withdrawn, rfl⟩ :=
        (applyUnstake_eq_ok config block state after tx).mp moved
      refine iff_of_true (hasValidator_withdrawStake healthy.stakes staked withdrawn) (.inr ?_)
      refine ⟨tx.sender, by omega, ?_⟩
      rw [innocent (by rw [named]; decide)]
      exact (Option.some_ne_none tx.sender).symm
  | slash named moved =>
      obtain ⟨_, _, _, offender, _, proof, _, _, paid, charged, rfl⟩ :=
        (applySlash_eq_ok config block state after tx).mp moved
      obtain ⟨_, rfl⟩ := (payFee_eq_ok block state paid tx).mp charged
      have convicted : offenderOf tx = some offender := by
        rw [offenderOf, if_pos named, proof]
      have notStake : tx.recipient ≠ STAKE_SENTINEL := by
        rw [named]
        decide
      simp only [HasValidator, confiscate, Dict.getD_erase, convicted, notStake, false_or,
        ne_eq, Option.some.injEq]
      refine exists_congr fun address => ?_
      by_cases same : offender = address
      · simp [same]
      · simp [same]
  | vote named moved =>
      obtain ⟨_, _, _, _, paid, charged, rfl⟩ :=
        (applyVote_eq_ok config block justifiedParent state after tx).mp moved
      obtain ⟨_, rfl⟩ := (payFee_eq_ok block state paid tx).mp charged
      exact unchanged (by rw [named]; decide) (by rw [named]; decide) (by simp)
  | payment notStake _ notSlash _ moved _ =>
      obtain ⟨_, rfl⟩ := (applyPayment_eq_ok block state after tx).mp moved
      exact unchanged notStake notSlash rfl

/-! ## Whole blocks -/

/-- The transaction convicts the only validator of the state that the earlier
transactions of its block lead to. -/
def ConvictsLast
    (config : Config)
    (block : Block)
    (justifiedParent : Finset Str)
    (start : LedgerState)
    (earlier : List Transaction)
    (tx : Transaction) : Prop :=
  ∃ state offender, applyTxs config block justifiedParent start earlier = .ok state ∧
    offenderOf tx = some offender ∧
    ∀ address, 0 < state.stakes.getD address 0 → address = offender

/-- When a transaction of the list convicts the last validator, somebody stakes
after it. -/
def Refills
    (config : Config)
    (block : Block)
    (justifiedParent : Finset Str)
    (start : LedgerState)
    (transactions : List Transaction) : Prop :=
  ∀ earlier tx later, transactions = earlier ++ tx :: later →
    ConvictsLast config block justifiedParent start earlier tx →
    ∃ other ∈ later, other.recipient = STAKE_SENTINEL

section

variable {config : Config} {block : Block} {justifiedParent : Finset Str}
  {start finish : LedgerState} {transactions : List Transaction} {tx : Transaction}

/-- One more transaction refills exactly when it stakes, or when the others do
and it does not convict the last validator. -/
theorem refills_concat
    (reached : applyTxs config block justifiedParent start transactions = .ok finish) :
    Refills config block justifiedParent start (transactions ++ [tx]) ↔
      (tx.recipient = STAKE_SENTINEL ∨
        Refills config block justifiedParent start transactions) ∧
      ∀ offender, offenderOf tx = some offender →
        ∃ address, 0 < finish.stakes.getD address 0 ∧ address ≠ offender := by
  rw [Refills, forall_split_concat (fun earlier tx later =>
    ConvictsLast config block justifiedParent start earlier tx →
      ∃ other ∈ later, other.recipient = STAKE_SENTINEL)]
  have atEnd : (ConvictsLast config block justifiedParent start transactions tx →
      ∃ other ∈ ([] : List Transaction), other.recipient = STAKE_SENTINEL) ↔
      ∀ offender, offenderOf tx = some offender →
        ∃ address, 0 < finish.stakes.getD address 0 ∧ address ≠ offender := by
    simp [ConvictsLast, reached]
  refine and_congr ?_ atEnd
  by_cases stakes : tx.recipient = STAKE_SENTINEL
  · simp [stakes]
  · simp [stakes, Refills]

/-- A block that starts with a validator ends with one exactly when it
refills. -/
theorem hasValidator_applyTxs_iff
    (healthy : Healthy block.index start)
    (staked : HasValidator start.stakes)
    (applied : applyTxs config block justifiedParent start transactions = .ok finish) :
    HasValidator finish.stakes ↔ Refills config block justifiedParent start transactions := by
  induction transactions using List.reverseRecOn generalizing finish with
  | nil =>
      obtain ⟨_, ran⟩ := (applyTxs_eq_ok _ _ _ _ _ _).mp applied
      cases ran
      refine iff_of_true staked fun earlier tx later position => ?_
      exact absurd position (by simp)
  | append_singleton transactions tx inductionHypothesis =>
      obtain ⟨before, reached, valid, moved⟩ := applyTxs_concat applied
      have kept : Healthy block.index before := applyTxs_invariant (Healthy block.index)
        (fun tx _ before after healthy valid _ applied => healthy.applied valid applied)
        healthy reached
      rw [moved.hasValidator_iff kept valid, refills_concat reached,
        ← inductionHypothesis reached]
      by_cases stakes : tx.recipient = STAKE_SENTINEL
      · have innocent : offenderOf tx = none := if_neg (by rw [stakes]; decide)
        simp [stakes, innocent]
      · cases proven : offenderOf tx with
        | none => simp [stakes, HasValidator]
        | some offender =>
            simp only [stakes, false_or, HasValidator, ne_eq, Option.some.injEq, forall_eq']
            constructor
            · rintro ⟨address, positive, other⟩
              exact ⟨⟨address, positive⟩, address, positive, fun same => other same.symm⟩
            · rintro ⟨_, address, positive, other⟩
              exact ⟨address, positive, fun same => other same.symm⟩

end

namespace ProofOfStakeChain

variable {args : GenesisArgs} {chain after : ProofOfStakeChain} {block : Block}

/-- No slash of the block takes the stake of the last validator, unless somebody
stakes in the rest of the block. -/
def KeepsValidator (chain : ProofOfStakeChain) (block : Block) : Prop :=
  Refills chain.config block chain.state.justified
    (applyBlockPre chain.config block chain.state) block.transactions

/-- Without an electable proposer no block is accepted. -/
theorem electable_of_submitBlock
    (submitted : chain.submitBlock block = .ok after) :
    chain.Electable := by
  obtain ⟨applied, _⟩ := (submitBlock_eq_ok _ _ _).mp submitted
  obtain ⟨checked, _⟩ := (apply_eq_ok _ _ _).mp applied
  obtain ⟨_, _, _, proposer, _⟩ := (applyChecked_eq_ok _ _ _).mp checked
  rw [electable_iff_hasValidator]
  exact ⟨block.validator, checkProposer_pos proposer⟩

/-- An accepted block keeps an electable proposer exactly when it keeps a
validator. -/
theorem Reachable.electable_submitBlock_iff
    (reachable : Reachable args chain)
    (submitted : chain.submitBlock block = .ok after) :
    after.Electable ↔ chain.KeepsValidator block := by
  obtain ⟨applied, _⟩ := (submitBlock_eq_ok _ _ _).mp submitted
  obtain ⟨checked, _⟩ := (apply_eq_ok _ _ _).mp applied
  obtain ⟨_, next, _, proposer, ran⟩ := (applyChecked_eq_ok _ _ _).mp checked
  rw [electable_iff_hasValidator]
  refine hasValidator_applyTxs_iff (applyBlockPre_healthy reachable.healthy next) ?_ ran
  rw [applyBlockPre_stakes]
  exact ⟨block.validator, checkProposer_pos proposer⟩

/-- A chain that starts with a validator has an electable proposer after any
accepted blocks exactly when each of them keeps a validator. -/
theorem electable_iff
    {start : ProofOfStakeChain}
    {blocks : List Block}
    (initialised : init args = .ok start)
    (staked : ∃ address, 0 < start.stakeOf address)
    (accepted : start.submitBlocks blocks = .ok chain) :
    chain.Electable ↔ ∀ earlier block later, blocks = earlier ++ block :: later →
      ∀ before, start.submitBlocks earlier = .ok before → before.KeepsValidator block := by
  induction blocks using List.reverseRecOn generalizing chain with
  | nil =>
      cases accepted
      refine iff_of_true ((electable_iff_hasValidator start).mpr staked) ?_
      intro earlier block later position
      exact absurd position (by simp)
  | append_singleton blocks block inductionHypothesis =>
      obtain ⟨before, reached, submitted⟩ := (foldlM_concat_eq_ok _ _ _ _).mp accepted
      have reachable : Reachable args before :=
        foldlM_invariant (Reachable args) (fun _ _ _ _ earlier => earlier.block)
          (.genesis initialised) reached
      rw [forall_split_concat (fun earlier block _ => ∀ before,
          start.submitBlocks earlier = .ok before → before.KeepsValidator block),
        ← inductionHypothesis reached, reachable.electable_submitBlock_iff submitted]
      constructor
      · intro keeps
        refine ⟨electable_of_submitBlock submitted, fun other again => ?_⟩
        obtain rfl := Except.ok.inj (reached.symm.trans again)
        exact keeps
      · rintro ⟨_, keeps⟩
        exact keeps before reached

end ProofOfStakeChain

end

/-! ## The last validator is slashed -/

namespace ElectableSample

open ProofOfStakeChain

attribute [local instance] Symbolic.reading

/-- The only validator. -/
def founder : Wallet := Symbolic.wallet 1

def reporter : Wallet := Symbolic.wallet 2

def args : GenesisArgs where
  allocations :=
    (Dict.empty.set founder.address (MAX_SUPPLY_UNITS - 1000)).set reporter.address 1000
  initialStakes := Dict.empty.set founder.address 500
  treasuryAddress := some (Symbolic.wallet 3).address

/-- The chain before and after a block, and the block. -/
structure Scene where
  start : ProofOfStakeChain
  block : Block
  after : ProofOfStakeChain

/-- The founder seals two blocks of one height, and a block with the report of
the pair is accepted. -/
def stage : Except Error Scene := do
  let start ← init args
  let first ← sealBlock start.head.hash 1 founder [] 0 0 0
  let second ← sealBlock start.head.hash 1 founder [] 1 0 0
  let tx ← slashTx reporter first second 0 0 0
  let block ← sealBlock start.head.hash 1 founder [tx] 1 0 0
  let after ← start.submitBlock block
  raiseIf (start.stakeOf founder.address ≤ 0 ∨
    succeeded (electValidator after.state.stakes []) = true) Error.valueError
  pure { start, block, after }

theorem staged : succeeded stage = true := by decide +kernel

/-- A genesis with a validator, and a block after which there is none. -/
theorem emptied :
    ∃ start block after, init args = .ok start ∧ (∃ address, 0 < start.stakeOf address) ∧
      start.submitBlocks [block] = .ok after ∧ ¬after.Electable := by
  obtain ⟨scene, ran⟩ := (succeeded_iff stage).mp staged
  simp only [stage, bind_eq_ok, raiseIf_eq_ok, exists_unit, pure_eq_ok, not_or, not_le,
    Bool.not_eq_true] at ran
  obtain ⟨start, initialised, _, _, _, _, _, _, block, _, after, submitted, ⟨staked, none⟩, _⟩ :=
    ran
  refine ⟨start, block, after, initialised, ⟨founder.address, staked⟩, ?_, ?_⟩
  · rw [submitBlocks, foldlM_cons_eq_ok]
    exact ⟨after, submitted, rfl⟩
  · intro electable
    obtain ⟨address, elected⟩ := electable.2 []
    rw [elected] at none
    cases none

/-- The block that slashes the only validator does not keep a validator. -/
theorem electable_iff_emptied :
    ∃ start block, init args = .ok start ∧
      ¬∀ earlier next later, [block] = earlier ++ next :: later →
        ∀ before, start.submitBlocks earlier = .ok before → before.KeepsValidator next := by
  obtain ⟨start, block, after, initialised, staked, accepted, halted⟩ := emptied
  refine ⟨start, block, initialised, fun keeps => halted ?_⟩
  exact (electable_iff initialised staked accepted).mpr keeps

/-- A chain with a validator at genesis may end without an electable one. -/
theorem last_validator_slashed :
    ¬∀ (args : GenesisArgs) (start chain : ProofOfStakeChain) (blocks : List Block),
      init args = .ok start → (∃ address, 0 < start.stakeOf address) →
      start.submitBlocks blocks = .ok chain → chain.Electable := by
  intro claim
  obtain ⟨start, block, after, initialised, staked, accepted, halted⟩ := emptied
  exact halted (claim args start after [block] initialised staked accepted)

end ElectableSample

end Mindees
