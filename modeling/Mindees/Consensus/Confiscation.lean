import Mindees.Core.Reader
import Mindees.Consensus.VestingLock
import Mindees.Consensus.VoteHistory

/-!
# What a slash costs its offender

A slash takes everything its offender has bonded and hands it to the reporter
and the treasury.  The offender gets none of it as the reporter, but nothing
keeps the treasury from being the offender.
-/

namespace Mindees

open Library

/-- The fee that a proposer collects from a transaction of its block. -/
def collectedFee (block : Block) (tx : Transaction) (address : Str) : Int :=
  if block.validator = address then tx.fee else 0

/-- The reporter's share never exhausts a confiscated amount. -/
theorem reporterShare_eq_iff
    {bonded : Int}
    (nonneg : 0 ≤ bonded) :
    reporterShare bonded = bonded ↔ bonded = 0 := by
  rw [reporterShare, REPORTER_BPS]
  omega

section

variable [Primitives]

/-- The offender loses all it had bonded, unless the treasury is its own: then
it loses no more than it pays as a fee, or what goes to the reporter. -/
theorem applySlash_costs_iff
    {config : Config}
    {block : Block}
    {state after : LedgerState}
    {tx : Transaction}
    {offender : Str}
    {offense : Offense}
    (healthy : Healthy block.index state)
    (fee : 0 ≤ tx.fee)
    (proof : slashOffense tx.evidence = .ok (offender, offense))
    (moved : applySlash config block state tx = .ok after) :
    after.holding offender ≤
        state.holding offender - state.bondedOf offender + collectedFee block tx offender ↔
      config.treasuryAddress ≠ some offender ∨
        if tx.sender = offender then state.bondedOf offender ≤ tx.fee
        else state.bondedOf offender = 0 := by
  obtain ⟨treasury, convict, _, account, proven, holding⟩ := applySlash_holding moved
  obtain ⟨rfl, _⟩ := Prod.mk.inj (Except.ok.inj (proven.symm.trans proof))
  have bonded := healthy.bonded_nonneg convict
  have share := reporterShare_eq_iff bonded
  have bounds := reporterShare_bounds bonded
  rw [holding convict, account, ne_eq, Option.some_inj, if_pos rfl, flow, collectedFee,
    beneficiary]
  by_cases own : treasury = convict
  · rw [own]
    by_cases self : tx.sender = convict
    · simp only [self, ne_eq, not_true_eq_false, if_true, if_false, false_or]
      split_ifs <;> omega
    · simp only [self, ne_eq, not_false_eq_true, not_true_eq_false, if_true, if_false, false_or]
      split_ifs <;> omega
  · refine iff_of_true ?_ (Or.inl own)
    by_cases self : tx.sender = convict
    · simp only [own, self, ne_eq, not_true_eq_false, if_true, if_false]
      split_ifs <;> omega
    · simp only [own, self, ne_eq, not_false_eq_true, if_true, if_false]
      split_ifs <;> omega

namespace ProofOfStakeChain

variable {args : GenesisArgs} {chain result : ProofOfStakeChain} {block : Block}

/-- In an accepted block every slash costs its offender all it had bonded, but
for a fee that comes back to it as the proposer, exactly when the treasury is
somebody else or the offender has nothing to lose by it. -/
theorem Reachable.slash_costs_iff
    {earlier later : List Transaction}
    {tx : Transaction}
    {state after : LedgerState}
    {offender : Str}
    (reachable : Reachable args chain)
    (accepted : chain.submitBlock block = .ok result)
    (here : block.transactions = earlier ++ tx :: later)
    (ran : Mindees.stateBefore chain block earlier = .ok state)
    (applied : applyTx chain.config block chain.state.justified state tx = .ok after)
    (convicted : offenderOf tx = some offender) :
    after.holding offender ≤
        state.holding offender - state.bondedOf offender + collectedFee block tx offender ↔
      chain.config.treasuryAddress ≠ some offender ∨
        if tx.sender = offender then state.bondedOf offender ≤ tx.fee
        else state.bondedOf offender = 0 := by
  have submitted := submitted_of_submitBlock accepted
  have healthy : Healthy block.index state :=
    applyTxs_invariant (Healthy block.index)
      (fun tx _ before after healthy valid _ applied => healthy.applied valid applied)
      (applyBlockPre_healthy reachable.healthy submitted.index) ran
  have whole := submitted.ran
  rw [here] at whole
  obtain ⟨_, _, _, valid, _⟩ := applyTxs_split whole
  have moved := (applyTx_eq_ok _ _ _ _ _ _).mp applied
  obtain ⟨named, offense, proof⟩ := (offenderOf_eq_some_iff tx offender).mp convicted
  exact applySlash_costs_iff healthy (Transaction.isValid.units valid).2.1 proof
    (moved.of_slash named)

end ProofOfStakeChain

end

/-! ## A treasury that double-signs -/

namespace ConfiscationSample

open ProofOfStakeChain

attribute [local instance] Symbolic.reading

/-- The only validator, whose address is the treasury's. -/
def founder : Wallet := Symbolic.wallet 1

def reporter : Wallet := Symbolic.wallet 2

def args (treasury : Wallet) : GenesisArgs where
  allocations :=
    (Dict.empty.set founder.address (MAX_SUPPLY_UNITS - 1000)).set reporter.address 1000
  initialStakes := Dict.empty.set founder.address 500
  treasuryAddress := some treasury.address

/-- An accepted block with one slash, and the states around the slash. -/
structure Scene where
  start : ProofOfStakeChain
  tx : Transaction
  block : Block
  result : ProofOfStakeChain
  state : LedgerState
  after : LedgerState

/-- The founder seals two blocks of one height, and a block with the report of
the pair is accepted. -/
def stage (treasury : Wallet) : Except Error Scene := do
  let start ← init (args treasury)
  let first ← sealBlock start.head.hash 1 founder [] 0 0 0
  let second ← sealBlock start.head.hash 1 founder [] 1 0 0
  let tx ← slashTx reporter first second 0 0 0
  let block ← sealBlock start.head.hash 1 founder [tx] 1 0 0
  let result ← start.submitBlock block
  let state ← Mindees.stateBefore start block []
  let after ← applyTx start.config block start.state.justified state tx
  raiseIf (block.transactions ≠ [tx] ∨ offenderOf tx ≠ some founder.address ∨
    state.bondedOf founder.address ≤ 0) Error.valueError
  pure { start, tx, block, result, state, after }

/-- The slash costs the founder all it had bonded. -/
def Costs (scene : Scene) : Prop :=
  scene.after.holding founder.address ≤
    scene.state.holding founder.address - scene.state.bondedOf founder.address +
      collectedFee scene.block scene.tx founder.address

instance (scene : Scene) : Decidable (Costs scene) := inferInstanceAs (Decidable (_ ≤ _))

theorem staged :
    ((stage founder).toOption.elim true fun scene => Costs scene) = false ∧
      succeeded (stage reporter) = true := by
  decide +kernel

/-- What a stage that ran has shown. -/
structure Shown (treasury : Wallet) (scene : Scene) : Prop where
  reachable : Reachable (args treasury) scene.start
  accepted : scene.start.submitBlock scene.block = .ok scene.result
  here : scene.block.transactions = [scene.tx]
  ran : Mindees.stateBefore scene.start scene.block [] = .ok scene.state
  applied : applyTx scene.start.config scene.block scene.start.state.justified scene.state
    scene.tx = .ok scene.after
  convicted : offenderOf scene.tx = some founder.address
  bonded : 0 < scene.state.bondedOf founder.address

theorem shown
    {treasury : Wallet}
    {scene : Scene}
    (ran : stage treasury = .ok scene) :
    Shown treasury scene := by
  simp only [stage, bind_eq_ok, raiseIf_eq_ok, exists_unit, pure_eq_ok, not_or, not_not,
    not_le] at ran
  obtain ⟨start, initialised, _, _, _, _, tx, _, block, _, result, accepted, state, reached,
    after, applied, ⟨here, convicted, bonded⟩, rfl⟩ := ran
  exact ⟨.genesis initialised, accepted, here, reached, applied, convicted, bonded⟩

/-- With the treasury in other hands the founder loses its stake. -/
theorem slash_costs_iff_honest :
    ∃ scene, Shown reporter scene ∧ Costs scene := by
  obtain ⟨scene, ran⟩ := (succeeded_iff _).mp staged.2
  have facts := shown ran
  refine ⟨scene, facts, ?_⟩
  refine (Reachable.slash_costs_iff facts.reachable facts.accepted facts.here facts.ran
    facts.applied facts.convicted).mpr (Or.inl ?_)
  rw [facts.reachable.config_eq.1]
  decide

/-- The treasury gets back most of what a slash takes from it. -/
theorem treasury_keeps_its_stake :
    ¬∀ (args : GenesisArgs) (chain result : ProofOfStakeChain) (block : Block)
      (earlier later : List Transaction) (tx : Transaction) (state after : LedgerState)
      (offender : Str),
      Reachable args chain → chain.submitBlock block = .ok result →
      block.transactions = earlier ++ tx :: later →
      Mindees.stateBefore chain block earlier = .ok state →
      applyTx chain.config block chain.state.justified state tx = .ok after →
      offenderOf tx = some offender →
      after.holding offender ≤
        state.holding offender - state.bondedOf offender + collectedFee block tx offender := by
  intro claim
  have kept := staged.1
  cases ran : stage founder with
  | error raised =>
      rw [ran] at kept
      cases kept
  | ok scene =>
      have facts := shown ran
      have costs : Costs scene := claim _ _ _ _ [] [] _ _ _ _ facts.reachable facts.accepted
        facts.here facts.ran facts.applied facts.convicted
      rw [ran] at kept
      exact of_decide_eq_false kept costs

end ConfiscationSample

end Mindees
