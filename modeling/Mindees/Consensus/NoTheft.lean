import Mindees.Consensus.History
import Mindees.Consensus.VestingLock

/-!
# No theft

What a block takes from an address: nothing from those that neither sign nor
offend, and from a signer its fees and the amounts of its payments.
-/

namespace Mindees

open Library

/-! ## What a transaction gives away -/

/-- A plain payment, and not an operation named by a reserved recipient. -/
def IsPayment (tx : Transaction) : Prop :=
  tx.recipient ≠ STAKE_SENTINEL ∧ tx.recipient ≠ UNSTAKE_SENTINEL ∧
    tx.recipient ≠ SLASH_SENTINEL ∧ tx.recipient ≠ VOTE_SENTINEL

instance (tx : Transaction) : Decidable (IsPayment tx) := inferInstanceAs (Decidable (_ ∧ _))

/-- What the sender of a transaction gives away: the fee, and the amount of a
payment. -/
def given (tx : Transaction) : Int := tx.fee + if IsPayment tx then tx.amount else 0

/-- What an address gives away in some transactions. -/
def givenBy (address : Str) (transactions : List Transaction) : Int :=
  ((signedBy address transactions).map given).sum

theorem givenBy_append
    (address : Str)
    (left right : List Transaction) :
    givenBy address (left ++ right) = givenBy address left + givenBy address right := by
  rw [givenBy, signedBy_append, List.map_append, List.sum_append]
  rfl

theorem givenBy_singleton
    (address : Str)
    (tx : Transaction) :
    givenBy address [tx] = if tx.sender = address then given tx else 0 := by
  rw [givenBy, signedBy_singleton]
  split_ifs <;> simp

/-- An address that signs nothing gives nothing away. -/
theorem givenBy_eq_zero
    {address : Str}
    {transactions : List Transaction}
    (silent : ∀ tx ∈ transactions, tx.sender ≠ address) :
    givenBy address transactions = 0 := by
  have nothing : signedBy address transactions = [] := by
    rw [List.eq_nil_iff_forall_not_mem]
    intro tx signed
    obtain ⟨inside, sender⟩ := mem_signedBy.mp signed
    exact silent tx inside sender
  rw [givenBy, nothing]
  rfl

/-! ## What a transaction takes -/

section

variable [Primitives] {config : Config} {block : Block} {justifiedParent : Finset Str}
  {state after : LedgerState} {tx : Transaction}

/-- A transaction takes from an address that it does not convict no more than
the address gives away in it. -/
theorem Applied.holding_ge
    (applied : Applied config block justifiedParent state tx after)
    (healthy : Healthy block.index state)
    (valid : tx.isValid = true)
    {address : Str}
    (notOffender : offenderOf tx ≠ some address) :
    state.holding address ≤ after.holding address + givenBy address [tx] := by
  obtain ⟨amount, fee, _⟩ := Transaction.isValid.units valid
  have inside : -(if tx.sender = address then tx.fee else 0) ≤ flow block tx 0 address := by
    simp only [flow]
    split_ifs <;> omega
  have special : ¬IsPayment tx → given tx = tx.fee := by
    intro notPayment
    rw [given, if_neg notPayment, add_zero]
  rw [givenBy_singleton]
  cases applied with
  | stake named moved _ =>
      rw [applyStake_holding moved address, special fun plain => plain.1 named]
      omega
  | unstake named moved _ =>
      rw [applyUnstake_holding moved address, special fun plain => plain.2.1 named]
      omega
  | slash named moved =>
      obtain ⟨treasury, offender, offense, _, proven, holding⟩ := applySlash_holding moved
      have convicted : offenderOf tx = some offender := by
        rw [offenderOf, if_pos named, proven]
      have other : offender ≠ address := by
        rintro rfl
        exact notOffender convicted
      have shares := reporterShare_bounds (healthy.bonded_nonneg offender)
      rw [holding address, if_neg other, special fun plain => plain.2.2.1 named]
      split_ifs at inside ⊢ <;> omega
  | vote named moved =>
      rw [applyVote_holding moved address, special fun plain => plain.2.2.2 named]
      omega
  | payment notStake notUnstake notSlash notVote moved _ =>
      have plain : given tx = tx.fee + tx.amount := by
        rw [given, if_pos ⟨notStake, notUnstake, notSlash, notVote⟩]
      rw [applyPayment_holding moved address, plain]
      simp only [flow]
      split_ifs <;> omega

namespace ProofOfStakeChain

variable {args : GenesisArgs} {chain : ProofOfStakeChain}

/-- No theft: an accepted block takes from an address that no slash in it
convicts no more than the address gives away itself, which is nothing if the
address signs nothing in the block. -/
theorem Reachable.no_theft
    (reachable : Reachable args chain)
    {block : Block}
    {next : ProofOfStakeChain}
    (submitted : chain.submitBlock block = .ok next)
    {address : Str}
    (innocent : ∀ tx ∈ block.transactions, offenderOf tx ≠ some address) :
    chain.state.holding address ≤
        next.state.holding address + givenBy address block.transactions ∧
      ((∀ tx ∈ block.transactions, tx.sender ≠ address) →
        chain.state.holding address ≤ next.state.holding address) := by
  have accepted := submitted_of_submitBlock submitted
  have bound : chain.state.holding address ≤
      next.state.holding address + givenBy address block.transactions := by
    refine (applyTxs_traces
      (fun earlier state => Healthy block.index state ∧
        chain.state.holding address ≤ state.holding address + givenBy address earlier)
      ?_ ?_ accepted.ran).2
    · rintro earlier tx later position before after ⟨healthy, kept⟩ valid _ applied
      have listed : tx ∈ block.transactions := by simp [position]
      have step := applied.holding_ge healthy valid (innocent tx listed)
      refine ⟨healthy.applied valid applied, ?_⟩
      rw [givenBy_append]
      omega
    · refine ⟨applyBlockPre_healthy reachable.healthy accepted.index, ?_⟩
      rw [holding_applyBlockPre]
      exact (add_zero _).ge
  refine ⟨bound, fun silent => ?_⟩
  rw [givenBy_eq_zero silent, add_zero] at bound
  exact bound

end ProofOfStakeChain

end

/-! ## A block of a run -/

namespace NoTheftSample

open ProofOfStakeChain

attribute [local instance] Symbolic.primitives

/-- The validator withdraws stake while the client pays it. -/
def drafts : List Draft := [.unstake 0 100 2, .pay 1 0 30 1]

def start : Except Error ProofOfStakeChain := play Sample.keyring Sample.args Sample.rounds

theorem started : succeeded start = true := by decide +kernel

@[irreducible] def before : ProofOfStakeChain := outcome start started

theorem before_reachable : Reachable Sample.args before := by
  unfold before
  exact play_reachable (eq_ok_outcome _ started)

theorem played : succeeded (addRound Sample.keyring before drafts) = true := by decide +kernel

@[irreducible] def next : ProofOfStakeChain :=
  outcome (addRound Sample.keyring before drafts) played

theorem next_submitted : before.submitBlock next.head = .ok next := by
  have ran : addRound Sample.keyring before drafts = .ok next := by
    unfold next
    exact eq_ok_outcome _ played
  exact (addRound_submits ran).1

/-- The block takes from the client what the client gives away. -/
theorem no_theft_sample :
    givenBy (Symbolic.wallet 2).address next.head.transactions = 31 ∧
      before.state.holding (Symbolic.wallet 2).address ≤
        next.state.holding (Symbolic.wallet 2).address + 31 := by
  have spent : givenBy (Symbolic.wallet 2).address next.head.transactions = 31 := by
    decide +kernel
  have kept := (before_reachable.no_theft next_submitted
    (by decide +kernel : ∀ tx ∈ next.head.transactions,
      offenderOf tx ≠ some (Symbolic.wallet 2).address)).1
  rw [spent] at kept
  exact ⟨spent, kept⟩

end NoTheftSample

end Mindees
