import Mathlib.Algebra.Order.BigOperators.Group.Finset
import Mindees.Consensus.Finality
import Mindees.Consensus.Supply

/-!
# Quorums

Whether the recorded voters of a link hold a supermajority of the snapshot at its
source, and what a transaction can change about it.
-/

namespace Mindees

open Library

/-- The unslashed voters of an edge hold a supermajority of the unslashed stake
at its source. -/
def LedgerState.reachesQuorum (state : LedgerState) (edge : Str × Str) : Bool :=
  isSupermajority
    (votedStake (state.ffgStake.getD edge.1 Dict.empty)
      (state.ffgVotes.getD edge ∅) state.slashedAddrs)
    (activeStake (state.ffgStake.getD edge.1 Dict.empty) state.slashedAddrs)

theorem isSupermajority_iff (voted total : Int) :
    isSupermajority voted total = true ↔ 0 < total ∧ 2 * total ≤ 3 * voted := by
  rw [isSupermajority, Bool.and_eq_true, decide_eq_true_eq, decide_eq_true_eq]
  rfl

/-- No snapshot records a negative stake. -/
def LedgerState.SnapshotsNonneg (state : LedgerState) : Prop :=
  ∀ hash address, 0 ≤ (state.ffgStake.getD hash Dict.empty).getD address 0

variable {state after : LedgerState} {edge : Str × Str}

/-- The tally reads snapshots, voters and the slashing record. -/
theorem reachesQuorum_congr
    (stake : after.ffgStake = state.ffgStake)
    (slashed : after.slashedAddrs = state.slashedAddrs)
    (voters : after.ffgVotes.getD edge ∅ = state.ffgVotes.getD edge ∅) :
    after.reachesQuorum edge = state.reachesQuorum edge := by
  rw [LedgerState.reachesQuorum, stake, slashed, voters, ← LedgerState.reachesQuorum]

/-- More voters keep a quorum. -/
theorem reachesQuorum_mono
    (nonneg : state.SnapshotsNonneg)
    (stake : after.ffgStake = state.ffgStake)
    (slashed : after.slashedAddrs = state.slashedAddrs)
    (voters : state.ffgVotes.getD edge ∅ ⊆ after.ffgVotes.getD edge ∅)
    (reached : state.reachesQuorum edge = true) :
    after.reachesQuorum edge = true := by
  have more : votedStake (state.ffgStake.getD edge.1 Dict.empty)
      (state.ffgVotes.getD edge ∅) state.slashedAddrs ≤
        votedStake (state.ffgStake.getD edge.1 Dict.empty)
          (after.ffgVotes.getD edge ∅) state.slashedAddrs := by
    apply Finset.sum_le_sum_of_subset_of_nonneg (Finset.sdiff_subset_sdiff voters le_rfl)
    intro voter _ _
    exact nonneg edge.1 voter
  rw [LedgerState.reachesQuorum, isSupermajority_iff] at reached ⊢
  rw [stake, slashed]
  omega

/-! ## What a transaction votes for -/

section

variable [Primitives] {config : Config} {block : Block} {justifiedParent : Finset Str}
  {tx : Transaction}

/-- The link that a vote transaction is for. -/
def votedLink (tx : Transaction) : Option Link :=
  if tx.recipient = VOTE_SENTINEL then (voteLink tx.evidence).toOption else none

/-- A transaction that is no vote leaves the checkpoints alone. -/
theorem Applied.checkpoints_of_no_vote
    (applied : Applied config block justifiedParent state tx after)
    (silent : votedLink tx = none) :
    after.checkpoints = state.checkpoints := by
  cases applied.checkpointEffect with
  | none same => exact same
  | vote link named parsed _ _ =>
      rw [votedLink, if_pos named, parsed] at silent
      cases silent

/-- A vote that is accepted is checked, recorded and tallied. -/
theorem Applied.checkpoints_of_vote
    {link : Link}
    (applied : Applied config block justifiedParent state tx after)
    (voted : votedLink tx = some link) :
    CheckedVote config justifiedParent state tx.sender link ∧
      after.checkpoints =
        (tallyLink config (recordVote state tx.sender link) link).checkpoints ∧
      after.slashedAddrs = state.slashedAddrs := by
  rw [votedLink] at voted
  split_ifs at voted with named
  have parsed : voteLink tx.evidence = .ok link := by
    cases found : voteLink tx.evidence with
    | ok other =>
        rw [found] at voted
        cases voted
        rfl
    | error error =>
        rw [found] at voted
        cases voted
  have accepted : applyVote config block justifiedParent state tx = .ok after := by
    cases applied with
    | stake other _ _ => exact absurd (other.symm.trans named) (by decide)
    | unstake other _ _ => exact absurd (other.symm.trans named) (by decide)
    | slash other _ => exact absurd (other.symm.trans named) (by decide)
    | payment _ _ _ notVote _ _ => exact absurd named notVote
    | vote _ moved => exact moved
  obtain ⟨other, again, checked, _, paid, charged, rfl⟩ :=
    (applyVote_eq_ok config block justifiedParent state after tx).mp accepted
  obtain ⟨_, rfl⟩ := (payFee_eq_ok block state paid tx).mp charged
  rw [parsed] at again
  cases again
  refine ⟨checkedVote_of_checkVote checked, tallyLink_checkpoints_congr rfl rfl, ?_⟩
  obtain ⟨_, _, frame⟩ := tallyLink_frame config (recordVote _ tx.sender link) link
  rw [frame]
  rfl

/-- Apart from justification, an accepted vote only leaves its records. -/
theorem Applied.records_of_vote
    {link : Link}
    (applied : Applied config block justifiedParent state tx after)
    (voted : votedLink tx = some link) :
    after.ffgHeight = state.ffgHeight ∧
      after.ffgVotes = (recordVote state tx.sender link).ffgVotes ∧
      after.ffgSeenTarget = (recordVote state tx.sender link).ffgSeenTarget := by
  obtain ⟨_, same, _⟩ := applied.checkpoints_of_vote voted
  obtain ⟨_, _, frame⟩ := tallyLink_frame config (recordVote state tx.sender link) link
  rw [frame] at same
  exact ⟨congrArg Checkpoints.ffgHeight same, congrArg Checkpoints.ffgVotes same,
    congrArg Checkpoints.ffgSeenTarget same⟩

/-- An accepted vote that leaves its edge with a quorum justifies the target, and
finalizes the source of a direct epoch child if that is higher.  Without a quorum it
does neither. -/
theorem Applied.tally_of_vote
    {link : Link}
    (applied : Applied config block justifiedParent state tx after)
    (voted : votedLink tx = some link) :
    (after.reachesQuorum link.edge = false ∧ after.justified = state.justified ∧
      after.finalized = state.finalized) ∨
    (after.reachesQuorum link.edge = true ∧
      after.justified = insert link.target state.justified ∧
      after.finalized =
        if link.targetHeight = link.sourceHeight + config.epoch ∧
            state.finalized.2 < link.sourceHeight then
          (link.source, link.sourceHeight)
        else state.finalized) := by
  obtain ⟨_, same, slashed⟩ := applied.checkpoints_of_vote voted
  obtain ⟨_, votes, _⟩ := applied.records_of_vote voted
  have quorum : after.reachesQuorum link.edge =
      (recordVote state tx.sender link).hasSupermajority link := by
    rw [LedgerState.reachesQuorum, applied.ffgStake_eq, votes, slashed]
    rfl
  rw [quorum]
  by_cases reached : (recordVote state tx.sender link).hasSupermajority link = true
  · have tallied : tallyLink config (recordVote state tx.sender link) link = _ := if_pos reached
    rw [tallied] at same
    exact .inr ⟨reached, congrArg Checkpoints.justified same, congrArg Checkpoints.finalized same⟩
  · have kept : tallyLink config (recordVote state tx.sender link) link = _ := if_neg reached
    rw [kept] at same
    exact .inl ⟨Bool.not_eq_true _ ▸ reached, congrArg Checkpoints.justified same,
      congrArg Checkpoints.finalized same⟩

/-- The snapshot of a checkpoint block is the stakes of its parent. -/
theorem LedgerState.SnapshotsNonneg.applyBlockPre
    {height : Int}
    (nonneg : state.SnapshotsNonneg)
    (healthy : Healthy height state) :
    (applyBlockPre config block state).SnapshotsNonneg := by
  intro hash address
  rw [applyBlockPre_eq]
  simp only []
  split_ifs with boundary
  · rw [Dict.getD_set]
    split_ifs
    · exact healthy.stake_nonneg address
    · exact nonneg hash address
  · exact nonneg hash address

end

/-! ## Runs -/

namespace ProofOfStakeChain

variable [Primitives] {args : GenesisArgs} {chain : ProofOfStakeChain}

/-- Reachable chains hold no negative snapshot. -/
theorem Reachable.snapshots_nonneg
    (reachable : Reachable args chain) :
    chain.state.SnapshotsNonneg := by
  induction reachable with
  | genesis initialised =>
      obtain ⟨_, _, _, _, _, _, _, state, _⟩ := (init_eq_ok _ _).mp initialised
      have stakes := (init_healthy initialised).1.stake_nonneg
      rw [state] at stakes ⊢
      intro hash address
      simp only [genesisState, Dict.getD_set]
      split_ifs
      · exact stakes address
      · exact le_rfl
  | @block before after block earlier submitted inductionHypothesis =>
      have accepted := submitted_of_submitBlock submitted
      refine applyTxs_invariant LedgerState.SnapshotsNonneg ?_
        (inductionHypothesis.applyBlockPre earlier.healthy) accepted.ran
      intro tx _ state next nonneg _ _ applied hash address
      rw [applied.ffgStake_eq]
      exact nonneg hash address

/-- Only recorded checkpoints are justified. -/
theorem Reachable.justified_recorded
    (reachable : Reachable args chain) :
    ∀ checkpoint ∈ chain.state.justified, chain.state.ffgHeight.contains checkpoint = true := by
  induction reachable with
  | genesis initialised =>
      obtain ⟨_, _, _, _, _, _, _, state, _⟩ := (init_eq_ok _ _).mp initialised
      rw [state]
      intro checkpoint justified
      rw [Finset.mem_singleton.mp justified]
      simp only [genesisState, Dict.contains_set, decide_true, Bool.true_or]
  | @block before after block earlier submitted inductionHypothesis =>
      have accepted := submitted_of_submitBlock submitted
      refine applyTxs_checkpoints
        (fun view => ∀ checkpoint ∈ view.justified, view.ffgHeight.contains checkpoint = true)
        ?_ ?_ accepted.ran
      · intro state voter link recorded checked
        rcases tallyLink_cases before.config (recordVote state voter link) link with
          ⟨_, same⟩ | ⟨_, finalized, same, _⟩
        · rw [same]
          exact recorded
        · rw [same]
          intro checkpoint justified
          rcases Finset.mem_insert.mp justified with rfl | older
          · exact (Dict.contains_iff _ _).mpr ⟨_, checked.targetHeight⟩
          · exact recorded checkpoint older
      · intro checkpoint justified
        rw [LedgerState.checkpoints, applyBlockPre_justified] at justified
        have recorded := inductionHypothesis checkpoint justified
        rw [LedgerState.checkpoints, applyBlockPre_eq]
        simp only []
        split_ifs
        · rw [Dict.contains_set, recorded, Bool.or_true]
        · exact recorded

end ProofOfStakeChain

end Mindees
