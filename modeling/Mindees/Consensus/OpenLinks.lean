import Mindees.Consensus.Quorums
import Mindees.Consensus.VoteHistory
import Mindees.Consensus.VestingLock
import Mindees.Core.Reader

/-!
# Open links

A link is tallied when a vote for it is applied.  A slash afterwards shrinks the
stake that counts, and can leave a link with a quorum that nothing tallies.
-/

namespace Mindees

open Library

namespace LedgerState

/-- A link has done its part: its target is justified, and its source finalized
when the target is the direct epoch child. -/
def Closed (epoch : Int) (state : LedgerState) (edge : Str × Str) : Prop :=
  edge.2 ∈ state.justified ∧
    ∀ height, state.ffgHeight.get? edge.1 = some height →
      state.ffgHeight.get? edge.2 = some (height + epoch) → height ≤ state.finalized.2

/-- A link that somebody voted for, from a justified source. -/
def Recorded (state : LedgerState) (edge : Str × Str) : Prop :=
  state.ffgVotes.contains edge = true ∧ edge.1 ∈ state.justified

/-- Every recorded link with a quorum has done its part. -/
def Settled (epoch : Int) (state : LedgerState) : Prop :=
  ∀ edge, state.Recorded edge → state.reachesQuorum edge = true → state.Closed epoch edge

/-- The same state with one more address excluded from the quorum. -/
def convict (state : LedgerState) (offender : Str) : LedgerState :=
  { state with slashedAddrs := insert offender state.slashedAddrs }

/-- Without the offender some recorded link that has not done its part gets a
quorum. -/
def LiftedBy (epoch : Int) (state : LedgerState) (offender : Str) : Prop :=
  ∃ edge, state.Recorded edge ∧ state.reachesQuorum edge = false ∧
    (state.convict offender).reachesQuorum edge = true ∧ ¬state.Closed epoch edge

end LedgerState

/-! ## One transaction -/

/-- Recorded links have justified sources, and those with a quorum have done their
part. -/
structure Tidy (epoch : Int) (state : LedgerState) : Prop where
  sources : ∀ edge, state.ffgVotes.contains edge = true → edge.1 ∈ state.justified
  settled : state.Settled epoch

/-- What is settled stays settled when a link is recorded or tallied no more. -/
theorem Tidy.congr
    {epoch : Int}
    {state after : LedgerState}
    (tidy : Tidy epoch state)
    (checkpoints : after.checkpoints = state.checkpoints)
    (quorums : ∀ edge, state.Recorded edge → after.reachesQuorum edge = true →
      state.Closed epoch edge) :
    Tidy epoch after := by
  have votes : after.ffgVotes = state.ffgVotes := congrArg Checkpoints.ffgVotes checkpoints
  have height : after.ffgHeight = state.ffgHeight := congrArg Checkpoints.ffgHeight checkpoints
  have justified : after.justified = state.justified := congrArg Checkpoints.justified checkpoints
  have finalized : after.finalized = state.finalized := congrArg Checkpoints.finalized checkpoints
  constructor
  · rw [votes, justified]
    exact tidy.sources
  · intro edge recorded reached
    rw [LedgerState.Recorded, votes, justified] at recorded
    have closed := quorums edge recorded reached
    rw [LedgerState.Closed, justified, height, finalized]
    exact closed

section

variable [Primitives] {config : Config} {block : Block} {justifiedParent : Finset Str}
  {state after : LedgerState} {tx : Transaction}

/-- An applied slash convicts somebody. -/
theorem Applied.convicts
    (applied : Applied config block justifiedParent state tx after)
    (named : tx.recipient = SLASH_SENTINEL) :
    ∃ offender, offenderOf tx = some offender := by
  obtain ⟨_, _, _, offender, offense, proven, _⟩ :=
    (applySlash_eq_ok config block state after tx).mp (applied.of_slash named)
  exact ⟨offender, (offenderOf_eq_some_iff tx offender).mpr ⟨named, offense, proven⟩⟩

/-- A slash leaves every recorded link settled exactly when it lifts no open one. -/
theorem Tidy.settled_slash_iff
    {offender : Str}
    (tidy : Tidy config.epoch state)
    (applied : Applied config block justifiedParent state tx after)
    (convicts : offenderOf tx = some offender) :
    after.Settled config.epoch ↔ ¬state.LiftedBy config.epoch offender := by
  obtain ⟨named, offense, proven⟩ := (offenderOf_eq_some_iff tx offender).mp convicts
  obtain ⟨_, treasury, _, found, other, again, _, _, paid, charged, rfl⟩ :=
    (applySlash_eq_ok config block state after tx).mp (applied.of_slash named)
  obtain ⟨_, rfl⟩ := (payFee_eq_ok block state paid tx).mp charged
  rw [proven] at again
  cases again
  constructor
  · rintro settled ⟨edge, recorded, _, reached, opened⟩
    exact opened (settled edge recorded reached)
  · intro harmless edge recorded reached
    cases before : state.reachesQuorum edge with
    | true => exact tidy.settled edge recorded before
    | false =>
        by_contra opened
        exact harmless ⟨edge, recorded, before, reached, opened⟩

theorem Tidy.slash
    {offender : Str}
    (tidy : Tidy config.epoch state)
    (applied : Applied config block justifiedParent state tx after)
    (convicts : offenderOf tx = some offender)
    (harmless : ¬state.LiftedBy config.epoch offender) :
    Tidy config.epoch after := by
  have settled := (tidy.settled_slash_iff applied convicts).mpr harmless
  obtain ⟨named, _⟩ := (offenderOf_eq_some_iff tx offender).mp convicts
  have silent : votedLink tx = none := by
    rw [votedLink, named]
    exact if_neg (by decide)
  have same := applied.checkpoints_of_no_vote silent
  have votes : after.ffgVotes = state.ffgVotes := congrArg Checkpoints.ffgVotes same
  have justified : after.justified = state.justified := congrArg Checkpoints.justified same
  refine ⟨?_, settled⟩
  rw [votes, justified]
  exact tidy.sources

/-- A vote is tallied, so it leaves the links tidy. -/
theorem Tidy.vote
    {link : Link}
    (tidy : Tidy config.epoch state)
    (parent : justifiedParent ⊆ state.justified)
    (applied : Applied config block justifiedParent state tx after)
    (voted : votedLink tx = some link) :
    Tidy config.epoch after := by
  obtain ⟨checked, _, slashed⟩ := applied.checkpoints_of_vote voted
  obtain ⟨height, votes, _⟩ := applied.records_of_vote voted
  have tallied := applied.tally_of_vote voted
  have source : link.edge.1 ∈ state.justified := parent checked.source_justified
  have grows : state.justified ⊆ after.justified := by
    rcases tallied with ⟨_, same, _⟩ | ⟨_, same, _⟩
    · rw [same]
    · rw [same]
      exact Finset.subset_insert _ _
  have rises : state.finalized.2 ≤ after.finalized.2 := by
    rcases tallied with ⟨_, _, same⟩ | ⟨_, _, same⟩
    · rw [same]
    · rw [same]
      split_ifs with raised
      · exact raised.2.le
      · exact le_rfl
  have recorded : ∀ edge, after.ffgVotes.contains edge = true →
      link.edge = edge ∨ state.ffgVotes.contains edge = true := by
    intro edge found
    rw [votes, recordVote, Dict.contains_set, Bool.or_eq_true, decide_eq_true_eq] at found
    exact found
  constructor
  · intro edge found
    rcases recorded edge found with rfl | older
    · exact grows source
    · exact grows (tidy.sources edge older)
  · rintro edge ⟨found, _⟩ reached
    by_cases here : link.edge = edge
    · subst here
      rcases tallied with ⟨short, _, _⟩ | ⟨_, justified, finalized⟩
      · rw [short] at reached
        cases reached
      · refine ⟨?_, ?_⟩
        · rw [justified]
          exact Finset.mem_insert_self _ _
        · intro sourceHeight sourceAt targetAt
          rw [height] at sourceAt targetAt
          have same := Option.some.inj (sourceAt.symm.trans checked.sourceHeight)
          have child := Option.some.inj (targetAt.symm.trans checked.targetHeight)
          rw [finalized]
          split_ifs with raised
          · exact same.le
          · rw [not_and_or, not_lt] at raised
            rcases raised with apart | high
            · exact absurd (by rw [← child, same]) apart
            · exact same.le.trans high
    · have older := (recorded edge found).resolve_left here
      have sameVoters : after.ffgVotes.getD edge ∅ = state.ffgVotes.getD edge ∅ := by
        rw [votes, recordVote, Dict.getD_set]
        exact if_neg here
      have before : state.reachesQuorum edge = true := by
        rw [← reachesQuorum_congr applied.ffgStake_eq slashed sameVoters]
        exact reached
      obtain ⟨target, finalized⟩ := tidy.settled edge ⟨older, tidy.sources edge older⟩ before
      refine ⟨grows target, ?_⟩
      rw [height]
      intro sourceHeight sourceAt targetAt
      exact (finalized sourceHeight sourceAt targetAt).trans rises

/-- The snapshot of a new checkpoint concerns no recorded link. -/
theorem Tidy.applyBlockPre
    (tidy : Tidy config.epoch state)
    (recorded : ∀ checkpoint ∈ state.justified, state.ffgHeight.contains checkpoint = true)
    (fresh : state.ffgHeight.get? block.hash = none) :
    Tidy config.epoch (applyBlockPre config block state) := by
  have other : ∀ checkpoint ∈ state.justified, block.hash ≠ checkpoint := by
    rintro checkpoint justified rfl
    obtain ⟨height, found⟩ := (Dict.contains_iff _ _).mp (recorded _ justified)
    rw [fresh] at found
    cases found
  have heights : ∀ checkpoint ∈ state.justified,
      (Mindees.applyBlockPre config block state).ffgHeight.get? checkpoint =
        state.ffgHeight.get? checkpoint := by
    intro checkpoint justified
    rw [applyBlockPre_eq]
    simp only []
    split_ifs
    · rw [Dict.get?_set, if_neg (other checkpoint justified)]
    · rfl
  have stakes : ∀ checkpoint ∈ state.justified,
      (Mindees.applyBlockPre config block state).ffgStake.getD checkpoint Dict.empty =
        state.ffgStake.getD checkpoint Dict.empty := by
    intro checkpoint justified
    rw [applyBlockPre_eq]
    simp only []
    split_ifs
    · rw [Dict.getD_set, if_neg (other checkpoint justified)]
    · rfl
  constructor
  · rw [applyBlockPre_ffgVotes, applyBlockPre_justified]
    exact tidy.sources
  · intro edge found reached
    rw [LedgerState.Recorded, applyBlockPre_ffgVotes, applyBlockPre_justified] at found
    rw [LedgerState.reachesQuorum, stakes edge.1 found.2, applyBlockPre_ffgVotes,
      applyBlockPre_slashedAddrs] at reached
    obtain ⟨target, finalized⟩ := tidy.settled edge found reached
    rw [LedgerState.Closed, applyBlockPre_justified, applyBlockPre_finalized,
      heights edge.1 found.2, heights edge.2 target]
    exact ⟨target, finalized⟩

/-- No slash of the block lifts an open link over the threshold. -/
def Harmless (chain : ProofOfStakeChain) (block : Block) : Prop :=
  ∀ earlier tx later state offender, block.transactions = earlier ++ tx :: later →
    stateBefore chain block earlier = .ok state → offenderOf tx = some offender →
    ¬state.LiftedBy chain.config.epoch offender

end

/-! ## Runs -/

namespace ProofOfStakeChain

variable [Primitives] {args : GenesisArgs} {chain : ProofOfStakeChain}

theorem init_tidy
    (initialised : init args = .ok chain) :
    Tidy chain.config.epoch chain.state := by
  obtain ⟨_, _, _, _, _, _, _, state, _⟩ := (init_eq_ok _ _).mp initialised
  rw [state]
  constructor
  · intro edge recorded
    cases recorded
  · rintro edge ⟨recorded, _⟩
    cases recorded

theorem ReachableBy.tidy
    (reached : ReachableBy args Harmless chain)
    (distinct : (chain.chain.map Block.hash).Nodup) :
    Tidy chain.config.epoch chain.state := by
  induction reached with
  | genesis initialised => exact init_tidy initialised
  | @block before after block earlier harmless submitted inductionHypothesis =>
      have accepted := submitted_of_submitBlock submitted
      rw [accepted.blocks, List.map_append, List.map_singleton, ← List.concat_eq_append,
        List.nodup_concat] at distinct
      obtain ⟨new, distinctBefore⟩ := distinct
      have fresh := earlier.reachable.bookkeeping.fresh new
      have start := (inductionHypothesis distinctBefore).applyBlockPre
        earlier.reachable.justified_recorded fresh
      rw [accepted.config]
      let invariant : LedgerState → Prop := fun state =>
        Tidy before.config.epoch state ∧ before.state.justified ⊆ state.justified
      have finish : invariant after.state := by
        refine applyTxs_invariant_along invariant ?_ ⟨start, ?_⟩ accepted.ran
        · rintro prior tx rest position state next ran ⟨tidy, parent⟩ _ _ applied
          cases voted : votedLink tx with
          | some link =>
              refine ⟨tidy.vote parent applied voted, ?_⟩
              rcases applied.tally_of_vote voted with ⟨_, same, _⟩ | ⟨_, same, _⟩
              · rw [same]
                exact parent
              · rw [same]
                exact parent.trans (Finset.subset_insert _ _)
          | none =>
              have same := applied.checkpoints_of_no_vote voted
              have justified : next.justified = state.justified :=
                congrArg Checkpoints.justified same
              refine ⟨?_, justified ▸ parent⟩
              by_cases named : tx.recipient = SLASH_SENTINEL
              · obtain ⟨offender, convicts⟩ := applied.convicts named
                exact tidy.slash applied convicts
                  (harmless prior tx rest state offender position ran convicts)
              · refine tidy.congr same fun edge recorded reached => ?_
                refine tidy.settled edge recorded ?_
                rw [← reached]
                symm
                exact reachesQuorum_congr applied.ffgStake_eq (applied.slashedAddrs_eq named)
                  (congrArg (fun view => view.ffgVotes.getD edge ∅) same)
        · rw [applyBlockPre_justified]
      exact finish.1

/-- As long as no slash lifts an open link over the threshold, every recorded link
from a justified source whose unslashed voters hold two thirds of the unslashed
stake has its target justified and, as a direct epoch child, its source finalized. -/
theorem ReachableBy.settled
    (reached : ReachableBy args Harmless chain)
    (distinct : (chain.chain.map Block.hash).Nodup) :
    chain.state.Settled chain.config.epoch :=
  (reached.tidy distinct).settled

end ProofOfStakeChain

/-! ## A quorum that nothing tallies -/

namespace OpenLinkSample

open ProofOfStakeChain

attribute [local instance] Symbolic.reading

/-- A validator with less than two thirds of the stake, and one that cheats. -/
def keyring : List Wallet := [Symbolic.wallet 1, Symbolic.wallet 2]

def cheater : Wallet := Symbolic.wallet 2

def args : GenesisArgs where
  allocations :=
    (Dict.empty.set (Symbolic.wallet 1).address (MAX_SUPPLY_UNITS - 1000)).set
      cheater.address 1000
  initialStakes :=
    (Dict.empty.set (Symbolic.wallet 1).address 600).set cheater.address 400
  treasuryAddress := some (Symbolic.wallet 3).address
  epoch := 1

/-- Two votes of the cheater for one target height. -/
def fault : Except Error (Transaction × Transaction) := do
  let voteA ← voteTx cheater ⟨['s'], 0, ['t'], 1⟩ 0 0 0
  let voteB ← voteTx cheater ⟨['s'], 0, ['u'], 1⟩ 0 0 0
  pure (voteA, voteB)

/-- The first link of a chain. -/
def firstLink (chain : ProofOfStakeChain) : Str × Str :=
  ((chain.hashAt 0).getD [], (chain.hashAt 1).getD [])

/-- The validator votes for the first link and then reports the cheater.  The link
has a quorum from a justified source now, and an unjustified target. -/
def stalled : Except Error ProofOfStakeChain := do
  let (voteA, voteB) ← fault
  let chain ← play keyring args [[], [.vote 0 0 1 0], [.slash 0 voteA voteB 0]]
  let link := firstLink chain
  raiseIf (chain.state.ffgVotes.contains link = false ∨ link.1 ∉ chain.state.justified ∨
    chain.state.reachesQuorum link = false ∨ link.2 ∈ chain.state.justified ∨
    ¬(chain.chain.map Block.hash).Nodup) Error.valueError
  pure chain

theorem stalled_runs : succeeded stalled = true := by decide +kernel

theorem quorum_unjustified :
    ¬∀ (args : GenesisArgs) (chain : ProofOfStakeChain), Reachable args chain →
      (chain.chain.map Block.hash).Nodup → chain.state.Settled chain.config.epoch := by
  intro claimed
  obtain ⟨chain, ran⟩ := (succeeded_iff stalled).mp stalled_runs
  simp only [stalled, bind_eq_ok, raiseIf_eq_ok, exists_unit, pure_eq_ok, not_or, not_not,
    Bool.not_eq_false] at ran
  obtain ⟨votes, _, chain, played, ⟨recorded, source, reached, opened, distinct⟩, rfl⟩ := ran
  have settled := claimed args chain (play_reachable played) distinct
  exact opened (settled (firstLink chain) ⟨recorded, source⟩ reached).1

/-- Blocks without a slash, or with nothing but a slash while no vote is recorded. -/
def harmless (chain : ProofOfStakeChain) (block : Block) : Bool :=
  block.transactions.all (fun tx => tx.recipient ≠ SLASH_SENTINEL) ||
    (chain.state.ffgVotes.entries.isEmpty && block.transactions.length ≤ 1)

theorem harmless_of_harmless
    (chain : ProofOfStakeChain)
    (block : Block)
    (checked : harmless chain block = true) :
    Harmless chain block := by
  rintro earlier tx later state offender position ran convicts ⟨edge, ⟨recorded, _⟩, _⟩
  rw [harmless, Bool.or_eq_true] at checked
  rcases checked with plain | silent
  · have named := ((offenderOf_eq_some_iff tx offender).mp convicts).1
    have inside : tx ∈ block.transactions := by simp [position]
    have other := List.all_eq_true.mp plain tx inside
    exact of_decide_eq_true other named
  · rw [Bool.and_eq_true, List.isEmpty_iff, decide_eq_true_eq] at silent
    obtain ⟨empty, short⟩ := silent
    have first : earlier = [] := by
      rw [position, List.length_append, List.length_cons] at short
      exact List.eq_nil_of_length_eq_zero (by omega)
    rw [first, stateBefore] at ran
    cases ran
    rw [applyBlockPre_ffgVotes, Dict.contains, Dict.get?, empty] at recorded
    cases recorded

/-- The cheater is reported first, and the vote for the link is tallied without it. -/
def tallied : Except Error ProofOfStakeChain := do
  let (voteA, voteB) ← fault
  let chain ← playWhen harmless keyring args [[], [.slash 0 voteA voteB 0], [.vote 0 0 1 1]]
  raiseIf (¬(chain.chain.map Block.hash).Nodup ∨
    chain.state.ffgVotes.contains (firstLink chain) = false) Error.valueError
  pure chain

theorem tallied_runs : succeeded tallied = true := by decide +kernel

theorem settled_tallied :
    ∃ chain, tallied = .ok chain ∧ chain.state.Settled chain.config.epoch := by
  obtain ⟨chain, ran⟩ := (succeeded_iff tallied).mp tallied_runs
  refine ⟨chain, ran, ?_⟩
  simp only [tallied, bind_eq_ok, raiseIf_eq_ok, exists_unit, pure_eq_ok, not_or, not_not] at ran
  obtain ⟨votes, _, chain, played, ⟨distinct, _⟩, rfl⟩ := ran
  have reached := (playWhen_reachableBy played).mono harmless_of_harmless
  exact ReachableBy.settled reached distinct

end OpenLinkSample

end Mindees
