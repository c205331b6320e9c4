import Mindees.Consensus.Finality
import Mindees.Consensus.Supply

/-!
# The votes behind the checkpoints

Over a run without hash collisions, every recorded voter of a link has a valid
vote for it in a block of the chain, every justified checkpoint has a tallied
supermajority link from an earlier one, and a finalized checkpoint has one to
its epoch child.
-/

namespace Mindees

open Library

section

variable [Primitives]

/-- The votes that some blocks include. -/
def includedVotes (blocks : List Block) : List Transaction :=
  (blocks.flatMap Block.transactions).filter fun tx => tx.recipient = VOTE_SENTINEL

/-- A validator has a valid vote for a link among some votes. -/
def CastVote (votes : List Transaction) (voter : Str) (link : Link) : Prop :=
  ∃ tx ∈ votes, tx.isValid = true ∧ tx.recipient = VOTE_SENTINEL ∧ tx.sender = voter ∧
    voteLink tx.evidence = .ok link

/-- What a tally compares: the voters of a link with the stakes at its source,
slashed validators apart. -/
structure Quorum where
  link : Link
  snapshot : Dict Str Int
  voters : Finset Str
  slashed : Finset Str

namespace Quorum

/-- The voters hold a supermajority of the active stake. -/
def reached (quorum : Quorum) : Bool :=
  isSupermajority (votedStake quorum.snapshot quorum.voters quorum.slashed)
    (activeStake quorum.snapshot quorum.slashed)

/-- The stake that an address has in the tally. -/
def unslashedStake (quorum : Quorum) (address : Str) : Int :=
  if address ∈ quorum.slashed then 0 else quorum.snapshot.getD address 0

end Quorum

/-- What a tally of a link in a state compares. -/
def LedgerState.quorum (state : LedgerState) (link : Link) : Quorum where
  link := link
  snapshot := state.ffgStake.getD link.source Dict.empty
  voters := state.ffgVotes.getD link.edge ∅
  slashed := state.slashedAddrs

/-- The state in which the transactions of a block before a given one end. -/
def stateBefore
    (chain : ProofOfStakeChain)
    (block : Block)
    (earlier : List Transaction) : Except Error LedgerState :=
  applyTxs chain.config block chain.state.justified
    (applyBlockPre chain.config block chain.state) earlier

/-- The tally of a vote in a block: the vote, and what its tally compares. -/
inductive TalliedIn (chain : ProofOfStakeChain) (block : Block) : Quorum → Prop
  | vote {earlier later : List Transaction} {tx : Transaction} {state : LedgerState}
      {link : Link} :
      block.transactions = earlier ++ tx :: later →
      stateBefore chain block earlier = .ok state →
      tx.recipient = VOTE_SENTINEL → voteLink tx.evidence = .ok link →
      ((recordVote state tx.sender link).quorum link).reached = true →
      TalliedIn chain block ((recordVote state tx.sender link).quorum link)

/-- The supermajorities that the blocks of a reachable chain have tallied. -/
inductive Tallied (args : GenesisArgs) : ProofOfStakeChain → Quorum → Prop
  | earlier {before after : ProofOfStakeChain} {block : Block} {quorum : Quorum} :
      Tallied args before quorum → before.submitBlock block = .ok after →
      Tallied args after quorum
  | here {before after : ProofOfStakeChain} {block : Block} {quorum : Quorum} :
      ProofOfStakeChain.Reachable args before → before.submitBlock block = .ok after →
      TalliedIn before block quorum → Tallied args after quorum

/-- A block with a new hash, each of whose supermajorities is counted over the
same given weights. -/
structure WeighedBy
    (weights : Dict Str Int)
    (chain : ProofOfStakeChain)
    (block : Block) : Prop where
  fresh : block.hash ∉ chain.chain.map Block.hash
  weighed : ∀ quorum, TalliedIn chain block quorum →
    ∀ address, quorum.unslashedStake address = weights.getD address 0

/-! ## The history of a chain -/

/-- A supermajority link whose voters all have votes on record. -/
structure Quorum.Backed
    (weights : Dict Str Int)
    (votes : List Transaction)
    (view : Checkpoints)
    (quorum : Quorum) : Prop where
  sourceHeight : view.ffgHeight.get? quorum.link.source = some quorum.link.sourceHeight
  targetHeight : view.ffgHeight.get? quorum.link.target = some quorum.link.targetHeight
  ordered : quorum.link.sourceHeight < quorum.link.targetHeight
  voters : ∀ voter ∈ quorum.voters, CastVote votes voter quorum.link
  reached : quorum.reached = true
  weighed : ∀ address, quorum.unslashedStake address = weights.getD address 0
  nonneg : ∀ address, 0 ≤ quorum.unslashedStake address

/-- The votes and supermajorities behind the checkpoints. -/
structure History
    (genesis : Str)
    (epoch : Int)
    (weights : Dict Str Int)
    (votes : List Transaction)
    (tallied : Quorum → Prop)
    (view : Checkpoints) : Prop where
  snapshots : ∀ hash snapshot, view.ffgStake.get? hash = some snapshot →
    ∀ address, 0 ≤ snapshot.getD address 0
  voters : ∀ edge, ∀ voter ∈ view.ffgVotes.getD edge ∅, ∃ link : Link, link.edge = edge ∧
    view.ffgHeight.get? link.source = some link.sourceHeight ∧
    view.ffgHeight.get? link.target = some link.targetHeight ∧ CastVote votes voter link
  justified : ∀ checkpoint ∈ view.justified, checkpoint = genesis ∨
    ∃ quorum, tallied quorum ∧ quorum.Backed weights votes view ∧
      quorum.link.target = checkpoint ∧ quorum.link.source ∈ view.justified
  finalized : view.finalized = (genesis, 0) ∨
    ∃ quorum, tallied quorum ∧ quorum.Backed weights votes view ∧
      quorum.link.source = view.finalized.1 ∧ quorum.link.sourceHeight = view.finalized.2 ∧
      quorum.link.targetHeight = view.finalized.2 + epoch

variable {genesis : Str} {epoch : Int} {weights : Dict Str Int} {votes : List Transaction}
  {tallied : Quorum → Prop} {view : Checkpoints}

theorem CastVote.mono
    {more : List Transaction}
    {voter : Str}
    {link : Link}
    (cast : CastVote votes voter link)
    (longer : votes ⊆ more) :
    CastVote more voter link := by
  obtain ⟨tx, inside, valid⟩ := cast
  exact ⟨tx, longer inside, valid⟩

/-- More votes and more recorded heights keep a quorum backed. -/
theorem Quorum.Backed.mono
    {more : List Transaction}
    {later : Checkpoints}
    {quorum : Quorum}
    (backed : quorum.Backed weights votes view)
    (longer : votes ⊆ more)
    (heights : ∀ hash height, view.ffgHeight.get? hash = some height →
      later.ffgHeight.get? hash = some height) :
    quorum.Backed weights more later where
  sourceHeight := heights _ _ backed.sourceHeight
  targetHeight := heights _ _ backed.targetHeight
  ordered := backed.ordered
  voters voter inside := (backed.voters voter inside).mono longer
  reached := backed.reached
  weighed := backed.weighed
  nonneg := backed.nonneg

/-- A later view that adds heights and snapshots only keeps the history, over
more votes and more tallies. -/
theorem History.mono
    {more : List Transaction}
    {moreTallied : Quorum → Prop}
    {later : Checkpoints}
    (history : History genesis epoch weights votes tallied view)
    (longer : votes ⊆ more)
    (talliedAfter : ∀ quorum, tallied quorum → moreTallied quorum)
    (heights : ∀ hash height, view.ffgHeight.get? hash = some height →
      later.ffgHeight.get? hash = some height)
    (snapshots : ∀ hash snapshot, later.ffgStake.get? hash = some snapshot →
      ∀ address, 0 ≤ snapshot.getD address 0)
    (sameVotes : later.ffgVotes = view.ffgVotes)
    (sameJustified : later.justified = view.justified)
    (sameFinalized : later.finalized = view.finalized) :
    History genesis epoch weights more moreTallied later where
  snapshots := snapshots
  voters edge voter cast := by
    rw [sameVotes] at cast
    obtain ⟨link, equal, source, target, inside⟩ := history.voters edge voter cast
    exact ⟨link, equal, heights _ _ source, heights _ _ target, inside.mono longer⟩
  justified checkpoint inside := by
    rw [sameJustified] at inside ⊢
    rcases history.justified checkpoint inside with first | ⟨quorum, counted, backed, rest⟩
    · exact .inl first
    · exact .inr ⟨quorum, talliedAfter quorum counted, backed.mono longer heights, rest⟩
  finalized := by
    rw [sameFinalized]
    rcases history.finalized with first | ⟨quorum, counted, backed, rest⟩
    · exact .inl first
    · exact .inr ⟨quorum, talliedAfter quorum counted, backed.mono longer heights, rest⟩

/-! ## One vote -/

section

variable {config : Config} {state : LedgerState} {justifiedParent : Finset Str} {voter : Str}
  {link : Link}

theorem History.snapshot_nonneg
    (history : History genesis epoch weights votes tallied view)
    (hash address : Str) :
    0 ≤ (view.ffgStake.getD hash Dict.empty).getD address 0 := by
  cases found : view.ffgStake.get? hash with
  | none =>
      have absent : view.ffgStake.getD hash Dict.empty = Dict.empty := by
        rw [Dict.getD, found]
        rfl
      rw [absent, Dict.getD_empty]
  | some snapshot =>
      rw [Dict.getD_eq_of_get? found]
      exact history.snapshots hash snapshot found address

/-- Recording an accepted vote adds its voter to the history. -/
theorem History.recordVote
    (history : History genesis config.epoch weights votes tallied state.checkpoints)
    (checked : CheckedVote config justifiedParent state voter link)
    (cast : CastVote votes voter link) :
    History genesis config.epoch weights votes tallied
      (recordVote state voter link).checkpoints := by
  have heights : ∀ quorum : Quorum, quorum.Backed weights votes state.checkpoints →
      quorum.Backed weights votes (Mindees.recordVote state voter link).checkpoints :=
    fun quorum backed => backed.mono (List.Subset.refl votes) (fun _ _ found => found)
  refine ⟨history.snapshots, ?_, ?_, ?_⟩
  · intro edge other inside
    rcases mem_ffgVotes_recordVote.mp inside with ⟨rfl, rfl⟩ | older
    · exact ⟨link, rfl, checked.sourceHeight, checked.targetHeight, cast⟩
    · exact history.voters edge other older
  · intro checkpoint inside
    rcases history.justified checkpoint inside with first | ⟨quorum, counted, backed, rest⟩
    · exact .inl first
    · exact .inr ⟨quorum, counted, heights quorum backed, rest⟩
  · rcases history.finalized with first | ⟨quorum, counted, backed, rest⟩
    · exact .inl first
    · exact .inr ⟨quorum, counted, heights quorum backed, rest⟩

/-- Each voter of a tallied link has cast a vote with that very link. -/
theorem History.voters_cast
    (history : History genesis epoch weights votes tallied view)
    (sourceHeight : view.ffgHeight.get? link.source = some link.sourceHeight)
    (targetHeight : view.ffgHeight.get? link.target = some link.targetHeight)
    {other : Str}
    (inside : other ∈ view.ffgVotes.getD link.edge ∅) :
    CastVote votes other link := by
  obtain ⟨found, edge, source, target, cast⟩ := history.voters link.edge other inside
  have same : found = link := by
    obtain ⟨s, sh, t, th⟩ := found
    obtain ⟨s', sh', t', th'⟩ := link
    cases edge
    obtain rfl : sh = sh' := Option.some.inj (source.symm.trans sourceHeight)
    obtain rfl : th = th' := Option.some.inj (target.symm.trans targetHeight)
    rfl
  exact same ▸ cast

/-- Recording and tallying an accepted vote keeps the history, when its
supermajority is on record and counted over the given weights. -/
theorem History.vote
    (history : History genesis config.epoch weights votes tallied state.checkpoints)
    (parent : justifiedParent ⊆ state.justified)
    (checked : CheckedVote config justifiedParent state voter link)
    (cast : CastVote votes voter link)
    (counted : ((Mindees.recordVote state voter link).quorum link).reached = true →
      tallied ((Mindees.recordVote state voter link).quorum link) ∧
        ∀ address, ((Mindees.recordVote state voter link).quorum link).unslashedStake address =
          weights.getD address 0) :
    History genesis config.epoch weights votes tallied
      (tallyLink config (Mindees.recordVote state voter link) link).checkpoints := by
  have recorded := history.recordVote checked cast
  rcases tallyLink_cases config (Mindees.recordVote state voter link) link with
    ⟨_, same⟩ | ⟨reached, finalized, same, moved⟩
  · rw [same]
    exact recorded
  obtain ⟨onRecord, weighed⟩ := counted reached
  let quorum := (Mindees.recordVote state voter link).quorum link
  have backed : quorum.Backed weights votes
      (tallyLink config (Mindees.recordVote state voter link) link).checkpoints := by
    rw [same]
    refine ⟨checked.sourceHeight, checked.targetHeight, checked.ordered, ?_, reached, weighed, ?_⟩
    · intro other inside
      exact recorded.voters_cast checked.sourceHeight checked.targetHeight inside
    · intro address
      simp only [Quorum.unslashedStake]
      split_ifs
      · exact le_rfl
      · change 0 ≤ (state.ffgStake.getD link.source Dict.empty).getD address 0
        exact history.snapshot_nonneg link.source address
  rw [same] at backed ⊢
  refine ⟨recorded.snapshots, recorded.voters, ?_, ?_⟩
  · intro checkpoint inside
    rcases Finset.mem_insert.mp inside with rfl | older
    · exact .inr ⟨quorum, onRecord, backed, rfl,
        Finset.mem_insert_of_mem (parent checked.source_justified)⟩
    · rcases recorded.justified checkpoint older with first | ⟨other, counted, supported, target, source⟩
      · exact .inl first
      · exact .inr ⟨other, counted, supported.mono (List.Subset.refl votes) (fun _ _ found => found),
          target, Finset.mem_insert_of_mem source⟩
  · rcases moved with rfl | ⟨rfl, child, _⟩
    · rcases recorded.finalized with first | ⟨other, counted, supported, rest⟩
      · exact .inl first
      · exact .inr ⟨other, counted,
          supported.mono (List.Subset.refl votes) (fun _ _ found => found), rest⟩
    · exact .inr ⟨quorum, onRecord, backed, rfl, rfl, child⟩

end

/-! ## Runs -/

namespace ProofOfStakeChain

variable {args : GenesisArgs} {chain : ProofOfStakeChain}

/-- The hashes of a run of fresh blocks are distinct. -/
theorem ReachableBy.distinct
    (reached : ReachableBy args (WeighedBy weights) chain) :
    (chain.chain.map Block.hash).Nodup := by
  induction reached with
  | genesis initialised =>
      obtain ⟨_, _, _, _, _, _, _, _, blocks⟩ := (init_eq_ok _ _).mp initialised
      rw [blocks]
      exact List.nodup_singleton _
  | block _ weighed submitted inductionHypothesis =>
      rw [(submitted_of_submitBlock submitted).blocks, List.map_append, List.map_singleton,
        ← List.concat_eq_append, List.nodup_concat]
      exact ⟨weighed.fresh, inductionHypothesis⟩

/-- Every run of fresh blocks that count their supermajorities over the same
weights has its votes and supermajorities on record. -/
theorem ReachableBy.history
    (reached : ReachableBy args (WeighedBy weights) chain) :
    History (genesisHash args) chain.config.epoch weights (includedVotes chain.chain)
      (Tallied args chain) chain.state.checkpoints := by
  induction reached with
  | genesis initialised =>
      obtain ⟨_, _, _, _, _, _, _, state, _⟩ := (init_eq_ok _ _).mp initialised
      have stakes := (init_healthy initialised).1.stake_nonneg
      rw [state] at stakes ⊢
      refine ⟨?_, ?_, ?_, .inl rfl⟩
      · intro hash snapshot found
        simp only [LedgerState.checkpoints, genesisState, Dict.get?_set] at found
        split_ifs at found
        · cases found
          exact stakes
        · cases found
      · intro edge voter inside
        cases inside
      · intro checkpoint inside
        exact .inl (Finset.mem_singleton.mp inside)
  | @block before after block earlier weighed submitted inductionHypothesis =>
      have accepted := submitted_of_submitBlock submitted
      have healthy := earlier.reachable.healthy
      have fresh := earlier.reachable.bookkeeping.fresh weighed.fresh
      have longer : includedVotes before.chain ⊆ includedVotes after.chain := by
        rw [accepted.blocks, includedVotes, includedVotes, List.flatMap_append, List.filter_append]
        exact List.subset_append_left _ _
      rw [accepted.config]
      let invariant : LedgerState → Prop := fun state =>
        History (genesisHash args) before.config.epoch weights (includedVotes after.chain)
          (Tallied args after) state.checkpoints ∧ before.state.justified ⊆ state.justified
      have finish : invariant after.state := by
        refine applyTxs_invariant_along invariant ?_ ⟨?_, ?_⟩ accepted.ran
        · rintro prior tx rest position state next ran ⟨history, parent⟩ valid _ applied
          simp only [invariant]
          cases applied.checkpointEffect with
          | none same =>
              have justified : next.justified = state.justified :=
                congrArg Checkpoints.justified same
              rw [same, justified]
              exact ⟨history, parent⟩
          | vote link named parsed checked same =>
              have justified : next.justified =
                  (tallyLink before.config (recordVote state tx.sender link) link).justified :=
                congrArg Checkpoints.justified same
              have inside : tx ∈ includedVotes after.chain := by
                rw [accepted.blocks, includedVotes, List.mem_filter, List.mem_flatMap]
                exact ⟨⟨block, by simp, by simp [position]⟩, decide_eq_true named⟩
              rw [same, justified]
              refine ⟨history.vote parent checked ⟨tx, inside, valid, named, rfl, parsed⟩ ?_,
                parent.trans (tallyLink_mono before.config (recordVote state tx.sender link) link).1⟩
              intro reached
              have tally := TalliedIn.vote position ran named parsed reached
              exact ⟨.here earlier.reachable submitted tally, weighed.weighed _ tally⟩
        · refine inductionHypothesis.mono longer (fun quorum counted => .earlier counted submitted)
            (fun hash height found => get?_ffgHeight_applyBlockPre fresh found) ?_ ?_ ?_ ?_
          · intro hash snapshot found
            rw [LedgerState.checkpoints, applyBlockPre_eq] at found
            simp only [] at found
            split_ifs at found with boundary
            · rw [Dict.get?_set] at found
              split_ifs at found
              · cases found
                exact healthy.stake_nonneg
              · exact inductionHypothesis.snapshots hash snapshot found
            · exact inductionHypothesis.snapshots hash snapshot found
          · exact applyBlockPre_ffgVotes before.config block before.state
          · exact applyBlockPre_justified before.config block before.state
          · exact applyBlockPre_finalized before.config block before.state
        · rw [applyBlockPre_justified]
      exact finish.1

end ProofOfStakeChain

end

end Mindees
