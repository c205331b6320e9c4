import Mindees.Consensus.Votes

/-!
# Finality bookkeeping

The checkpoint maps name blocks of the chain at their true heights, justified
checkpoints hang together by recorded links, the finalized checkpoint is a
justified block with a justified epoch child, and no voter is recorded twice for
one target height.
-/

namespace Mindees

open Library

/-- The heights of the checkpoint maps are true, and the finalized checkpoint is
a justified block with a justified epoch child. -/
structure Bookkeeping (epoch : Int) (hashes : List Str) (view : Checkpoints) : Prop where
  height_sound : ∀ hash height, view.ffgHeight.get? hash = some height →
    height % epoch = 0 ∧ ∃ position : Nat, height = position ∧ hashes[position]? = some hash
  height_complete : ∀ (position : Nat) hash, hashes[position]? = some hash →
    (position : Int) % epoch = 0 → view.ffgHeight.contains hash = true
  stake_keys : ∀ hash, view.ffgStake.contains hash = view.ffgHeight.contains hash
  finalized_justified : view.finalized.1 ∈ view.justified
  finalized_position : ∃ position : Nat, view.finalized.2 = position ∧
    hashes[position]? = some view.finalized.1
  child_justified : 0 < view.finalized.2 → ∃ position : Nat,
    (position : Int) = view.finalized.2 + epoch ∧
      ∃ child ∈ view.justified, hashes[position]? = some child

/-- Justified checkpoints hang together by recorded links, and the record of
seen targets knows the link of every recorded vote. -/
structure VoteRecords (genesis : Str) (view : Checkpoints) : Prop where
  justified_link : ∀ checkpoint ∈ view.justified, checkpoint ≠ genesis →
    ∃ height source sourceHeight, view.ffgHeight.get? checkpoint = some height ∧
      source ∈ view.justified ∧ view.ffgHeight.get? source = some sourceHeight ∧
      sourceHeight < height ∧ (view.ffgVotes.getD (source, checkpoint) ∅).Nonempty
  seen_target : ∀ edge, ∀ voter ∈ view.ffgVotes.getD edge ∅,
    ∃ height, view.ffgHeight.get? edge.2 = some height ∧
      view.ffgSeenTarget.get? (voter, height) = some edge

/-! ## The snapshot before the transactions -/

section

variable [Primitives] {config : Config} {hashes : List Str} {state : LedgerState} {block : Block}

/-- A block of the next height keeps the maps truthful. -/
theorem Bookkeeping.applyBlockPre
    (kept : Bookkeeping config.epoch hashes state.checkpoints)
    (next : block.index = hashes.length) :
    Bookkeeping config.epoch (hashes ++ [block.hash])
      (applyBlockPre config block state).checkpoints := by
  have longer : ∀ {position : Nat} {hash : Str}, hashes[position]? = some hash →
      (hashes ++ [block.hash])[position]? = some hash := by
    intro position hash found
    rw [List.getElem?_append_left (List.getElem?_eq_some_iff.mp found).1, found]
  rw [applyBlockPre_eq]
  constructor
  · intro hash height found
    simp only [LedgerState.checkpoints] at found
    split_ifs at found with boundary
    · rw [Dict.get?_set] at found
      split_ifs at found with same
      · cases found
        refine ⟨boundary, hashes.length, next, ?_⟩
        rw [List.getElem?_append_right le_rfl, Nat.sub_self, ← same]
        rfl
      · obtain ⟨true_height, position, equal, here⟩ := kept.height_sound hash height found
        exact ⟨true_height, position, equal, longer here⟩
    · obtain ⟨true_height, position, equal, here⟩ := kept.height_sound hash height found
      exact ⟨true_height, position, equal, longer here⟩
  · intro position hash here multiple
    simp only [LedgerState.checkpoints]
    by_cases old : position < hashes.length
    · rw [List.getElem?_append_left old] at here
      have known := kept.height_complete position hash here multiple
      split_ifs with boundary
      · rw [Dict.contains_set, Bool.or_eq_true]
        exact .inr known
      · exact known
    · rw [List.getElem?_append_right (not_lt.mp old), List.getElem?_singleton] at here
      split_ifs at here with last
      cases here
      have exact_position : (position : Int) = block.index := by omega
      rw [if_pos (exact_position ▸ multiple), Dict.contains_set, decide_eq_true rfl,
        Bool.true_or]
  · intro hash
    simp only [LedgerState.checkpoints]
    split_ifs with boundary
    · have same := kept.stake_keys hash
      simp only [LedgerState.checkpoints] at same
      rw [Dict.contains_set, Dict.contains_set, same]
    · exact kept.stake_keys hash
  · exact kept.finalized_justified
  · obtain ⟨position, equal, here⟩ := kept.finalized_position
    exact ⟨position, equal, longer here⟩
  · intro positive
    obtain ⟨position, equal, child, justified, here⟩ := kept.child_justified positive
    exact ⟨position, equal, child, justified, longer here⟩

/-- A fresh block hash names no recorded checkpoint. -/
theorem Bookkeeping.fresh
    (kept : Bookkeeping config.epoch hashes state.checkpoints)
    (fresh : block.hash ∉ hashes) :
    state.ffgHeight.get? block.hash = none := by
  cases found : state.ffgHeight.get? block.hash with
  | none => rfl
  | some height =>
      obtain ⟨_, position, _, here⟩ := kept.height_sound block.hash height found
      exact absurd (List.mem_of_getElem? here) fresh

/-- A block with a fresh hash overwrites no recorded height. -/
theorem get?_ffgHeight_applyBlockPre
    (fresh : state.ffgHeight.get? block.hash = none)
    {hash : Str}
    {height : Int}
    (found : state.ffgHeight.get? hash = some height) :
    (applyBlockPre config block state).ffgHeight.get? hash = some height := by
  rw [applyBlockPre_eq]
  have different : block.hash ≠ hash := by
    rintro rfl
    rw [fresh] at found
    cases found
  split_ifs
  · rw [Dict.get?_set, if_neg different, found]
  · exact found

theorem VoteRecords.applyBlockPre
    {genesis : Str}
    (records : VoteRecords genesis state.checkpoints)
    (fresh : state.ffgHeight.get? block.hash = none) :
    VoteRecords genesis (applyBlockPre config block state).checkpoints := by
  constructor
  · intro checkpoint inside notGenesis
    simp only [LedgerState.checkpoints, applyBlockPre_justified, applyBlockPre_ffgVotes] at inside ⊢
    obtain ⟨height, source, sourceHeight, target, sourceJustified, sourceFound, ordered, voted⟩ :=
      records.justified_link checkpoint inside notGenesis
    exact ⟨height, source, sourceHeight, get?_ffgHeight_applyBlockPre fresh target,
      sourceJustified, get?_ffgHeight_applyBlockPre fresh sourceFound, ordered, voted⟩
  · intro edge voter voted
    simp only [LedgerState.checkpoints, applyBlockPre_ffgSeenTarget, applyBlockPre_ffgVotes] at voted ⊢
    obtain ⟨height, target, recorded⟩ := records.seen_target edge voter voted
    exact ⟨height, get?_ffgHeight_applyBlockPre fresh target, recorded⟩

end

/-! ## Votes -/

section

variable {config : Config} {hashes : List Str} {state : LedgerState}
  {justifiedParent : Finset Str} {voter : Str} {link : Link}

/-- An accepted vote keeps the heights and the finalized checkpoint truthful. -/
theorem Bookkeeping.vote
    (kept : Bookkeeping config.epoch hashes state.checkpoints)
    (parent : justifiedParent ⊆ state.justified)
    (checked : CheckedVote config justifiedParent state voter link) :
    Bookkeeping config.epoch hashes
      (tallyLink config (recordVote state voter link) link).checkpoints := by
  have voted : Bookkeeping config.epoch hashes (recordVote state voter link).checkpoints :=
    ⟨kept.height_sound, kept.height_complete, kept.stake_keys, kept.finalized_justified,
      kept.finalized_position, kept.child_justified⟩
  rcases tallyLink_cases config (recordVote state voter link) link with
    ⟨_, same⟩ | ⟨_, finalized, same, moved⟩
  · rw [same]
    exact voted
  rw [same]
  rcases moved with rfl | ⟨rfl, child, _⟩
  · refine ⟨kept.height_sound, kept.height_complete, kept.stake_keys,
      Finset.mem_insert_of_mem kept.finalized_justified, kept.finalized_position, ?_⟩
    intro positive
    obtain ⟨position, equal, block, justified, here⟩ := kept.child_justified positive
    exact ⟨position, equal, block, Finset.mem_insert_of_mem justified, here⟩
  · obtain ⟨_, position, equal, here⟩ := kept.height_sound _ _ checked.sourceHeight
    obtain ⟨_, childPosition, childEqual, childHere⟩ :=
      kept.height_sound _ _ checked.targetHeight
    refine ⟨kept.height_sound, kept.height_complete, kept.stake_keys,
      Finset.mem_insert_of_mem (parent checked.source_justified), ⟨position, equal, here⟩, ?_⟩
    intro _
    exact ⟨childPosition, by rw [← childEqual, child]; rfl, link.target,
      Finset.mem_insert_self _ _, childHere⟩

/-- The voters of an edge after one more vote. -/
theorem mem_ffgVotes_recordVote
    {edge : Str × Str}
    {other : Str} :
    other ∈ (recordVote state voter link).ffgVotes.getD edge ∅ ↔
      (edge = link.edge ∧ other = voter) ∨ other ∈ state.ffgVotes.getD edge ∅ := by
  simp only [recordVote, Dict.getD_set, Link.edge]
  split_ifs with same
  · rw [Finset.mem_insert, same]
    simp
  · simp [Ne.symm same]

/-- An accepted vote is the only one of its voter for its target height. -/
theorem VoteRecords.vote
    {genesis : Str}
    (records : VoteRecords genesis state.checkpoints)
    (parent : justifiedParent ⊆ state.justified)
    (checked : CheckedVote config justifiedParent state voter link) :
    VoteRecords genesis
      (tallyLink config (recordVote state voter link) link).checkpoints := by
  have voted : VoteRecords genesis (recordVote state voter link).checkpoints := by
    constructor
    · intro checkpoint inside notGenesis
      obtain ⟨height, source, sourceHeight, target, justified, sourceFound, ordered, some, cast⟩ :=
        records.justified_link checkpoint inside notGenesis
      exact ⟨height, source, sourceHeight, target, justified, sourceFound, ordered, some,
        mem_ffgVotes_recordVote.mpr (.inr cast)⟩
    · intro edge other cast
      rcases mem_ffgVotes_recordVote.mp cast with ⟨rfl, rfl⟩ | older
      · refine ⟨link.targetHeight, checked.targetHeight, ?_⟩
        exact (Dict.get?_set _ _ _ _).trans (if_pos rfl)
      · obtain ⟨height, target, recorded⟩ := records.seen_target edge other older
        refine ⟨height, target, ?_⟩
        change (state.ffgSeenTarget.set (voter, link.targetHeight) link.edge).get?
          (other, height) = some edge
        rw [Dict.get?_set]
        split_ifs with same
        · cases same
          have found : state.ffgSeenTarget.getD (voter, link.targetHeight) link.edge = edge :=
            Dict.getD_eq_of_get? recorded link.edge
          rw [← found, checked.unseen]
        · exact recorded
  rcases tallyLink_cases config (recordVote state voter link) link with
    ⟨_, same⟩ | ⟨_, finalized, same, _⟩
  · rw [same]
    exact voted
  rw [same]
  refine ⟨?_, voted.seen_target⟩
  intro checkpoint inside notGenesis
  rcases Finset.mem_insert.mp inside with rfl | older
  · exact ⟨link.targetHeight, link.source, link.sourceHeight, checked.targetHeight,
      Finset.mem_insert_of_mem (parent checked.source_justified), checked.sourceHeight,
      checked.ordered, voter, mem_ffgVotes_recordVote.mpr (.inl ⟨rfl, rfl⟩)⟩
  · obtain ⟨height, source, sourceHeight, target, justified, rest⟩ :=
      voted.justified_link checkpoint older notGenesis
    exact ⟨height, source, sourceHeight, target, Finset.mem_insert_of_mem justified, rest⟩

/-- A vote never takes a justified checkpoint back and never lowers the
finalized height. -/
theorem tallyLink_mono
    (config : Config)
    (state : LedgerState)
    (link : Link) :
    state.justified ⊆ (tallyLink config state link).justified ∧
      state.finalized.2 ≤ (tallyLink config state link).finalized.2 := by
  rcases tallyLink_cases config state link with ⟨_, same⟩ | ⟨_, finalized, same, moved⟩
  · rw [same]
    exact ⟨Finset.Subset.refl _, le_rfl⟩
  · rw [same]
    refine ⟨Finset.subset_insert _ _, ?_⟩
    rcases moved with rfl | ⟨rfl, _, higher⟩
    · exact le_rfl
    · exact higher.le

end

/-! ## Runs -/

section

variable [Primitives] {args : GenesisArgs} {chain : ProofOfStakeChain}

namespace ProofOfStakeChain

/-- The hash of the genesis block. -/
def genesisHash (args : GenesisArgs) : Str := (genesisBlock args.timestamp).hash

/-- What a block does to the bookkeeping: it stays truthful, nothing justified
is taken back, and the finalized height does not fall. -/
theorem applyChecked_bookkeeping
    {block : Block}
    {after : LedgerState}
    (kept : Bookkeeping chain.config.epoch (chain.chain.map Block.hash) chain.state.checkpoints)
    (next : block.index = chain.chain.length)
    (checked : chain.applyChecked block = .ok after) :
    Bookkeeping chain.config.epoch (chain.chain.map Block.hash ++ [block.hash])
        after.checkpoints ∧
      chain.state.justified ⊆ after.justified ∧
      chain.state.finalized.2 ≤ after.finalized.2 := by
  obtain ⟨_, _, _, _, applied⟩ := (applyChecked_eq_ok chain block after).mp checked
  let invariant : Checkpoints → Prop := fun view =>
    Bookkeeping chain.config.epoch (chain.chain.map Block.hash ++ [block.hash]) view ∧
      chain.state.justified ⊆ view.justified ∧ chain.state.finalized.2 ≤ view.finalized.2
  refine applyTxs_checkpoints invariant ?_ ⟨?_, ?_, ?_⟩ applied
  · rintro state voter link ⟨kept, parent, higher⟩ vote
    obtain ⟨justified, finalized⟩ :=
      tallyLink_mono chain.config (recordVote state voter link) link
    exact ⟨kept.vote parent vote, parent.trans justified, higher.trans finalized⟩
  · exact kept.applyBlockPre (by rw [next, List.length_map])
  · exact (applyBlockPre_justified chain.config block chain.state).symm ▸ Finset.Subset.refl _
  · exact (applyBlockPre_finalized chain.config block chain.state).symm ▸ le_rfl

theorem init_bookkeeping
    (initialised : init args = .ok chain) :
    Bookkeeping chain.config.epoch (chain.chain.map Block.hash) chain.state.checkpoints ∧
      VoteRecords (genesisHash args) chain.state.checkpoints := by
  obtain ⟨_, balances, stakes, _, _, _, _, state, blocks⟩ :=
    (init_eq_ok args chain).mp initialised
  have heights : ∀ hash height,
      (Dict.empty.set (genesisHash args) 0 : Dict Str Int).get? hash = some height ↔
        genesisHash args = hash ∧ height = 0 := by
    intro hash height
    rw [Dict.get?_set]
    split_ifs with same <;> simp [same, eq_comm]
  rw [state, blocks]
  refine ⟨⟨?_, ?_, ?_, ?_, ?_, ?_⟩, ?_, ?_⟩
  · intro hash height found
    obtain ⟨rfl, rfl⟩ := (heights hash height).mp found
    exact ⟨Int.zero_emod _, 0, rfl, rfl⟩
  · intro position hash here _
    rw [List.map_singleton, List.getElem?_singleton] at here
    split_ifs at here
    cases here
    exact (Dict.contains_iff _ _).mpr ⟨0, (heights _ 0).mpr ⟨rfl, rfl⟩⟩
  · intro hash
    simp only [LedgerState.checkpoints, genesisState, Dict.contains_set]
    rfl
  · exact Finset.mem_singleton_self _
  · exact ⟨0, rfl, rfl⟩
  · intro positive
    exact absurd positive (lt_irrefl 0)
  · intro checkpoint inside notGenesis
    exact absurd (Finset.mem_singleton.mp inside) notGenesis
  · intro edge voter voted
    cases voted

/-- Reachable chains keep truthful books. -/
theorem Reachable.bookkeeping
    (reachable : Reachable args chain) :
    Bookkeeping chain.config.epoch (chain.chain.map Block.hash) chain.state.checkpoints := by
  induction reachable with
  | genesis initialised => exact (init_bookkeeping initialised).1
  | @block before after block earlier submitted inductionHypothesis =>
      have accepted := submitted_of_submitBlock submitted
      have next := earlier.next_position accepted
      rw [accepted.config, accepted.blocks, List.map_append]
      exact (applyChecked_bookkeeping inductionHypothesis next accepted.checked).1

/-- Without hash collisions, reachable chains link what they justify. -/
theorem Reachable.voteRecords
    (reachable : Reachable args chain)
    (distinct : (chain.chain.map Block.hash).Nodup) :
    VoteRecords (genesisHash args) chain.state.checkpoints := by
  induction reachable with
  | genesis initialised => exact (init_bookkeeping initialised).2
  | @block before after block earlier submitted inductionHypothesis =>
      have accepted := submitted_of_submitBlock submitted
      rw [accepted.blocks, List.map_append, List.map_singleton, ← List.concat_eq_append,
        List.nodup_concat] at distinct
      obtain ⟨new, distinctBefore⟩ := distinct
      have fresh := earlier.bookkeeping.fresh new
      let invariant : Checkpoints → Prop := fun view =>
        VoteRecords (genesisHash args) view ∧ before.state.justified ⊆ view.justified
      have kept : invariant after.state.checkpoints := by
        refine applyTxs_checkpoints invariant ?_ ⟨?_, ?_⟩ accepted.ran
        · rintro state voter link ⟨records, parent⟩ vote
          obtain ⟨justified, _⟩ :=
            tallyLink_mono before.config (recordVote state voter link) link
          exact ⟨records.vote parent vote, parent.trans justified⟩
        · exact (inductionHypothesis distinctBefore).applyBlockPre fresh
        · exact (applyBlockPre_justified before.config block before.state).symm ▸
            Finset.Subset.refl _
      exact kept.1

/-- A block never lowers the finalized height. -/
theorem Reachable.finalized_mono
    {block : Block}
    {after : ProofOfStakeChain}
    (reachable : Reachable args chain)
    (submitted : chain.submitBlock block = .ok after) :
    chain.state.finalized.2 ≤ after.state.finalized.2 := by
  have accepted := submitted_of_submitBlock submitted
  have next := reachable.next_position accepted
  exact (applyChecked_bookkeeping reachable.bookkeeping next accepted.checked).2.2

/-- The books of every reachable chain without hash collisions: the checkpoint
maps name exactly the blocks at epoch boundaries, at their true heights;
justified checkpoints have a recorded link from a lower justified one; the
finalized checkpoint is a justified block of the chain with a justified epoch
child, at a height that no block lowers; and no voter is recorded under two
links with one target height. -/
theorem Reachable.ffg_bookkeeping
    (reachable : Reachable args chain)
    (distinct : (chain.chain.map Block.hash).Nodup) :
    (∀ hash height, chain.state.ffgHeight.get? hash = some height ↔
      height % chain.config.epoch = 0 ∧
        ∃ position : Nat, height = position ∧ chain.hashAt position = some hash) ∧
    (∀ hash, chain.state.ffgStake.contains hash = true ↔
      ∃ position : Nat, (position : Int) % chain.config.epoch = 0 ∧
        chain.hashAt position = some hash) ∧
    (∀ checkpoint ∈ chain.state.justified, chain.hashAt 0 ≠ some checkpoint →
      ∃ height source sourceHeight, chain.state.ffgHeight.get? checkpoint = some height ∧
        source ∈ chain.state.justified ∧
        chain.state.ffgHeight.get? source = some sourceHeight ∧ sourceHeight < height ∧
        (chain.state.ffgVotes.getD (source, checkpoint) ∅).Nonempty) ∧
    (chain.state.finalized.1 ∈ chain.state.justified ∧
      ∃ position : Nat, chain.state.finalized.2 = position ∧
        chain.hashAt position = some chain.state.finalized.1) ∧
    (0 < chain.state.finalized.2 → ∃ position : Nat,
      (position : Int) = chain.state.finalized.2 + chain.config.epoch ∧
        ∃ child ∈ chain.state.justified, chain.hashAt position = some child) ∧
    (∀ block after, chain.submitBlock block = .ok after →
      chain.state.finalized.2 ≤ after.state.finalized.2) ∧
    ∀ voter left right height, voter ∈ chain.state.ffgVotes.getD left ∅ →
      voter ∈ chain.state.ffgVotes.getD right ∅ →
      chain.state.ffgHeight.get? left.2 = some height →
      chain.state.ffgHeight.get? right.2 = some height → left = right := by
  have books := reachable.bookkeeping
  have records := reachable.voteRecords distinct
  have hashes : ∀ position : Nat,
      chain.hashAt position = (chain.chain.map Block.hash)[position]? :=
    fun position => (List.getElem?_map ..).symm
  obtain ⟨_, _, first⟩ := reachable.config_eq
  have origin : chain.hashAt 0 = some (genesisHash args) := by
    rw [hashAt, first]
    rfl
  -- distinct hashes make the recorded height of a boundary block its own
  have complete : ∀ (position : Nat) hash, (position : Int) % chain.config.epoch = 0 →
      chain.hashAt position = some hash →
      chain.state.ffgHeight.get? hash = some (position : Int) := by
    intro position hash boundary here
    rw [hashes] at here
    obtain ⟨height, found⟩ :=
      (Dict.contains_iff _ _).mp (books.height_complete position hash here boundary)
    obtain ⟨_, other, equal, there⟩ := books.height_sound hash height found
    have same : position = other := by
      have inside := (List.getElem?_eq_some_iff.mp here).1
      exact (List.getElem?_inj inside distinct).mp (here.trans there.symm)
    rw [same, ← equal]
    exact found
  refine ⟨?_, ?_, ?_, ⟨books.finalized_justified, ?_⟩, ?_, ?_, ?_⟩
  · intro hash height
    constructor
    · intro found
      obtain ⟨boundary, position, equal, here⟩ := books.height_sound hash height found
      exact ⟨boundary, position, equal, (hashes position).trans here⟩
    · rintro ⟨boundary, position, rfl, here⟩
      exact complete position hash boundary here
  · intro hash
    rw [show chain.state.ffgStake.contains hash = chain.state.ffgHeight.contains hash from
      books.stake_keys hash]
    constructor
    · intro recorded
      obtain ⟨height, found⟩ := (Dict.contains_iff _ _).mp recorded
      obtain ⟨boundary, position, rfl, here⟩ := books.height_sound hash height found
      exact ⟨position, boundary, (hashes position).trans here⟩
    · rintro ⟨position, boundary, here⟩
      exact (Dict.contains_iff _ _).mpr ⟨position, complete position hash boundary here⟩
  · intro checkpoint inside notGenesis
    refine records.justified_link checkpoint inside ?_
    rintro rfl
    exact notGenesis origin
  · obtain ⟨position, equal, here⟩ := books.finalized_position
    exact ⟨position, equal, (hashes position).trans here⟩
  · intro positive
    obtain ⟨position, equal, child, justified, here⟩ := books.child_justified positive
    exact ⟨position, equal, child, justified, (hashes position).trans here⟩
  · intro block after submitted
    exact reachable.finalized_mono submitted
  · intro voter left right height votedLeft votedRight targetLeft targetRight
    obtain ⟨heightLeft, foundLeft, seenLeft⟩ := records.seen_target left voter votedLeft
    obtain ⟨heightRight, foundRight, seenRight⟩ := records.seen_target right voter votedRight
    obtain rfl : heightLeft = height := Option.some.inj (foundLeft.symm.trans targetLeft)
    obtain rfl : heightRight = heightLeft := Option.some.inj (foundRight.symm.trans targetRight)
    exact Option.some.inj (seenLeft.symm.trans seenRight)

end ProofOfStakeChain

end

/-! ## A finalizing run -/

namespace FinalitySample

open ProofOfStakeChain

attribute [local instance] Symbolic.primitives

def keyring : List Wallet := [Symbolic.wallet 1]

/-- One validator owns everything. -/
def args : GenesisArgs where
  allocations := Dict.empty.set (Symbolic.wallet 1).address MAX_SUPPLY_UNITS
  initialStakes := Dict.empty.set (Symbolic.wallet 1).address 500
  epoch := 1

/-- Vote for the first block, then from it for the second. -/
def rounds : List (List Draft) := [[], [.vote 0 0 1 0], [.vote 0 1 2 0]]

theorem finalizing : succeeded (play keyring args rounds) = true := by decide +kernel

/-- The chain that has finalized its first block. -/
@[irreducible] def chain : ProofOfStakeChain := outcome (play keyring args rounds) finalizing

theorem chain_reachable : Reachable args chain := by
  unfold chain
  exact play_reachable (eq_ok_outcome _ finalizing)

/-- The bookkeeping theorem on it. -/
theorem ffg_bookkeeping_sample :
    chain.state.finalized.2 = 1 ∧ chain.state.finalized.1 ∈ chain.state.justified ∧
      ∃ position : Nat, (position : Int) = chain.state.finalized.2 + chain.config.epoch ∧
        ∃ child ∈ chain.state.justified, chain.hashAt position = some child := by
  have height : chain.state.finalized.2 = 1 := by decide +kernel
  have distinct : (chain.chain.map Block.hash).Nodup := by decide +kernel
  obtain ⟨_, _, _, ⟨justified, _⟩, child, _⟩ :=
    chain_reachable.ffg_bookkeeping distinct
  have positive : 0 < chain.state.finalized.2 := by
    rw [height]
    exact Int.one_pos
  exact ⟨height, justified, child positive⟩

end FinalitySample

end Mindees
