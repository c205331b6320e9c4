import Mindees.Consensus.Electable
import Mindees.Consensus.Keyed
import Mindees.Consensus.Quorums
import Mindees.Node.Acceptance
import Mindees.Node.Voting

/-!
# Finality under one validator

A single validator votes for every checkpoint in the block that follows it.  Each
such vote carries the whole stake, so it justifies the checkpoint and finalizes
the one before.
-/

namespace Mindees

open Library

/-! ## Heights -/

/-- The highest checkpoint height below a height, or zero. -/
def checkpointBelow (epoch height : Nat) : Nat := (height - 1) / epoch * epoch

section

variable {epoch height position : Nat}

theorem dvd_checkpointBelow (epoch height : Nat) : epoch ∣ checkpointBelow epoch height :=
  Dvd.intro_left _ rfl

theorem checkpointBelow_lt
    (positive : 0 < height) :
    checkpointBelow epoch height < height := by
  have bound : checkpointBelow epoch height ≤ height - 1 := Nat.div_mul_le_self _ _
  omega

/-- A checkpoint height below a height is at most the highest one. -/
theorem le_checkpointBelow
    (checkpoint : epoch ∣ position)
    (below : position < height) :
    position ≤ checkpointBelow epoch height := by
  obtain ⟨count, rfl⟩ := checkpoint
  rcases Nat.eq_zero_or_pos epoch with rfl | positive
  · simp
  · have fits : count ≤ (height - 1) / epoch := by
      rw [Nat.le_div_iff_mul_le positive, mul_comm]
      omega
    rw [checkpointBelow, mul_comm]
    exact Nat.mul_le_mul_right epoch fits

/-- Above a checkpoint it is the highest one. -/
theorem checkpointBelow_succ_of_dvd
    (checkpoint : epoch ∣ height) :
    checkpointBelow epoch (height + 1) = height := Nat.div_mul_cancel checkpoint

/-- Above any other height nothing changes. -/
theorem checkpointBelow_succ_of_not_dvd
    (between : ¬epoch ∣ height) :
    checkpointBelow epoch (height + 1) = checkpointBelow epoch height := by
  have top := dvd_checkpointBelow epoch (height + 1)
  have least : checkpointBelow epoch (height + 1) < height + 1 :=
    checkpointBelow_lt (Nat.succ_pos _)
  have apart : checkpointBelow epoch (height + 1) ≠ height := fun same => between (same ▸ top)
  apply le_antisymm
  · exact le_checkpointBelow top (by omega)
  · exact le_checkpointBelow (dvd_checkpointBelow epoch height)
      ((Nat.div_mul_le_self _ _).trans_lt (by omega))

/-- The checkpoint before one is an epoch below it. -/
theorem checkpointBelow_of_dvd
    (positive : 0 < epoch)
    (above : 0 < height)
    (checkpoint : epoch ∣ height) :
    checkpointBelow epoch height = height - epoch := by
  obtain ⟨count, rfl⟩ := checkpoint
  have counted : 0 < count := Nat.pos_of_mul_pos_left above
  have quotient : (epoch * count - 1) / epoch = count - 1 := by
    rw [Nat.div_eq_iff positive]
    constructor
    · rw [mul_comm, Nat.mul_sub, mul_one]
      omega
    · have more : epoch * (count - 1) + epoch = epoch * count := by
        rw [← Nat.mul_succ]
        congr 1
        omega
      rw [mul_comm (count - 1)]
      omega
  rw [checkpointBelow, quotient, mul_comm, Nat.mul_sub, mul_one]

end

/-! ## One staker -/

section

variable {voter : Str} {stake : Int}

/-- The stakes of a chain with one staker. -/
def onlyStake (voter : Str) (stake : Int) : Dict Str Int := Dict.empty.set voter stake

theorem getD_onlyStake (address : Str) :
    (onlyStake voter stake).getD address 0 = if voter = address then stake else 0 := by
  rw [onlyStake, Dict.getD_set, Dict.getD_empty]

/-- The only staker wins every election. -/
theorem electValidator_onlyStake
    (positive : 0 < stake)
    (drawn : Bytes) :
    electValidator (onlyStake voter stake) drawn = .ok voter := by
  have staked : HasValidator (onlyStake voter stake) := by
    refine ⟨voter, ?_⟩
    rwa [getD_onlyStake, if_pos rfl]
  obtain ⟨address, elected⟩ := electValidator_total staked drawn
  have winner := electValidator_pos elected
  rw [getD_onlyStake] at winner
  by_cases same : voter = address
  · rw [elected, same]
  · rw [if_neg same] at winner
    exact absurd winner (lt_irrefl 0)

theorem activeStake_onlyStake :
    activeStake (onlyStake voter stake) ∅ = stake := by
  rw [activeStake, onlyStake, Dict.sumBy_set]
  simp [Dict.quantityAt]

theorem stake_le_votedStake
    (nonneg : 0 ≤ stake)
    {voters : Finset Str}
    (voted : voter ∈ voters) :
    stake ≤ votedStake (onlyStake voter stake) voters ∅ := by
  have stakes : ∀ address, 0 ≤ (onlyStake voter stake).getD address 0 := by
    intro address
    rw [getD_onlyStake]
    split_ifs
    · exact nonneg
    · exact le_refl 0
  have counted : (onlyStake voter stake).getD voter 0 ≤
      voters.sum fun address => (onlyStake voter stake).getD address 0 :=
    Finset.single_le_sum (fun address _ => stakes address) voted
  rw [getD_onlyStake, if_pos rfl] at counted
  rwa [votedStake, Finset.sdiff_empty]

/-- One vote of the only staker is a supermajority. -/
theorem isSupermajority_onlyStake
    (positive : 0 < stake)
    {voters : Finset Str}
    (voted : voter ∈ voters) :
    isSupermajority (votedStake (onlyStake voter stake) voters ∅)
      (activeStake (onlyStake voter stake) ∅) = true := by
  have enough := stake_le_votedStake positive.le voted
  rw [isSupermajority_iff, activeStake_onlyStake]
  omega

end

/-! ## The ledger of one validator -/

theorem matureUnbonding_of_empty
    {state : LedgerState}
    (height : Int)
    (empty : state.unbonding = Dict.empty) :
    matureUnbonding height state = state := by
  have queues : (matureUnbonding height state).unbonding = state.unbonding := by
    rw [matureUnbonding, empty]
    rfl
  have coins : (matureUnbonding height state).balances = state.balances := by
    rw [matureUnbonding, empty]
    rfl
  cases state
  simp only [matureUnbonding] at queues coins ⊢
  rw [queues, coins]

/-- A ledger on which one validator holds all stake, now and at every
checkpoint. -/
structure Solo (voter : Str) (stake : Int) (state : LedgerState) : Prop where
  account : state.balances.contains voter = true
  stakes : state.stakes = onlyStake voter stake
  unbonding : state.unbonding = Dict.empty
  unslashed : state.slashedAddrs = ∅
  snapshots : ∀ hash snapshot, state.ffgStake.get? hash = some snapshot →
    snapshot = onlyStake voter stake

namespace Solo

variable [Primitives] {voter : Str} {stake : Int} {state after : LedgerState}
  {config : Config} {block : Block} {justifiedParent : Finset Str} {tx : Transaction}
  {link : Link}

theorem applyBlockPre
    (solo : Solo voter stake state)
    (config : Config)
    (block : Block) :
    Solo voter stake (applyBlockPre config block state) := by
  rw [applyBlockPre_eq, matureUnbonding_of_empty block.index solo.unbonding]
  refine ⟨solo.account, solo.stakes, solo.unbonding, solo.unslashed, ?_⟩
  intro hash snapshot found
  dsimp only at found
  split_ifs at found
  · rw [Dict.get?_set] at found
    split_ifs at found
    · rw [← Option.some.inj found, solo.stakes]
    · exact solo.snapshots hash snapshot found
  · exact solo.snapshots hash snapshot found

/-- A vote moves no stake. -/
theorem applied
    (solo : Solo voter stake state)
    (applied : Applied config block justifiedParent state tx after)
    (named : tx.recipient = VOTE_SENTINEL) :
    Solo voter stake after := by
  have accepted : applyVote config block justifiedParent state tx = .ok after := by
    cases applied with
    | stake other _ _ => exact absurd (other.symm.trans named) (by decide)
    | unstake other _ _ => exact absurd (other.symm.trans named) (by decide)
    | slash other _ => exact absurd (other.symm.trans named) (by decide)
    | payment _ _ _ notVote _ _ => exact absurd named notVote
    | vote _ moved => exact moved
  obtain ⟨link, _, _, _, paid, settled, rfl⟩ := (applyVote_eq_ok _ _ _ _ _ _).mp accepted
  obtain ⟨_, rfl⟩ := (payFee_eq_ok _ _ _ _).mp settled
  obtain ⟨justified, finalized, frame⟩ := tallyLink_frame config
    (recordVote { state with balances := _, nonces := _ } tx.sender link) link
  rw [frame]
  refine ⟨?_, solo.stakes, solo.unbonding, solo.unslashed, solo.snapshots⟩
  have account := solo.account
  simp only [recordVote, credit, Dict.contains_set, account, Bool.or_true]

omit [Primitives] in
/-- A checkpoint with stake on record is one at which the validator holds all of it. -/
theorem snapshot_eq
    (solo : Solo voter stake state)
    {hash address : Str}
    (positive : 0 < (state.ffgStake.getD hash Dict.empty).getD address 0) :
    state.ffgStake.getD hash Dict.empty = onlyStake voter stake := by
  cases found : state.ffgStake.get? hash with
  | none =>
      have missing : state.ffgStake.getD hash Dict.empty = Dict.empty := by
        rw [Dict.getD, found]
        rfl
      rw [missing] at positive
      exact absurd positive (lt_irrefl 0)
  | some snapshot => rw [Dict.getD_eq_of_get? found, solo.snapshots hash snapshot found]

/-- A vote of the validator has a quorum at once. -/
theorem reachesQuorum
    (solo : Solo voter stake state)
    (staked : 0 < stake)
    (applied : Applied config block justifiedParent state tx after)
    (byVoter : tx.sender = voter)
    (voted : votedLink tx = some link) :
    after.reachesQuorum link.edge = true := by
  obtain ⟨_, votes, _⟩ := applied.records_of_vote voted
  obtain ⟨checked, _, slashed⟩ := applied.checkpoints_of_vote voted
  have inside : voter ∈ (recordVote state tx.sender link).ffgVotes.getD link.edge ∅ := by
    rw [mem_ffgVotes_recordVote]
    exact .inl ⟨rfl, byVoter.symm⟩
  have snapshot : state.ffgStake.getD link.edge.1 Dict.empty = onlyStake voter stake :=
    solo.snapshot_eq checked.staked
  rw [LedgerState.reachesQuorum, applied.ffgStake_eq, votes, slashed, solo.unslashed, snapshot]
  exact isSupermajority_onlyStake staked inside

end Solo

/-- A vote whose facts are in order passes the checks. -/
theorem CheckedVote.checkVote
    {config : Config}
    {justifiedParent : Finset Str}
    {state : LedgerState}
    {voter : Str}
    {link : Link}
    (checked : CheckedVote config justifiedParent state voter link)
    (target : state.ffgStake.contains link.target = true) :
    checkVote config justifiedParent state voter link = .ok () := by
  have staked := checked.staked
  cases found : state.ffgStake.get? link.source with
  | none =>
      have missing : state.ffgStake.getD link.source Dict.empty = Dict.empty := by
        rw [Dict.getD, found]
        rfl
      rw [missing] at staked
      exact absurd staked (lt_irrefl 0)
  | some snapshot =>
      rw [Dict.getD_eq_of_get? found] at staked
      have source : state.ffgStake.contains link.source = true :=
        (Dict.contains_iff _ _).mpr ⟨snapshot, found⟩
      simp only [Mindees.checkVote, rejectIf, bind_eq_ok, raiseIf_eq_ok, require_eq_ok, exists_unit,
        not_or, not_not, not_le, ne_eq, Bool.not_eq_false]
      exact ⟨⟨checked.source_boundary, checked.target_boundary, checked.ordered⟩,
        ⟨source, target⟩, _, checked.sourceHeight, rfl, _, checked.targetHeight, rfl,
        checked.source_justified, checked.unslashed, snapshot, found, staked, checked.unseen⟩

/-! ## The pace of finality -/

section

variable [Primitives]

/-- The validator has voted for every checkpoint below the head, and for no other.
All of them but the highest are final. -/
structure Paced (epoch : Nat) (voter : Str) (stake : Int) (chain : ProofOfStakeChain) (height : Nat) :
    Prop where
  length : chain.chain.length = height + 1
  solo : Solo voter stake chain.state
  seen : ∀ position : Nat,
    chain.state.ffgSeenTarget.contains (voter, (position : Int)) = true ↔
      0 < position ∧ epoch ∣ position ∧ position ≤ checkpointBelow epoch height
  justified : ∀ (position : Nat) hash, chain.hashAt position = some hash → epoch ∣ position →
    (hash ∈ chain.state.justified ↔ position ≤ checkpointBelow epoch height)
  finalized : chain.state.finalized.2 = (checkpointBelow epoch height - epoch : Nat)

namespace Paced

open ProofOfStakeChain

variable {epoch height : Nat} {voter : Str} {stake : Int} {args : GenesisArgs}
  {chain after : ProofOfStakeChain} {block : Block}

/-- Only blocks of the chain are justified. -/
theorem present_of_justified
    (reachable : Reachable args chain)
    {hash : Str}
    (justified : hash ∈ chain.state.justified) :
    hash ∈ chain.chain.map Block.hash := by
  have recorded := reachable.justified_recorded hash justified
  obtain ⟨level, found⟩ := (Dict.contains_iff _ _).mp recorded
  obtain ⟨_, position, _, here⟩ := reachable.bookkeeping.height_sound hash level found
  exact List.mem_of_getElem? here

/-- A hash on the extended chain is the new one or stands where it stood. -/
theorem hashAt_cases
    (paced : Paced epoch voter stake chain height)
    (submitted : chain.submitBlock block = .ok after)
    {position : Nat}
    {hash : Str}
    (here : after.hashAt position = some hash) :
    chain.hashAt position = some hash ∨ (position = height + 1 ∧ hash = block.hash) := by
  rw [hashAt, (submitted_of_submitBlock submitted).blocks] at here
  by_cases old : position < chain.chain.length
  · rw [List.getElem?_append_left old] at here
    exact .inl here
  · rw [List.getElem?_append_right (not_lt.mp old), List.getElem?_singleton] at here
    split_ifs at here with last
    · refine .inr ⟨?_, (Option.some.inj here).symm⟩
      have counted := paced.length
      omega
    · cases here

theorem hashAt_head
    (paced : Paced epoch voter stake chain height) :
    chain.hashAt height = some chain.head.hash := by
  have last : chain.chain[height]? = some chain.head := by
    rw [head, List.getLast_eq_getElem, List.getElem?_eq_getElem (by have := paced.length; omega)]
    simp [paced.length]
  rw [hashAt, last]
  rfl

theorem hash_eq_head
    (paced : Paced epoch voter stake chain height)
    {hash : Str}
    (here : chain.hashAt height = some hash) :
    hash = chain.head.hash :=
  (Option.some.inj (paced.hashAt_head.symm.trans here)).symm

/-- A block that carries nothing keeps the pace unless a vote was due. -/
theorem empty
    (paced : Paced epoch voter stake chain height)
    (reachable : Reachable args chain)
    (submitted : chain.submitBlock block = .ok after)
    (fresh : block.hash ∉ chain.chain.map Block.hash)
    (nothing : block.transactions = [])
    (settled : checkpointBelow epoch (height + 1) = checkpointBelow epoch height) :
    Paced epoch voter stake after (height + 1) := by
  have facts := submitted_of_submitBlock submitted
  have state : after.state = applyBlockPre chain.config block chain.state := by
    have ran := facts.ran
    rw [nothing] at ran
    exact (Except.ok.inj ran).symm
  refine ⟨?_, ?_, ?_, ?_, ?_⟩
  · rw [facts.blocks, List.length_append, paced.length, List.length_singleton]
  · rw [state]
    exact paced.solo.applyBlockPre _ _
  · intro position
    rw [state, applyBlockPre_ffgSeenTarget, settled]
    exact paced.seen position
  · intro position hash here checkpoint
    rw [state, applyBlockPre_justified, settled]
    rcases paced.hashAt_cases submitted here with old | ⟨rfl, rfl⟩
    · exact paced.justified position hash old checkpoint
    · have unjustified : block.hash ∉ chain.state.justified :=
        fun justified => fresh (present_of_justified reachable justified)
      have low : checkpointBelow epoch height < height + 1 :=
        settled ▸ checkpointBelow_lt (Nat.succ_pos _)
      exact iff_of_false unjustified (not_le.mpr low)
  · rw [state, applyBlockPre_finalized, settled]
    exact paced.finalized

/-- The vote for the head: its source is the checkpoint before it. -/
structure Due (epoch : Nat) (chain : ProofOfStakeChain) (height : Nat) (link : Link) : Prop where
  source : chain.hashAt (height - epoch) = some link.source
  sourceHeight : link.sourceHeight = (height - epoch : Nat)
  target : link.target = chain.head.hash
  targetHeight : link.targetHeight = height

/-- A block with the vote that was due justifies the old head and finalizes the
checkpoint before it. -/
theorem vote
    (paced : Paced epoch voter stake chain height)
    (reachable : Reachable args chain)
    (epoch_eq : chain.config.epoch = epoch)
    (positive : 0 < epoch)
    (staked : 0 < stake)
    (above : 0 < height)
    (checkpoint : epoch ∣ height)
    (submitted : chain.submitBlock block = .ok after)
    (fresh : block.hash ∉ chain.chain.map Block.hash)
    {tx : Transaction}
    {link : Link}
    (one : block.transactions = [tx])
    (byVoter : tx.sender = voter)
    (voted : votedLink tx = some link)
    (due : Due epoch chain height link) :
    Paced epoch voter stake after (height + 1) := by
  have facts := submitted_of_submitBlock submitted
  have ran : applyTxs chain.config block chain.state.justified
      (chain.stateBefore block) ([] ++ [tx]) = .ok after.state := by
    rw [List.nil_append, ← one]
    exact facts.ran
  obtain ⟨before, opened, _, applied⟩ := applyTxs_concat ran
  obtain rfl : chain.stateBefore block = before := Except.ok.inj opened
  have named : tx.recipient = VOTE_SENTINEL := by
    rw [votedLink] at voted
    split_ifs at voted with named
    exact named
  have solo : Solo voter stake (chain.stateBefore block) := paced.solo.applyBlockPre _ _
  obtain ⟨justified, finalized⟩ :
      after.state.justified = insert link.target chain.state.justified ∧
      after.state.finalized =
        if link.targetHeight = link.sourceHeight + chain.config.epoch ∧
            chain.state.finalized.2 < link.sourceHeight then
          (link.source, link.sourceHeight)
        else chain.state.finalized := by
    rcases applied.tally_of_vote voted with ⟨missed, _⟩ | ⟨_, justified, finalized⟩
    · rw [solo.reachesQuorum staked applied byVoter voted] at missed
      cases missed
    · simp only [ProofOfStakeChain.stateBefore, applyBlockPre_justified, applyBlockPre_finalized]
        at justified finalized
      exact ⟨justified, finalized⟩
  obtain ⟨_, _, seen⟩ := applied.records_of_vote voted
  have next : checkpointBelow epoch (height + 1) = height := checkpointBelow_succ_of_dvd checkpoint
  have last : checkpointBelow epoch height = height - epoch :=
    checkpointBelow_of_dvd positive above checkpoint
  have reached : epoch ≤ height := Nat.le_of_dvd above checkpoint
  refine ⟨?_, solo.applied applied named, ?_, ?_, ?_⟩
  · rw [facts.blocks, List.length_append, paced.length, List.length_singleton]
  · intro position
    have old := paced.seen position
    rw [last] at old
    rw [seen, recordVote, Dict.contains_set, ProofOfStakeChain.stateBefore, applyBlockPre_ffgSeenTarget,
      Bool.or_eq_true, decide_eq_true_iff, old, due.targetHeight, byVoter, next, Prod.mk.injEq]
    constructor
    · rintro (⟨_, same⟩ | ⟨up, boundary, low⟩)
      · obtain rfl : height = position := Int.ofNat.inj same
        exact ⟨above, checkpoint, le_refl _⟩
      · exact ⟨up, boundary, by omega⟩
    · rintro ⟨up, boundary, low⟩
      rcases Nat.eq_or_lt_of_le low with rfl | below
      · exact .inl ⟨rfl, rfl⟩
      · exact .inr ⟨up, boundary, last ▸ le_checkpointBelow boundary below⟩
  · intro position hash here boundary
    rw [justified, Finset.mem_insert, due.target, next]
    rcases paced.hashAt_cases submitted here with old | ⟨rfl, rfl⟩
    · have inside : position ≤ height := by
        rw [hashAt, Option.map_eq_some_iff] at old
        obtain ⟨_, found, _⟩ := old
        obtain ⟨short, _⟩ := List.getElem?_eq_some_iff.mp found
        have counted := paced.length
        omega
      refine iff_of_true ?_ inside
      rcases Nat.eq_or_lt_of_le inside with rfl | below
      · exact .inl (paced.hash_eq_head old)
      · exact .inr ((paced.justified position hash old boundary).mpr
          (le_checkpointBelow boundary below))
    · refine iff_of_false ?_ (by omega)
      rintro (same | justified)
      · apply fresh
        rw [same]
        exact List.mem_map_of_mem (List.getLast_mem chain.nonempty)
      · exact fresh (present_of_justified reachable justified)
  · rw [finalized, due.sourceHeight, due.targetHeight, epoch_eq, paced.finalized, last, next]
    split_ifs with rises
    · rfl
    · rw [paced.finalized, last]
      push_cast [reached] at rises ⊢
      omega

/-! ### What the validator votes for -/

theorem headIndex
    (paced : Paced epoch voter stake chain height)
    (reachable : Reachable args chain) :
    chain.head.index = height := by
  have counted := reachable.length_eq
  rw [paced.length] at counted
  push_cast at counted
  omega

/-- Between checkpoints the latest one has been voted for. -/
theorem seen_of_latest
    (paced : Paced epoch voter stake chain height)
    (reachable : Reachable args chain)
    (epoch_eq : chain.config.epoch = epoch)
    (settled : checkpointBelow epoch (height + 1) = checkpointBelow epoch height)
    {target : Block}
    (latest : chain.latestCheckpoint = some target) :
    chain.state.ffgSeenTarget.contains (voter, target.index) = true := by
  have checkpoint := List.find?_some latest
  have inside := List.mem_of_find?_eq_some latest
  rw [decide_eq_true_iff, epoch_eq] at checkpoint
  obtain ⟨position, found⟩ := List.mem_iff_getElem?.mp (List.mem_reverse.mp inside)
  obtain ⟨short, _⟩ := List.getElem?_eq_some_iff.mp found
  have level := reachable.index_eq found
  have counted := paced.length
  rw [level] at checkpoint ⊢
  have boundary : epoch ∣ position := by
    have divides := Int.dvd_of_emod_eq_zero checkpoint.2
    exact Int.natCast_dvd_natCast.mp divides
  rw [paced.seen, ← settled]
  exact ⟨by omega, boundary, le_checkpointBelow boundary (by omega)⟩

/-- At a checkpoint the vote is for the head, from the checkpoint before it. -/
theorem due
    (paced : Paced epoch voter stake chain height)
    (reachable : Reachable args chain)
    (epoch_eq : chain.config.epoch = epoch)
    (positive : 0 < epoch)
    (above : 0 < height)
    (checkpoint : epoch ∣ height) :
    chain.latestCheckpoint = some chain.head ∧
      Due epoch chain height (P2PNode.linkTo chain chain.head) := by
  have top := paced.headIndex reachable
  have last : checkpointBelow epoch height = height - epoch :=
    checkpointBelow_of_dvd positive above checkpoint
  have reached : epoch ≤ height := Nat.le_of_dvd above checkpoint
  have boundary : (height : Int) % epoch = 0 :=
    Int.emod_eq_zero_of_dvd (Int.natCast_dvd_natCast.mpr checkpoint)
  have latest : chain.latestCheckpoint = some chain.head := by
    have split := List.dropLast_append_getLast chain.nonempty
    rw [latestCheckpoint, ← split, List.reverse_append, List.reverse_singleton,
      List.singleton_append, List.find?_cons_of_pos]
    · rfl
    · refine decide_eq_true ⟨?_, ?_⟩
      · change 0 < chain.head.index
        rw [top]
        exact Int.natCast_pos.mpr above
      · change chain.head.index % _ = 0
        rw [top, epoch_eq]
        exact boundary
  refine ⟨latest, ?_⟩
  -- the checkpoint before the head is justified, and no source is higher
  obtain ⟨block, here⟩ : ∃ block, chain.chain[height - epoch]? = some block := by
    rw [← Option.isSome_iff_exists, isSome_getElem?]
    have counted := paced.length
    omega
  have level := reachable.index_eq here
  have located : chain.hashAt (height - epoch) = some block.hash := by rw [hashAt, here]; rfl
  have lower : epoch ∣ height - epoch := Nat.dvd_sub checkpoint (dvd_refl epoch)
  have justified : chain.JustifiedBelow chain.head.index block := by
    refine ⟨?_, ?_, (paced.justified _ _ located lower).mpr last.ge⟩
    · rw [level, top]
      omega
    · rw [level, epoch_eq]
      exact Int.emod_eq_zero_of_dvd (Int.natCast_dvd_natCast.mpr lower)
  have candidate : chain.IsSource chain.head.index (block.hash, block.index) :=
    .inr ⟨block, List.mem_of_getElem? here, justified, rfl⟩
  obtain ⟨isSource, highest⟩ := chain.isHighestSource_voteSource chain.head.index
  have bounded : (chain.voteSource chain.head.index).2 ≤ block.index := by
    rw [level]
    rcases isSource with default | ⟨other, inside, ⟨below, aligned, _⟩, same⟩
    · rw [default, paced.finalized, last]
      exact Int.ofNat_le.mpr (Nat.sub_le _ _)
    · rw [same]
      obtain ⟨position, found⟩ := List.mem_iff_getElem?.mp inside
      have place := reachable.index_eq found
      rw [place, top] at below
      rw [place, epoch_eq] at aligned
      have divides : epoch ∣ position :=
        Int.natCast_dvd_natCast.mp (Int.dvd_of_emod_eq_zero aligned)
      change other.index ≤ _
      rw [place, ← last]
      exact Int.ofNat_le.mpr (le_checkpointBelow divides (Int.ofNat_lt.mp below))
  have same := reachable.isSource_unique isSource candidate
    (le_antisymm bounded (highest _ candidate))
  have source : (P2PNode.linkTo chain chain.head).source = block.hash := congrArg Prod.fst same
  have sourceHeight : (P2PNode.linkTo chain chain.head).sourceHeight = block.index :=
    congrArg Prod.snd same
  exact ⟨by rw [source, located], by rw [sourceHeight, level], rfl, top⟩

/-- The vote that is due passes every check in the next block. -/
theorem checkVote
    (paced : Paced epoch voter stake chain height)
    (reachable : Reachable args chain)
    (distinct : (chain.chain.map Block.hash).Nodup)
    (epoch_eq : chain.config.epoch = epoch)
    (positive : 0 < epoch)
    (staked : 0 < stake)
    (above : 0 < height)
    (checkpoint : epoch ∣ height)
    (fresh : block.hash ∉ chain.chain.map Block.hash)
    {link : Link}
    (due : Due epoch chain height link) :
    checkVote chain.config chain.state.justified (chain.stateBefore block) voter link = .ok () := by
  obtain ⟨heights, stakes, _⟩ := reachable.ffg_bookkeeping distinct
  have reached : epoch ≤ height := Nat.le_of_dvd above checkpoint
  have lower : epoch ∣ height - epoch := Nat.dvd_sub checkpoint (dvd_refl epoch)
  have last : checkpointBelow epoch height = height - epoch :=
    checkpointBelow_of_dvd positive above checkpoint
  have boundary : ∀ {position : Nat}, epoch ∣ position →
      (position : Int) % chain.config.epoch = 0 := by
    intro position divides
    rw [epoch_eq]
    exact Int.emod_eq_zero_of_dvd (Int.natCast_dvd_natCast.mpr divides)
  have top : chain.hashAt height = some link.target := due.target ▸ paced.hashAt_head
  have untouched : chain.state.ffgHeight.get? block.hash = none :=
    reachable.bookkeeping.fresh fresh
  have recorded : ∀ {position : Nat} {hash : Str}, epoch ∣ position →
      chain.hashAt position = some hash →
      (chain.stateBefore block).ffgHeight.get? hash = some (position : Int) := by
    intro position hash divides here
    apply get?_ffgHeight_applyBlockPre untouched
    exact (heights _ _).mpr ⟨boundary divides, position, rfl, here⟩
  have weighed : ∀ {position : Nat} {hash : Str}, epoch ∣ position →
      chain.hashAt position = some hash →
      (chain.stateBefore block).ffgStake.contains hash = true := by
    intro position hash divides here
    have known := (stakes hash).mpr ⟨position, boundary divides, here⟩
    rw [ProofOfStakeChain.stateBefore, applyBlockPre_eq]
    dsimp only
    split_ifs
    · rw [Dict.contains_set, known, Bool.or_true]
    · exact known
  have solo : Solo voter stake (chain.stateBefore block) := paced.solo.applyBlockPre _ _
  have unseen : (chain.stateBefore block).ffgSeenTarget.get? (voter, (height : Int)) = none := by
    rw [ProofOfStakeChain.stateBefore, applyBlockPre_ffgSeenTarget, ← Option.not_isSome_iff_eq_none]
    intro seen
    obtain ⟨_, _, low⟩ := (paced.seen height).mp seen
    have below : checkpointBelow epoch height < height := checkpointBelow_lt above
    omega
  refine CheckedVote.checkVote ⟨?_, ?_, ?_, ?_, ?_, ?_, ?_, ?_, ?_⟩ (weighed checkpoint top)
  · rw [due.sourceHeight]
    exact boundary lower
  · rw [due.targetHeight]
    exact boundary checkpoint
  · rw [due.sourceHeight, due.targetHeight]
    omega
  · rw [due.sourceHeight]
    exact recorded lower due.source
  · rw [due.targetHeight]
    exact recorded checkpoint top
  · exact (paced.justified _ _ due.source lower).mpr last.ge
  · rw [solo.unslashed]
    exact Finset.notMem_empty voter
  · obtain ⟨snapshot, found⟩ := (Dict.contains_iff _ _).mp (weighed lower due.source)
    rw [Dict.getD_eq_of_get? found, solo.snapshots _ _ found, getD_onlyStake, if_pos rfl]
    exact staked
  · rw [due.targetHeight, Dict.getD, unseen]
    rfl

/-- A genesis with one staker keeps the pace. -/
theorem init
    (initialised : ProofOfStakeChain.init args = .ok chain)
    (sole : args.initialStakes = onlyStake voter stake)
    (epoch : Nat) :
    Paced epoch voter stake chain 0 := by
  obtain ⟨_, balances, stakes, staked, _, _, _, state, blocks⟩ := (init_eq_ok _ _).mp initialised
  have taken : addInitialStake (args.allocations, Dict.empty) (voter, stake) =
      .ok (balances, stakes) := by
    rw [sole] at staked
    obtain ⟨progress, first, rest⟩ := (foldlM_cons_eq_ok _ _ _ _).mp staked
    rw [first, Except.ok.inj rest]
  simp only [addInitialStake, rejectIf, bind_eq_ok, raiseIf_eq_ok, exists_unit, pure_eq_ok,
    addItem_eq_ok, Prod.mk.injEq] at taken
  obtain ⟨_, _, left, ⟨_, rfl⟩, rfl, rfl⟩ := taken
  have held : credit Dict.empty voter stake = onlyStake voter stake := by
    rw [credit, Dict.getD_empty, zero_add, onlyStake]
  rw [held] at state
  have low : checkpointBelow epoch 0 = 0 := by rw [checkpointBelow, Nat.zero_sub, Nat.zero_div, zero_mul]
  refine ⟨by rw [blocks]; rfl, ⟨?_, by rw [state]; rfl, by rw [state]; rfl, by rw [state]; rfl, ?_⟩,
    ?_, ?_, ?_⟩
  · apply (keyed_init initialised).stakers
    rw [state, genesisState, onlyStake, Dict.contains_set, decide_eq_true rfl, Bool.true_or]
  · intro hash snapshot found
    rw [state, genesisState, Dict.get?_set, Dict.get?_empty] at found
    split_ifs at found
    exact (Option.some.inj found).symm
  · intro position
    rw [state, low]
    refine iff_of_false Bool.false_ne_true ?_
    rintro ⟨up, _, zero⟩
    omega
  · intro position hash here _
    rw [hashAt, blocks, List.getElem?_singleton] at here
    split_ifs at here with first
    · rw [state, first]
      refine iff_of_true ?_ (Nat.zero_le _)
      rw [← Option.some.inj here]
      exact Finset.mem_singleton_self _
    · cases here
  · rw [state, low, Nat.zero_sub]
    rfl

end Paced

end

end Mindees
