import Mindees.Consensus.Money
import Mindees.Consensus.Produce

/-!
# What blocks do to the checkpoints

Only the snapshot before the transactions and the votes among them touch the
checkpoint maps.  One lemma says everything a transaction can do to them, and
one says everything an accepted vote has passed.
-/

namespace Mindees

open Library

/-- The checkpoint maps of a state. -/
structure Checkpoints where
  ffgStake : Dict Str (Dict Str Int)
  ffgHeight : Dict Str Int
  ffgVotes : Dict (Str × Str) (Finset Str)
  ffgSeenTarget : Dict (Str × Int) (Str × Str)
  justified : Finset Str
  finalized : Checkpoint

/-- The checkpoint maps of a state. -/
def LedgerState.checkpoints (state : LedgerState) : Checkpoints where
  ffgStake := state.ffgStake
  ffgHeight := state.ffgHeight
  ffgVotes := state.ffgVotes
  ffgSeenTarget := state.ffgSeenTarget
  justified := state.justified
  finalized := state.finalized

/-- The edge between the two checkpoints of a link. -/
def Link.edge (link : Link) : Str × Str := (link.source, link.target)

/-! ## Accepted votes -/

/-- Everything an accepted vote has passed, its fee apart. -/
structure CheckedVote
    (config : Config)
    (justifiedParent : Finset Str)
    (state : LedgerState)
    (voter : Str)
    (link : Link) : Prop where
  source_boundary : link.sourceHeight % config.epoch = 0
  target_boundary : link.targetHeight % config.epoch = 0
  ordered : link.sourceHeight < link.targetHeight
  sourceHeight : state.ffgHeight.get? link.source = some link.sourceHeight
  targetHeight : state.ffgHeight.get? link.target = some link.targetHeight
  source_justified : link.source ∈ justifiedParent
  unslashed : voter ∉ state.slashedAddrs
  staked : 0 < (state.ffgStake.getD link.source Dict.empty).getD voter 0
  unseen : state.ffgSeenTarget.getD (voter, link.targetHeight) link.edge = link.edge

theorem checkedVote_of_checkVote
    {config : Config}
    {justifiedParent : Finset Str}
    {state : LedgerState}
    {voter : Str}
    {link : Link}
    (checked : checkVote config justifiedParent state voter link = .ok ()) :
    CheckedVote config justifiedParent state voter link := by
  obtain ⟨s, sh, t, th⟩ := link
  simp only [checkVote, rejectIf, bind_eq_ok, raiseIf_eq_ok, require_eq_ok, exists_unit,
    not_or, not_not, not_le, ne_eq] at checked
  obtain ⟨⟨sourceBoundary, targetBoundary, ordered⟩, _, sourceHeight, source, rfl,
    targetHeight, target, rfl, justified, unslashed, snapshot, recorded, staked, unseen⟩ := checked
  refine ⟨sourceBoundary, targetBoundary, ordered, source, target, justified, unslashed, ?_,
    unseen⟩
  rw [Dict.getD_eq_of_get? recorded]
  exact staked

/-- The unslashed voters of a link hold a supermajority of the unslashed stake
at its source. -/
def LedgerState.hasSupermajority (state : LedgerState) (link : Link) : Bool :=
  isSupermajority
    (votedStake (state.ffgStake.getD link.source Dict.empty)
      (state.ffgVotes.getD link.edge ∅) state.slashedAddrs)
    (activeStake (state.ffgStake.getD link.source Dict.empty) state.slashedAddrs)

/-- A tally justifies and finalizes only on a supermajority. -/
theorem tallyLink_cases
    (config : Config)
    (state : LedgerState)
    (link : Link) :
    (state.hasSupermajority link = false ∧ tallyLink config state link = state) ∨
    (state.hasSupermajority link = true ∧ ∃ finalized,
      tallyLink config state link =
        { state with justified := insert link.target state.justified, finalized } ∧
      (finalized = state.finalized ∨
        finalized = (link.source, link.sourceHeight) ∧
          link.targetHeight = link.sourceHeight + config.epoch ∧
          state.finalized.2 < link.sourceHeight)) := by
  by_cases reached : state.hasSupermajority link = true
  · refine .inr ⟨reached, _, if_pos reached, ?_⟩
    split_ifs with child
    · exact .inr ⟨rfl, child⟩
    · exact .inl rfl
  · exact .inl ⟨Bool.not_eq_true _ ▸ reached, if_neg reached⟩

/-- What a transaction can do to the checkpoints: nothing, or record and tally
one accepted vote. -/
inductive CheckpointEffect
    [Primitives]
    (config : Config)
    (justifiedParent : Finset Str)
    (state : LedgerState)
    (tx : Transaction)
    (after : LedgerState) : Prop
  | none :
      after.checkpoints = state.checkpoints →
      CheckpointEffect config justifiedParent state tx after
  | vote (link : Link) :
      tx.recipient = VOTE_SENTINEL →
      voteLink tx.evidence = .ok link →
      CheckedVote config justifiedParent state tx.sender link →
      after.checkpoints =
        (tallyLink config (recordVote state tx.sender link) link).checkpoints →
      CheckpointEffect config justifiedParent state tx after

/-- The tally reads the checkpoints and the slashing record only. -/
theorem tallyLink_checkpoints_congr
    {config : Config}
    {left right : LedgerState}
    {link : Link}
    (checkpoints : left.checkpoints = right.checkpoints)
    (slashed : left.slashedAddrs = right.slashedAddrs) :
    (tallyLink config left link).checkpoints = (tallyLink config right link).checkpoints := by
  simp only [LedgerState.checkpoints, Checkpoints.mk.injEq] at checkpoints
  obtain ⟨stake, height, votes, seen, justified, finalized⟩ := checkpoints
  unfold tallyLink
  rw [stake, votes, slashed, justified, finalized]
  simp only []
  split_ifs <;> simp only [LedgerState.checkpoints, stake, height, votes, seen, justified, finalized]

theorem Applied.checkpointEffect
    [Primitives]
    {config : Config}
    {block : Block}
    {justifiedParent : Finset Str}
    {state after : LedgerState}
    {tx : Transaction}
    (applied : Applied config block justifiedParent state tx after) :
    CheckpointEffect config justifiedParent state tx after := by
  cases applied with
  | stake _ moved _ =>
      obtain ⟨_, _, rfl⟩ := (applyStake_eq_ok block state after tx).mp moved
      exact .none rfl
  | unstake _ moved _ =>
      obtain ⟨_, _, _, _, _, rfl⟩ := (applyUnstake_eq_ok config block state after tx).mp moved
      exact .none rfl
  | slash _ moved =>
      obtain ⟨_, _, _, _, _, _, _, _, paid, charged, rfl⟩ :=
        (applySlash_eq_ok config block state after tx).mp moved
      obtain ⟨_, rfl⟩ := (payFee_eq_ok block state paid tx).mp charged
      exact .none rfl
  | vote named moved =>
      obtain ⟨link, parsed, checked, _, paid, charged, rfl⟩ :=
        (applyVote_eq_ok config block justifiedParent state after tx).mp moved
      obtain ⟨_, rfl⟩ := (payFee_eq_ok block state paid tx).mp charged
      exact .vote link named parsed (checkedVote_of_checkVote checked) (tallyLink_checkpoints_congr rfl rfl)
  | payment _ _ _ _ moved _ =>
      obtain ⟨_, rfl⟩ := (applyPayment_eq_ok block state after tx).mp moved
      exact .none rfl

/-- Transactions take no snapshots. -/
theorem Applied.ffgStake_eq
    [Primitives]
    {config : Config}
    {block : Block}
    {justifiedParent : Finset Str}
    {state after : LedgerState}
    {tx : Transaction}
    (applied : Applied config block justifiedParent state tx after) :
    after.ffgStake = state.ffgStake := by
  cases applied.checkpointEffect with
  | none same => exact congrArg Checkpoints.ffgStake same
  | vote link _ _ _ same =>
      obtain ⟨_, _, frame⟩ := tallyLink_frame config (recordVote state tx.sender link) link
      rw [frame] at same
      exact congrArg Checkpoints.ffgStake same

/-- What every accepted vote preserves of the checkpoints, the transactions of a
block preserve together. -/
theorem applyTxs_checkpoints
    [Primitives]
    {config : Config}
    {block : Block}
    {justifiedParent : Finset Str}
    {start finish : LedgerState}
    {transactions : List Transaction}
    (invariant : Checkpoints → Prop)
    (votes : ∀ state voter link, invariant state.checkpoints →
      CheckedVote config justifiedParent state voter link →
      invariant (tallyLink config (recordVote state voter link) link).checkpoints)
    (initially : invariant start.checkpoints)
    (applied : applyTxs config block justifiedParent start transactions = .ok finish) :
    invariant finish.checkpoints := by
  refine applyTxs_invariant (fun state => invariant state.checkpoints) ?_ initially applied
  intro tx _ before after holds _ _ stepped
  cases stepped.checkpointEffect with
  | none same =>
      rw [same]
      exact holds
  | vote link _ _ checked same =>
      rw [same]
      exact votes before tx.sender link holds checked

end Mindees
