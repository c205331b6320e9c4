import Mindees.Consensus.NoTheft
import Mindees.Consensus.Nonces
import Mindees.Consensus.Quorums
import Mindees.Library.Interleaving

/-!
# The order of independent transactions

Payments, stakes, unstakes and votes that keep each sender's own order lead to
one state in any order in which they all apply.
-/

namespace Mindees

open Library

/-- Two states that no query tells apart. -/
structure LedgerState.Agrees (left right : LedgerState) : Prop where
  balances : ∀ address, left.balances.get? address = right.balances.get? address
  nonces : ∀ address, left.nonces.get? address = right.nonces.get? address
  stakes : ∀ address, left.stakes.get? address = right.stakes.get? address
  unbonding : ∀ address, left.unbonding.get? address = right.unbonding.get? address
  votes : ∀ edge, left.ffgVotes.get? edge = right.ffgVotes.get? edge
  seenTarget : ∀ key, left.ffgSeenTarget.get? key = right.ffgSeenTarget.get? key
  justified : left.justified = right.justified
  finalized : left.finalized = right.finalized

/-- Dictionaries with the same keys and the same values, up to a default, agree. -/
theorem get?_eq_of_getD
    {κ ν : Type}
    [DecidableEq κ]
    {left right : Dict κ ν}
    {key : κ}
    (default : ν)
    (present : left.contains key = right.contains key)
    (same : left.getD key default = right.getD key default) :
    left.get? key = right.get? key := by
  simp only [Dict.contains, Dict.getD] at present same
  cases first : left.get? key with
  | none =>
      rw [first, Option.isSome_none] at present
      exact (Option.isSome_eq_false_iff.mp present.symm |> Option.isNone_iff_eq_none.mp).symm
  | some value =>
      rw [first, Option.isSome_some] at present
      obtain ⟨other, second⟩ := Option.isSome_iff_exists.mp present.symm
      rw [first, second] at same
      rw [second]
      exact congrArg some same

/-! ## What a sender does to its own entries -/

/-- The stake of the sender after a transaction. -/
def stakeAfter (tx : Transaction) (stake : Option Int) : Option Int :=
  if tx.recipient = STAKE_SENTINEL then some (stake.getD 0 + tx.amount)
  else if tx.recipient = UNSTAKE_SENTINEL then
    if stake.getD 0 - tx.amount = 0 then none else some (stake.getD 0 - tx.amount)
  else stake

/-- The unbonding queue of the sender after a transaction. -/
def queueAfter
    (config : Config)
    (block : Block)
    (tx : Transaction)
    (queue : Option (List Unbonding)) : Option (List Unbonding) :=
  if tx.recipient = UNSTAKE_SENTINEL ∧ 0 < config.unbondingBlocks then
    some (queue.getD [] ++
      [⟨tx.amount, block.index, block.index + config.unbondingBlocks⟩])
  else queue

section

variable {config : Config} {block : Block} {state after : LedgerState} {tx : Transaction}

/-- What a payment hands over. -/
def handedOver (tx : Transaction) : Int := if IsPayment tx then tx.amount else 0

/-- The accounts that a transaction opens or uses. -/
def Uses (block : Block) (tx : Transaction) (address : Str) : Prop :=
  tx.sender = address ∨ block.validator = address ∨ IsPayment tx ∧ tx.recipient = address

/-- The addresses whose nonce a transaction records. -/
def Numbers (tx : Transaction) (address : Str) : Prop :=
  tx.sender = address ∨ IsPayment tx ∧ tx.recipient = address

/-- What a transaction does to the money: the sender's own entries change by
what they held before, holdings by fixed amounts. -/
structure Moved
    (config : Config)
    (block : Block)
    (state : LedgerState)
    (tx : Transaction)
    (after : LedgerState) : Prop where
  stakes : ∀ address, after.stakes.get? address =
    if tx.sender = address then stakeAfter tx (state.stakes.get? address)
    else state.stakes.get? address
  queues : ∀ address, after.unbonding.get? address =
    if tx.sender = address then queueAfter config block tx (state.unbonding.get? address)
    else state.unbonding.get? address
  holding : ∀ address,
    after.holding address = state.holding address + flow block tx (handedOver tx) address
  accounts : ∀ address, after.balances.contains address = true ↔
    state.balances.contains address = true ∨ Uses block tx address
  numbered : ∀ address, after.nonces.contains address = true ↔
    state.nonces.contains address = true ∨ Numbers tx address

theorem Moved.getD_stakes
    (moved : Moved config block state tx after)
    (address : Str) :
    after.stakes.getD address 0 =
      state.stakes.getD address 0 +
        if tx.sender = address then
          if tx.recipient = STAKE_SENTINEL then tx.amount
          else if tx.recipient = UNSTAKE_SENTINEL then -tx.amount
          else 0
        else 0 := by
  rw [Dict.getD, Dict.getD, moved.stakes, stakeAfter]
  split_ifs
  · rfl
  · rw [Option.getD_none]
    omega
  · rw [Option.getD_some]
    omega
  · exact (add_zero _).symm
  · exact (add_zero _).symm

theorem Moved.unbondingOf
    (moved : Moved config block state tx after)
    (address : Str) :
    after.unbondingOf address =
      state.unbondingOf address +
        if tx.sender = address ∧ tx.recipient = UNSTAKE_SENTINEL ∧ 0 < config.unbondingBlocks then
          tx.amount
        else 0 := by
  rw [LedgerState.unbondingOf, LedgerState.unbondingOf, Dict.getD, Dict.getD, moved.queues,
    queueAfter]
  by_cases same : tx.sender = address
  · rw [if_pos same]
    by_cases delayed : tx.recipient = UNSTAKE_SENTINEL ∧ 0 < config.unbondingBlocks
    · rw [if_pos delayed, if_pos ⟨same, delayed⟩, Option.getD_some, queueTotal_append]
      simp [queueTotal]
    · rw [if_neg delayed, if_neg fun both => delayed both.2, add_zero]
  · rw [if_neg same, if_neg fun both => same both.1, add_zero]

theorem contains_credit
    (dict : Dict Str Int)
    (key address : Str)
    (value : Int) :
    (credit dict key value).contains address = true ↔
      dict.contains address = true ∨ key = address := by
  rw [credit, Dict.contains_set, Bool.or_eq_true, decide_eq_true_eq, or_comm]

theorem contains_set_iff
    {κ ν : Type}
    [DecidableEq κ]
    (dict : Dict κ ν)
    (key wanted : κ)
    (value : ν) :
    (dict.set key value).contains wanted = true ↔
      dict.contains wanted = true ∨ key = wanted := by
  rw [Dict.contains_set, Bool.or_eq_true, decide_eq_true_eq, or_comm]

theorem contains_setDefault
    (dict : Dict Str Int)
    (key address : Str)
    (value : Int) :
    (dict.setDefault key value).contains address = true ↔
      dict.contains address = true ∨ key = address := by
  rw [Dict.setDefault]
  split_ifs with known
  · constructor
    · exact .inl
    · rintro (found | rfl)
      · exact found
      · exact known
  · exact contains_set_iff dict key address value

theorem applyStake_moved
    (named : tx.recipient = STAKE_SENTINEL)
    (moved : applyStake block state tx = .ok after) :
    Moved config block state tx after := by
  have noPayment : ¬IsPayment tx := fun payment => payment.1 named
  have notUnstake : tx.recipient ≠ UNSTAKE_SENTINEL := by
    rw [named]
    decide
  have handed : handedOver tx = 0 := if_neg noPayment
  have holding := applyStake_holding moved
  obtain ⟨_, _, rfl⟩ := (applyStake_eq_ok block state after tx).mp moved
  refine ⟨?_, ?_, ?_, ?_, ?_⟩
  · intro address
    simp only [get?_credit, stakeAfter, if_pos named]
    split_ifs with same
    · rw [same, Dict.getD]
    · rfl
  · intro address
    simp only [queueAfter, notUnstake, false_and, if_false, ite_self]
  · rw [handed]
    exact holding
  · intro address
    simp only [contains_credit, Uses, noPayment, false_and, or_false, or_assoc]
  · intro address
    simp only [contains_set_iff, Numbers, noPayment, false_and, or_false]

theorem withdrawStake_stakeAfter
    {stakes left : Dict Str Int}
    (named : tx.recipient = UNSTAKE_SENTINEL)
    (withdrawn : withdrawStake stakes tx.sender tx.amount = .ok left)
    (address : Str) :
    left.get? address =
      if tx.sender = address then stakeAfter tx (stakes.get? address)
      else stakes.get? address := by
  have notStake : tx.recipient ≠ STAKE_SENTINEL := by
    rw [named]
    decide
  obtain ⟨_, _, rfl⟩ := (withdrawStake_eq_ok _ _ _ _).mp withdrawn
  have rest : (credit stakes tx.sender (-tx.amount)).getD tx.sender 0 =
      stakes.getD tx.sender 0 - tx.amount := by
    rw [getD_credit, if_pos rfl, ← sub_eq_add_neg]
  rw [rest]
  simp only [stakeAfter, if_neg notStake, if_pos named]
  by_cases same : tx.sender = address
  · subst same
    have held : (stakes.get? tx.sender).getD 0 = stakes.getD tx.sender 0 := rfl
    rw [if_pos rfl, held]
    by_cases emptied : stakes.getD tx.sender 0 - tx.amount = 0
    · rw [if_pos emptied, if_pos emptied, Dict.get?_erase, if_pos rfl]
    · rw [if_neg emptied, if_neg emptied, get?_credit, if_pos rfl, ← sub_eq_add_neg]
  · simp only [same, if_false]
    split_ifs
    · rw [Dict.get?_erase, if_neg same, get?_credit, if_neg same]
    · rw [get?_credit, if_neg same]

theorem applyUnstake_moved
    (named : tx.recipient = UNSTAKE_SENTINEL)
    (moved : applyUnstake config block state tx = .ok after) :
    Moved config block state tx after := by
  have noPayment : ¬IsPayment tx := fun payment => payment.2.1 named
  have handed : handedOver tx = 0 := if_neg noPayment
  have holding := applyUnstake_holding moved
  obtain ⟨_, _, present, stakes, withdrawn, rfl⟩ :=
    (applyUnstake_eq_ok config block state after tx).mp moved
  refine ⟨withdrawStake_stakeAfter named withdrawn, ?_, ?_, ?_, ?_⟩
  · intro address
    simp only [unstakedQueues, queueAfter, named, true_and]
    by_cases delayed : 0 < config.unbondingBlocks
    · simp only [delayed, if_true, Dict.get?_set]
      split_ifs with same
      · rw [same, Dict.getD]
      · rfl
    · simp only [delayed, if_false, ite_self]
  · rw [handed]
    exact holding
  · intro address
    simp only [contains_credit, Uses, noPayment, false_and, or_false]
    split_ifs
    · simp only [contains_credit, or_assoc]
    · simp only [contains_credit, or_assoc, or_self_left]
  · intro address
    simp only [contains_set_iff, Numbers, noPayment, false_and, or_false]

theorem applyPayment_moved
    (payment : IsPayment tx)
    (moved : applyPayment block state tx = .ok after) :
    Moved config block state tx after := by
  have handed : handedOver tx = tx.amount := if_pos payment
  have holding := applyPayment_holding moved
  obtain ⟨_, rfl⟩ := (applyPayment_eq_ok block state after tx).mp moved
  refine ⟨?_, ?_, ?_, ?_, ?_⟩
  · intro address
    simp only [stakeAfter, if_neg payment.1, if_neg payment.2.1, ite_self]
  · intro address
    simp only [queueAfter, payment.2.1, false_and, if_false, ite_self]
  · rw [handed]
    exact holding
  · intro address
    simp only [contains_credit, Uses, payment, true_and]
    tauto
  · intro address
    simp only [contains_setDefault, contains_set_iff, Numbers, payment, true_and, or_assoc]

end

section

variable [Primitives] {config : Config} {block : Block} {justifiedParent : Finset Str}
  {state after : LedgerState} {tx : Transaction}

theorem applyVote_moved
    (named : tx.recipient = VOTE_SENTINEL)
    (moved : applyVote config block justifiedParent state tx = .ok after) :
    Moved config block state tx after := by
  have noPayment : ¬IsPayment tx := fun payment => payment.2.2.2 named
  have notStake : tx.recipient ≠ STAKE_SENTINEL := by
    rw [named]
    decide
  have notUnstake : tx.recipient ≠ UNSTAKE_SENTINEL := by
    rw [named]
    decide
  have handed : handedOver tx = 0 := if_neg noPayment
  have holding := applyVote_holding moved
  obtain ⟨link, _, _, _, paid, charged, rfl⟩ :=
    (applyVote_eq_ok config block justifiedParent state after tx).mp moved
  obtain ⟨_, rfl⟩ := (payFee_eq_ok block state paid tx).mp charged
  obtain ⟨_, _, frame⟩ := tallyLink_frame config (recordVote _ tx.sender link) link
  rw [frame] at holding ⊢
  refine ⟨?_, ?_, ?_, ?_, ?_⟩
  · intro address
    simp only [recordVote_stakes, stakeAfter, if_neg notStake, if_neg notUnstake, ite_self]
  · intro address
    simp only [recordVote_unbonding, queueAfter, notUnstake, false_and, if_false, ite_self]
  · rw [handed]
    exact holding
  · intro address
    simp only [recordVote_balances, contains_credit, Uses, noPayment, false_and, or_false,
      or_assoc]
  · intro address
    simp only [recordVote, contains_set_iff, Numbers, noPayment, false_and, or_false]

/-- Every transaction but a slash moves money so. -/
theorem Applied.moved
    (applied : Applied config block justifiedParent state tx after)
    (notSlash : tx.recipient ≠ SLASH_SENTINEL) :
    Moved config block state tx after := by
  cases applied with
  | stake named moved _ => exact applyStake_moved named moved
  | unstake named moved _ => exact applyUnstake_moved named moved
  | slash named _ => exact absurd named notSlash
  | vote named moved => exact applyVote_moved named moved
  | payment notStake notUnstake _ notVote moved _ =>
      exact applyPayment_moved ⟨notStake, notUnstake, notSlash, notVote⟩ moved

/-! ## What a vote does to the checkpoints -/

/-- The source and target that a vote transaction is for. -/
def votedEdge (tx : Transaction) : Option (Str × Str) := (votedLink tx).map Link.edge

/-- The links that the sender has voted for, by target height, after a
transaction. -/
def seenAfter (tx : Transaction) (seen : Int → Option (Str × Str)) (height : Int) :
    Option (Str × Str) :=
  match votedLink tx with
  | some link => if link.targetHeight = height then some link.edge else seen height
  | none => seen height

theorem Applied.seenTarget
    (applied : Applied config block justifiedParent state tx after)
    (address : Str)
    (height : Int) :
    after.ffgSeenTarget.get? (address, height) =
      if tx.sender = address then
        seenAfter tx (fun height => state.ffgSeenTarget.get? (address, height)) height
      else state.ffgSeenTarget.get? (address, height) := by
  rw [seenAfter]
  cases voted : votedLink tx with
  | none =>
      have same := congrArg Checkpoints.ffgSeenTarget (applied.checkpoints_of_no_vote voted)
      simp only [LedgerState.checkpoints] at same
      rw [same, ite_self]
  | some link =>
      obtain ⟨_, _, seen⟩ := applied.records_of_vote voted
      rw [seen, recordVote, Dict.get?_set]
      by_cases mine : tx.sender = address
      · simp only [mine, Prod.mk.injEq, true_and, if_true]
        rfl
      · simp only [mine, Prod.mk.injEq, false_and, if_false]

theorem Applied.mem_votes
    (applied : Applied config block justifiedParent state tx after)
    (edge : Str × Str)
    (voter : Str) :
    voter ∈ after.ffgVotes.getD edge ∅ ↔
      voter ∈ state.ffgVotes.getD edge ∅ ∨ votedEdge tx = some edge ∧ tx.sender = voter := by
  rw [votedEdge]
  cases voted : votedLink tx with
  | none =>
      have same := congrArg Checkpoints.ffgVotes (applied.checkpoints_of_no_vote voted)
      simp only [LedgerState.checkpoints] at same
      simp [same]
  | some link =>
      obtain ⟨_, votes, _⟩ := applied.records_of_vote voted
      rw [votes, mem_ffgVotes_recordVote, Option.map_some, Option.some.injEq, or_comm,
        eq_comm (a := edge), eq_comm (a := voter)]

theorem Applied.contains_votes
    (applied : Applied config block justifiedParent state tx after)
    (edge : Str × Str) :
    after.ffgVotes.contains edge = true ↔
      state.ffgVotes.contains edge = true ∨ votedEdge tx = some edge := by
  rw [votedEdge]
  cases voted : votedLink tx with
  | none =>
      have same := congrArg Checkpoints.ffgVotes (applied.checkpoints_of_no_vote voted)
      simp only [LedgerState.checkpoints] at same
      simp [same]
  | some link =>
      obtain ⟨_, votes, _⟩ := applied.records_of_vote voted
      rw [votes, recordVote, contains_set_iff, Option.map_some, Option.some.injEq]
      rfl

/-- The state keeps the snapshots, their heights and the convicts of another. -/
structure Framed (pre state : LedgerState) : Prop where
  stake : state.ffgStake = pre.ffgStake
  height : state.ffgHeight = pre.ffgHeight
  slashed : state.slashedAddrs = pre.slashedAddrs

variable {pre : LedgerState}

theorem Applied.framed
    (applied : Applied config block justifiedParent state tx after)
    (notSlash : tx.recipient ≠ SLASH_SENTINEL)
    (framed : Framed pre state) :
    Framed pre after := by
  refine ⟨applied.ffgStake_eq.trans framed.stake, ?_,
    (applied.slashedAddrs_eq notSlash).trans framed.slashed⟩
  refine Eq.trans ?_ framed.height
  cases voted : votedLink tx with
  | none => exact congrArg Checkpoints.ffgHeight (applied.checkpoints_of_no_vote voted)
  | some link => exact (applied.records_of_vote voted).1

/-- A transaction that is no slash tallies the edge it votes on, and no other. -/
theorem Applied.tallyStep
    (applied : Applied config block justifiedParent state tx after)
    (notSlash : tx.recipient ≠ SLASH_SENTINEL)
    (nonneg : pre.SnapshotsNonneg)
    (framed : Framed pre state) :
    TallyStep votedEdge (fun reached edge => reached.reachesQuorum edge = true) state tx after := by
  have stake := applied.ffgStake_eq
  have slashed := applied.slashedAddrs_eq notSlash
  constructor
  · intro edge reached
    refine reachesQuorum_mono ?_ stake slashed ?_ reached
    · intro hash address
      rw [framed.stake]
      exact nonneg hash address
    · intro voter inside
      exact (applied.mem_votes edge voter).mpr (.inl inside)
  · intro edge other reached
    rw [← reached]
    symm
    apply reachesQuorum_congr stake slashed
    ext voter
    rw [applied.mem_votes, or_iff_left]
    rintro ⟨here, _⟩
    exact other here

/-- The edge that a transaction votes on, if that has a quorum now. -/
def VotedThrough (after : LedgerState) (tx : Transaction) (edge : Str × Str) : Prop :=
  votedEdge tx = some edge ∧ after.reachesQuorum edge = true

theorem votedThrough_of_none
    (silent : votedLink tx = none)
    (edge : Str × Str) :
    ¬VotedThrough after tx edge := by
  rintro ⟨voted, _⟩
  rw [votedEdge, silent] at voted
  cases voted

theorem votedThrough_of_some
    {link : Link}
    (voted : votedLink tx = some link)
    (edge : Str × Str) :
    VotedThrough after tx edge ↔ edge = link.edge ∧ after.reachesQuorum link.edge = true := by
  rw [VotedThrough, votedEdge, voted, Option.map_some, Option.some.injEq]
  constructor
  · rintro ⟨rfl, reached⟩
    exact ⟨rfl, reached⟩
  · rintro ⟨rfl, reached⟩
    exact ⟨rfl, reached⟩

/-- A transaction justifies the target of the edge that it votes through. -/
theorem Applied.mem_justified
    (applied : Applied config block justifiedParent state tx after)
    (checkpoint : Str) :
    checkpoint ∈ after.justified ↔ checkpoint ∈ state.justified ∨
      ∃ edge, VotedThrough after tx edge ∧ edge.2 = checkpoint := by
  cases voted : votedLink tx with
  | none =>
      have same : after.justified = state.justified :=
        congrArg Checkpoints.justified (applied.checkpoints_of_no_vote voted)
      simp only [same, votedThrough_of_none voted, false_and, exists_false, or_false]
  | some link =>
      simp only [votedThrough_of_some voted]
      rcases applied.tally_of_vote voted with ⟨short, same, _⟩ | ⟨reached, same, _⟩
      · simp only [same, short, Bool.false_eq_true, and_false, false_and, exists_false, or_false]
      · have target : link.edge.2 = link.target := rfl
        simp only [same, reached, and_true, exists_eq_left, Finset.mem_insert, target]
        rw [or_comm, eq_comm]

/-- The edge of a direct epoch child offers its source, at its recorded height,
for finalization. -/
structure Offers (config : Config) (pre : LedgerState) (edge : Str × Str) (offered : Checkpoint) :
    Prop where
  source : edge.1 = offered.1
  sourceHeight : pre.ffgHeight.get? edge.1 = some offered.2
  child : pre.ffgHeight.get? edge.2 = some (offered.2 + config.epoch)

/-- A transaction finalizes the source that it votes through if that is higher. -/
theorem Applied.isLatest
    (applied : Applied config block justifiedParent state tx after)
    (framed : Framed pre state) :
    IsLatest Prod.snd state.finalized
      (fun offered => ∃ edge, VotedThrough after tx edge ∧ Offers config pre edge offered)
      after.finalized := by
  cases voted : votedLink tx with
  | none =>
      have same := congrArg Checkpoints.finalized (applied.checkpoints_of_no_vote voted)
      refine ⟨.inl same, ?_⟩
      rintro offered ⟨edge, through, _⟩
      exact absurd through (votedThrough_of_none voted edge)
  | some link =>
      obtain ⟨checked, _, _⟩ := applied.checkpoints_of_vote voted
      have source := checked.sourceHeight
      have target := checked.targetHeight
      rw [framed.height] at source target
      simp only [votedThrough_of_some voted]
      have only : ∀ offered, Offers config pre link.edge offered →
          offered = (link.source, link.sourceHeight) ∧
            link.targetHeight = link.sourceHeight + config.epoch := by
        rintro ⟨hash, height⟩ ⟨rfl, sourceHeight, child⟩
        have sameHeight := Option.some.inj (sourceHeight.symm.trans source)
        have sameTarget := Option.some.inj (child.symm.trans target)
        simp only at sameHeight sameTarget
        subst sameHeight
        exact ⟨rfl, sameTarget.symm⟩
      rcases applied.tally_of_vote voted with ⟨short, _, same⟩ | ⟨reached, _, same⟩
      · refine ⟨.inl same, ?_⟩
        rintro offered ⟨edge, ⟨_, impossible⟩, _⟩
        rw [short] at impossible
        cases impossible
      · rw [same]
        split_ifs with raised
        · refine ⟨.inr ⟨⟨link.edge, ⟨rfl, reached⟩, rfl, source, ?_⟩, raised.2⟩, ?_⟩
          · rw [← raised.1]
            exact target
          · rintro offered ⟨edge, ⟨rfl, _⟩, offers⟩
            rw [(only offered offers).1]
        · refine ⟨.inl rfl, ?_⟩
          rintro offered ⟨edge, ⟨rfl, _⟩, offers⟩
          obtain ⟨rfl, child⟩ := only offered offers
          exact not_lt.mp fun higher => raised ⟨child, higher⟩

end

/-! ## Two orders of one block -/

section

variable [Primitives] {config : Config} {block : Block} {justifiedParent : Finset Str}
  {pre leftAfter rightAfter : LedgerState} {left right : List Transaction}

/-- Both orders of some transactions without a slash apply to one state. -/
structure BothApply
    (config : Config)
    (block : Block)
    (justifiedParent : Finset Str)
    (pre : LedgerState)
    (left right : List Transaction)
    (leftAfter rightAfter : LedgerState) : Prop where
  order : SameOrder Transaction.sender left right
  noSlash : ∀ tx ∈ left, tx.recipient ≠ SLASH_SENTINEL
  leftRan : left.foldlM (applyTx config block justifiedParent) pre = .ok leftAfter
  rightRan : right.foldlM (applyTx config block justifiedParent) pre = .ok rightAfter

namespace BothApply

variable (both : BothApply config block justifiedParent pre left right leftAfter rightAfter)

include both

theorem symm : BothApply config block justifiedParent pre right left rightAfter leftAfter where
  order := ⟨both.order.perm.symm, fun key => (both.order.own key).symm⟩
  noSlash tx inside := both.noSlash tx (both.order.perm.mem_iff.mpr inside)
  leftRan := both.rightRan
  rightRan := both.leftRan

/-- What holds of every accepted transaction but a slash holds along the left order. -/
theorem step
    {property : LedgerState → Transaction → LedgerState → Prop}
    (law : ∀ state tx after, tx.recipient ≠ SLASH_SENTINEL →
      Applied config block justifiedParent state tx after → property state tx after) :
    ∀ tx ∈ left, ∀ state after, applyTx config block justifiedParent state tx = .ok after →
      property state tx after := by
  intro tx inside state after ran
  exact law state tx after (both.noSlash tx inside)
    ((applyTx_eq_ok config block justifiedParent state after tx).mp ran)

theorem stakes (address : Str) :
    leftAfter.stakes.get? address = rightAfter.stakes.get? address :=
  both.order.own_eq address (fun state => state.stakes.get? address)
    (fun stake tx => stakeAfter tx stake)
    (both.step fun _ _ _ notSlash applied => (applied.moved notSlash).stakes address)
    both.leftRan both.rightRan

theorem unbonding (address : Str) :
    leftAfter.unbonding.get? address = rightAfter.unbonding.get? address :=
  both.order.own_eq address (fun state => state.unbonding.get? address)
    (fun queue tx => queueAfter config block tx queue)
    (both.step fun _ _ _ notSlash applied => (applied.moved notSlash).queues address)
    both.leftRan both.rightRan

theorem nonces (address : Str) :
    leftAfter.nonces.get? address = rightAfter.nonces.get? address := by
  have present := touched_iff_of_perm both.order.perm
    (fun state => state.nonces.contains address = true) (Numbers · address)
    (both.step fun _ _ _ notSlash applied => (applied.moved notSlash).numbered address)
    both.leftRan both.rightRan
  have same := both.order.own_eq address (fun state => state.nonces.getD address 0)
    (fun _ tx => tx.nonce + 1)
    (both.step fun _ _ _ _ applied => applied.getD_nonces address)
    both.leftRan both.rightRan
  exact get?_eq_of_getD 0 (Bool.eq_iff_iff.mpr present) same

theorem balances (address : Str) :
    leftAfter.balances.get? address = rightAfter.balances.get? address := by
  have present := touched_iff_of_perm both.order.perm
    (fun state => state.balances.contains address = true) (Uses block · address)
    (both.step fun _ _ _ notSlash applied => (applied.moved notSlash).accounts address)
    both.leftRan both.rightRan
  have holding := sum_eq_of_perm both.order.perm (fun state => state.holding address)
    (fun tx => flow block tx (handedOver tx) address)
    (both.step fun _ _ _ notSlash applied => (applied.moved notSlash).holding address)
    both.leftRan both.rightRan
  have stakes := both.stakes address
  have queues := both.unbonding address
  refine get?_eq_of_getD 0 (Bool.eq_iff_iff.mpr present) ?_
  simp only [LedgerState.holding, LedgerState.unbondingOf, Dict.getD, stakes, queues] at holding ⊢
  omega

theorem mem_votes (edge : Str × Str) (voter : Str) :
    voter ∈ leftAfter.ffgVotes.getD edge ∅ ↔ voter ∈ rightAfter.ffgVotes.getD edge ∅ :=
  touched_iff_of_perm both.order.perm (fun state => voter ∈ state.ffgVotes.getD edge ∅)
    (fun tx => votedEdge tx = some edge ∧ tx.sender = voter)
    (both.step fun _ _ _ _ applied => applied.mem_votes edge voter)
    both.leftRan both.rightRan

theorem votes (edge : Str × Str) :
    leftAfter.ffgVotes.get? edge = rightAfter.ffgVotes.get? edge := by
  have present := touched_iff_of_perm both.order.perm
    (fun state => state.ffgVotes.contains edge = true) (fun tx => votedEdge tx = some edge)
    (both.step fun _ _ _ _ applied => applied.contains_votes edge)
    both.leftRan both.rightRan
  refine get?_eq_of_getD ∅ (Bool.eq_iff_iff.mpr present) ?_
  ext voter
  exact both.mem_votes edge voter

theorem seenTarget (key : Str × Int) :
    leftAfter.ffgSeenTarget.get? key = rightAfter.ffgSeenTarget.get? key := by
  have law : ∀ state tx after, tx.recipient ≠ SLASH_SENTINEL →
      Applied config block justifiedParent state tx after →
      (fun height => after.ffgSeenTarget.get? (key.1, height)) =
        if tx.sender = key.1 then
          seenAfter tx fun height => state.ffgSeenTarget.get? (key.1, height)
        else fun height => state.ffgSeenTarget.get? (key.1, height) := by
    intro state tx after _ applied
    funext height
    rw [applied.seenTarget]
    split <;> rfl
  have same := both.order.own_eq key.1
    (fun state height => state.ffgSeenTarget.get? (key.1, height))
    (fun seen tx => seenAfter tx seen) (both.step law) both.leftRan both.rightRan
  exact congrFun same key.2

/-- The snapshots, their heights and the convicts stay as they were. -/
theorem framed_step :
    ∀ tx ∈ left, ∀ state after, Framed pre state →
      applyTx config block justifiedParent state tx = .ok after → Framed pre after := by
  intro tx inside state after framed ran
  exact both.step (fun state _ after notSlash applied (framed : Framed pre state) =>
    applied.framed notSlash framed) tx inside state after ran framed

theorem framed : Framed pre leftAfter := by
  refine foldlM_invariant (Framed pre) ?_ ⟨rfl, rfl, rfl⟩ both.leftRan
  exact both.framed_step

theorem reachesQuorum (edge : Str × Str) :
    leftAfter.reachesQuorum edge = rightAfter.reachesQuorum edge := by
  have leftFrame := both.framed
  have rightFrame := both.symm.framed
  apply reachesQuorum_congr
  · rw [leftFrame.stake, rightFrame.stake]
  · rw [leftFrame.slashed, rightFrame.slashed]
  · ext voter
    exact both.mem_votes edge voter

/-- The edges that are voted through in the end are the same. -/
theorem crossed (edge : Str × Str) :
    Crossed votedEdge (fun state edge => state.reachesQuorum edge = true) left leftAfter edge ↔
      Crossed votedEdge (fun state edge => state.reachesQuorum edge = true) right rightAfter
        edge := by
  simp only [Crossed, both.order.perm.mem_iff, both.reachesQuorum]

theorem tallyStep
    (nonneg : pre.SnapshotsNonneg) :
    ∀ tx ∈ left, ∀ state after, Framed pre state →
      applyTx config block justifiedParent state tx = .ok after →
      TallyStep votedEdge (fun state edge => state.reachesQuorum edge = true) state tx after := by
  intro tx inside state after framed ran
  exact both.step (fun state _ after notSlash applied (framed : Framed pre state) =>
    applied.tallyStep notSlash nonneg framed) tx inside state after ran framed

/-- What is justified in the end: what was, and the targets voted through. -/
theorem mem_justified
    (nonneg : pre.SnapshotsNonneg)
    (checkpoint : Str) :
    checkpoint ∈ leftAfter.justified ↔ checkpoint ∈ pre.justified ∨
      ∃ edge, Crossed votedEdge (fun state edge => state.reachesQuorum edge = true) left
        leftAfter edge ∧ edge.2 = checkpoint := by
  refine foldlM_marked (fun state checkpoint => checkpoint ∈ state.justified) Prod.snd
    ⟨rfl, rfl, rfl⟩ both.framed_step (both.tallyStep nonneg) ?_ both.leftRan checkpoint
  intro tx inside state after _ ran
  exact both.step (fun _ _ _ _ applied => applied.mem_justified) tx inside state after ran

/-- What is finalized in the end: the highest source voted through, if it is higher
than what was. -/
theorem isLatest
    (nonneg : pre.SnapshotsNonneg) :
    IsLatest Prod.snd pre.finalized
      (fun offered => ∃ edge,
        Crossed votedEdge (fun state edge => state.reachesQuorum edge = true) left leftAfter
          edge ∧ Offers config pre edge offered) leftAfter.finalized := by
  refine foldlM_latest ⟨rfl, rfl, rfl⟩ both.framed_step (both.tallyStep nonneg) ?_ both.leftRan
  intro tx inside state after framed ran
  exact both.step (fun state _ after _ applied (framed : Framed pre state) =>
    applied.isLatest framed) tx inside state after ran framed

/-- Accepted votes have justified sources. -/
theorem source_justified :
    ∀ tx ∈ left, ∀ edge, votedEdge tx = some edge → edge.1 ∈ justifiedParent := by
  refine foldlM_traces
    (fun taken _ => ∀ tx ∈ taken, ∀ edge, votedEdge tx = some edge → edge.1 ∈ justifiedParent)
    ?_ (by simp) both.leftRan
  intro earlier tx later position state after reached ran other inside edge voted
  rcases List.mem_append.mp inside with old | new
  · exact reached other old edge voted
  · rw [List.mem_singleton.mp new] at voted
    obtain ⟨link, named, rfl⟩ := Option.map_eq_some_iff.mp voted
    have applied := (applyTx_eq_ok config block justifiedParent state after tx).mp ran
    exact (applied.checkpoints_of_vote named).1.source_justified

/-- The two orders lead to states that no query tells apart. -/
theorem agrees
    (nonneg : pre.SnapshotsNonneg)
    (apart : ∀ one ∈ justifiedParent, ∀ other ∈ justifiedParent, ∀ height,
      pre.ffgHeight.get? one = some height → pre.ffgHeight.get? other = some height →
      one = other) :
    leftAfter.Agrees rightAfter where
  balances := both.balances
  nonces := both.nonces
  stakes := both.stakes
  unbonding := both.unbonding
  votes := both.votes
  seenTarget := both.seenTarget
  justified := by
    ext checkpoint
    rw [both.mem_justified nonneg, both.symm.mem_justified nonneg]
    simp only [both.crossed]
  finalized := by
    have leftLatest := both.isLatest nonneg
    have rightLatest := both.symm.isLatest nonneg
    simp only [both.crossed] at leftLatest
    refine leftLatest.unique ?_ rightLatest
    rintro ⟨one, height⟩ ⟨other, same⟩ ⟨edge, crossed, offers⟩ ⟨edge', crossed', offers'⟩ rfl
    obtain ⟨⟨tx, inside, voted⟩, _⟩ := crossed
    obtain ⟨⟨tx', inside', voted'⟩, _⟩ := crossed'
    have source := both.symm.source_justified tx inside edge voted
    have source' := both.symm.source_justified tx' inside' edge' voted'
    have sources := apart edge.1 source edge'.1 source' height offers.sourceHeight
      offers'.sourceHeight
    rw [offers.source, offers'.source] at sources
    exact congrArg (·, height) sources

end BothApply

/-! ## Reachable chains -/

namespace ProofOfStakeChain

variable {args : GenesisArgs} {chain : ProofOfStakeChain}

/-- Justified checkpoints have different heights, also after a block whose hash is
new, or recorded at the block's height, or that follows the head. -/
theorem Reachable.heights_apart
    (reachable : Reachable args chain)
    (placed : ∀ height, chain.state.ffgHeight.get? block.hash = some height →
      height = block.index ∨ chain.head.index < block.index) :
    ∀ one ∈ chain.state.justified, ∀ other ∈ chain.state.justified, ∀ height,
      (applyBlockPre chain.config block chain.state).ffgHeight.get? one = some height →
      (applyBlockPre chain.config block chain.state).ffgHeight.get? other = some height →
      one = other := by
  have books := reachable.bookkeeping
  have recorded := reachable.justified_recorded
  -- before the block, a height names a position of the chain
  have before : ∀ one other height, chain.state.ffgHeight.get? one = some height →
      chain.state.ffgHeight.get? other = some height → one = other := by
    intro one other height first second
    obtain ⟨_, position, rfl, here⟩ := books.height_sound one height first
    obtain ⟨_, again, same, there⟩ := books.height_sound other _ second
    rw [← Int.natCast_inj.mp same] at there
    exact Option.some.inj (here.symm.trans there)
  have below : ∀ hash height, chain.state.ffgHeight.get? hash = some height →
      height ≤ chain.head.index := by
    intro hash height found
    obtain ⟨_, position, rfl, here⟩ := books.height_sound hash height found
    have inside := (List.getElem?_eq_some_iff.mp here).1
    rw [List.length_map] at inside
    have length := reachable.length_eq
    omega
  -- the hash of the block can only share a height with itself
  have alone : ∀ hash, block.hash ∈ chain.state.justified →
      chain.state.ffgHeight.get? hash = some block.index → hash = block.hash := by
    intro hash justified found
    obtain ⟨height, known⟩ := (Dict.contains_iff _ _).mp (recorded _ justified)
    rcases placed height known with rfl | past
    · exact before hash block.hash _ found known
    · have bounded := below hash _ found
      omega
  intro one oneJustified other otherJustified height first second
  rw [applyBlockPre_eq] at first second
  simp only [] at first second
  split_ifs at first second with boundary
  · rw [Dict.get?_set] at first second
    split_ifs at first second with isOne isOther
    · exact isOne.symm.trans isOther
    · cases first
      rw [← isOne] at oneJustified ⊢
      exact (alone other oneJustified second).symm
    · rename_i isOther
      cases second
      rw [← isOther] at otherJustified ⊢
      exact alone one otherJustified first
    · exact before one other height first second
  · exact before one other height first second

/-- Two orders of some payments, stakes, unstakes and votes that keep each sender's
own order, when both apply after `_apply_block_pre`, lead to the same balances,
nonces, stakes, queues, votes, seen targets and justified and finalized
checkpoints. -/
theorem Reachable.order_irrelevant
    (reachable : Reachable args chain)
    (placed : ∀ height, chain.state.ffgHeight.get? block.hash = some height →
      height = block.index ∨ chain.head.index < block.index)
    (both : BothApply chain.config block chain.state.justified
      (applyBlockPre chain.config block chain.state) left right leftAfter rightAfter) :
    leftAfter.Agrees rightAfter :=
  both.agrees (reachable.snapshots_nonneg.applyBlockPre reachable.healthy)
    (reachable.heights_apart placed)

end ProofOfStakeChain

end

/-! ## Two votes in either order -/

namespace ConfluenceSample

open ProofOfStakeChain

attribute [local instance] Symbolic.primitives

/-- Two validators with one stake each. -/
def keyring : List Wallet := [Symbolic.wallet 1, Symbolic.wallet 2]

def args : GenesisArgs where
  allocations :=
    (Dict.empty.set (Symbolic.wallet 1).address (MAX_SUPPLY_UNITS - 1000)).set
      (Symbolic.wallet 2).address 1000
  initialStakes :=
    (Dict.empty.set (Symbolic.wallet 1).address 500).set (Symbolic.wallet 2).address 500
  epoch := 1

/-- A chain, a header, two votes, and the states after both orders. -/
structure Scene where
  chain : ProofOfStakeChain
  block : Block
  first : Transaction
  second : Transaction
  left : LedgerState
  right : LedgerState

/-- Both validators vote for the same link; the second vote in either order
justifies its target. -/
def stage : Except Error Scene := do
  let chain ← play keyring args [[]]
  let first ← Draft.sign keyring chain (.vote 0 0 1 2)
  let second ← Draft.sign keyring chain (.vote 1 0 1 3)
  let block ← sealBlock chain.head.hash 2 (Symbolic.wallet 1) [] 2 0 0
  let pre := applyBlockPre chain.config block chain.state
  let left ← [first, second].foldlM (applyTx chain.config block chain.state.justified) pre
  let right ← [second, first].foldlM (applyTx chain.config block chain.state.justified) pre
  raiseIf (first.sender = second.sender ∨ first.recipient = SLASH_SENTINEL ∨
    second.recipient = SLASH_SENTINEL ∨ block.index ≤ chain.head.index ∨
    left.justified = chain.state.justified) Error.valueError
  pure { chain, block, first, second, left, right }

theorem staged : succeeded stage = true := by decide +kernel

theorem order_irrelevant_votes :
    ∃ scene, stage = .ok scene ∧ scene.left.Agrees scene.right := by
  obtain ⟨scene, ran⟩ := (succeeded_iff stage).mp staged
  refine ⟨scene, ran, ?_⟩
  simp only [stage, bind_eq_ok, raiseIf_eq_ok, exists_unit, pure_eq_ok, not_or, not_le] at ran
  obtain ⟨chain, played, first, _, second, _, block, _, left, leftRan, right, rightRan,
    ⟨different, firstPlain, secondPlain, later, _⟩, rfl⟩ := ran
  refine Reachable.order_irrelevant (play_reachable played) (fun _ _ => .inr later)
    ⟨.swap different [], ?_, leftRan, rightRan⟩
  intro tx inside
  simp only [List.mem_cons, List.not_mem_nil, or_false] at inside
  rcases inside with rfl | rfl
  · exact firstPlain
  · exact secondPlain

end ConfluenceSample

end Mindees
