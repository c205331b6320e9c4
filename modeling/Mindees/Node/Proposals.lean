import Mindees.Consensus.Standing
import Mindees.Node.Acceptance
import Mindees.Node.Untyped

/-!
# Proposing transactions of any JSON kind

Selection from a pool whose transactions hold whatever JSON values their senders
chose, and what the chain asks of a selected transaction beyond what selection
models.  All of it can be read off the books: the chain applies a selection exactly
when every transaction fits the books of those before it.
-/

namespace Mindees

open Library

namespace Untyped

/-! ## Selection -/

/-- The liquid balance a transaction needs, and what it does to it. -/
def cost (tx : Checked) (unbondingBlocks : Int) : Int × Int :=
  if tx.names SLASH_SENTINEL ∨ tx.names VOTE_SENTINEL then (tx.fee, -tx.fee)
  else if tx.names UNSTAKE_SENTINEL then
    if 0 < unbondingBlocks then (tx.fee, -tx.fee) else (tx.fee, tx.amount - tx.fee)
  else (tx.amount + tx.fee, -(tx.amount + tx.fee))

/-- The market that a pool is. -/
def market (unbondingBlocks : Int) : Market Str Pooled where
  owner pooled := pooled.fields.sender
  number pooled := pooled.fields.nonce
  fee pooled := pooled.fields.fee
  price pooled := cost pooled.fields unbondingBlocks

/-- The liquid balance of an address. -/
def Chain.balanceOf (chain : Chain) (address : Str) : Int :=
  chain.state.ledger.balances.getD address 0

/-- The next nonce of an address. -/
def Chain.nonceOf (chain : Chain) (address : Str) : Int :=
  chain.state.ledger.nonces.getD address 0

namespace Mempool

/-- Build a fee-ordered list for a block that respects nonces and balances. -/
def select
    (mempool : Mempool)
    (chain : Chain)
    (maxCount : Nat := MAX_TXS_PER_BLOCK) : List Pooled :=
  (market chain.config.unbondingBlocks).pick chain.nonceOf chain.balanceOf mempool.pool.values
    maxCount

variable [Primitives]

/-- Every pooled transaction is valid and filed under its identifier. -/
def Sound (mempool : Mempool) : Prop :=
  ∀ txid pooled, mempool.pool.get? txid = some pooled →
    pooled.tx.txid = txid ∧ pooled.tx.isValid = .ok (some pooled.fields)

/-- Pools that offers and blocks lead to, whatever is offered and whatever chain it is
checked against. -/
inductive Built : Mempool → Prop
  | init : Built init
  | add {mempool after : Mempool} {tx : Transaction} {chain : Chain} {new : Bool} :
      Built mempool → mempool.add tx chain = .ok (new, after) → Built after
  | update {mempool : Mempool} (chain : Chain) : Built mempool → Built (mempool.update chain)

theorem Sound.add
    {mempool after : Mempool}
    {tx : Transaction}
    {chain : Chain}
    {new : Bool}
    (sound : mempool.Sound)
    (added : mempool.add tx chain = .ok (new, after)) :
    after.Sound := by
  simp only [Mempool.add, rejectIf, bind_eq_ok, raiseIf_eq_ok, require_eq_ok, exists_unit]
    at added
  obtain ⟨_, valid, fields, rfl, _, _, stored⟩ := added
  -- filing one more valid transaction keeps a sound pool sound
  have file : ∀ {pool : Dict Str Pooled},
      (∀ txid other, pool.get? txid = some other → mempool.pool.get? txid = some other) →
      Sound ⟨pool.set tx.txid ⟨tx, fields⟩⟩ := by
    intro pool part txid other found
    rw [Dict.get?_set] at found
    split_ifs at found with same
    · cases found
      exact ⟨same, valid⟩
    · exact sound txid other (part txid other found)
  split_ifs at stored with known full
  · cases stored
    exact sound
  · simp only [bind_eq_ok, require_eq_ok, raiseIf_eq_ok, exists_unit, pure_eq_ok,
      Prod.mk.injEq] at stored
    obtain ⟨evicted, _, _, _, rfl⟩ := stored
    refine file fun txid other found => ?_
    rw [Dict.get?_erase] at found
    split_ifs at found
    exact found
  · cases stored
    exact file fun _ _ found => found

/-- Whatever has been offered, the pool is sound. -/
theorem Built.sound
    {mempool : Mempool}
    (built : mempool.Built) :
    mempool.Sound := by
  induction built with
  | init =>
      intro txid pooled found
      cases found
  | add _ added sound => exact sound.add added
  | update chain _ sound =>
      intro txid pooled found
      rw [Mempool.update, Dict.get?_filter, Option.filter_eq_some_iff] at found
      exact sound txid pooled found.1

variable {mempool : Mempool} {chain : Chain} {maxCount : Nat} {earlier later : List Pooled}
  {pooled : Pooled}

theorem select_valid
    (sound : mempool.Sound)
    (inside : pooled ∈ mempool.select chain maxCount) :
    pooled.tx.isValid = .ok (some pooled.fields) := by
  obtain ⟨txid, found⟩ := (Dict.mem_values_iff _ _).mp (Market.mem_of_mem_pick inside)
  exact (sound txid pooled found).2

/-- The identifiers of a selection are distinct. -/
theorem select_fresh
    (sound : mempool.Sound)
    (selected : mempool.select chain maxCount = earlier ++ pooled :: later) :
    pooled.tx.txid ∉ earlier.map fun other => other.tx.txid := by
  have filed : ∀ other ∈ mempool.select chain maxCount,
      mempool.pool.get? other.tx.txid = some other := by
    intro other inside
    obtain ⟨txid, found⟩ := (Dict.mem_values_iff _ _).mp (Market.mem_of_mem_pick inside)
    rwa [(sound txid other found).1]
  intro repeated
  obtain ⟨other, inside, sameId⟩ := List.mem_map.mp repeated
  have here := filed pooled (by rw [selected]; simp)
  have there := filed other (by rw [selected]; exact List.mem_append_left _ inside)
  rw [sameId] at there
  obtain rfl := Option.some.inj (here.symm.trans there)
  exact Market.not_mem_of_pick selected inside

end Mempool

/-! ## Costs by kind -/

theorem cost_named
    {tx : Checked}
    {recipient : Str}
    (text : tx.recipient = .str recipient)
    (unbondingBlocks : Int) :
    Mindees.cost (tx.named recipient) unbondingBlocks = cost tx unbondingBlocks := by
  simp only [cost, Checked.names_of_text text, decide_eq_true_eq]
  rfl

theorem cost_slash
    {tx : Checked}
    (slash : tx.recipient = .str SLASH_SENTINEL)
    (unbondingBlocks : Int) :
    cost tx unbondingBlocks = (tx.fee, -tx.fee) := by
  rw [cost, if_pos (.inl ((tx.names_iff _).mpr slash))]

theorem cost_away
    {tx : Checked}
    (other : ∀ recipient, tx.recipient ≠ .str recipient)
    (unbondingBlocks : Int) :
    cost tx unbondingBlocks = (tx.amount + tx.fee, -(tx.amount + tx.fee)) := by
  simp [cost, Checked.names_eq_false other]

/-! ## The remaining rules -/

variable [Primitives]

/-- What the chain asks of a transaction that can pay for itself, by the state before
the transactions of the block and the books of those before it. -/
@[mk_iff] structure Fits
    (config : Config)
    (height : Int)
    (validator : Str)
    (justified : Finset Str)
    (start : State)
    (earlier : List Checked)
    (tx : Checked) : Prop where
  /-- The recipient can be a key. -/
  payable : tx.recipient.hashKey ≠ none
  /-- The sender has the stake that it withdraws, and is not the last to leave. -/
  withdrawable : tx.names UNSTAKE_SENTINEL →
    let books := Books.along config validator start earlier
    tx.amount ≤ books.staked tx.sender ∧
      (books.staked tx.sender = tx.amount → ∃ other, tx.sender ≠ other ∧ 0 < books.staked other)
  /-- The chain has a treasury, the reporter an account, and the evidence proves an
  offense that is punished neither before nor by an earlier slash. -/
  punishable : tx.names SLASH_SENTINEL →
    config.treasuryAddress ≠ none ∧
      (start.ledger.balances.contains tx.sender ∨
        ∃ other ∈ earlier, other.Opens config validator tx.sender) ∧
      ∃ offender offense, slashOffense tx.evidence = .ok (offender, offense) ∧
        offense ∉ start.slashed ∧ ∀ other ∈ earlier, other.convicts.map Prod.snd ≠ some offense
  /-- The vote passes the checks before the block, no earlier slash convicts the voter
  and no earlier vote of the voter is for another link to the same height. -/
  votable : tx.names VOTE_SENTINEL →
    ∃ link, voteLink tx.evidence = .ok link ∧
      checkVote config justified start.ledger tx.sender link = .ok () ∧
      ∀ other ∈ earlier, other.convicts.map Prod.fst ≠ some tx.sender ∧
        (other.sender = tx.sender → ∀ cast, other.casts = some cast →
          cast.targetHeight = link.targetHeight → cast.edge = link.edge)
  /-- A grant holder that stakes, unstakes or pays keeps what is locked. -/
  locked : tx.names SLASH_SENTINEL = false → tx.names VOTE_SENTINEL = false →
    let books := Books.along config validator start (earlier ++ [tx])
    ∀ grant, config.vesting.get? tx.sender = some grant →
      grant.lockedAt height ≤ 0 ∨ grant.lockedAt height ≤ books.held tx.sender

section

variable {config : Config} {block : Mindees.Block} {justified : Finset Str} {start state : State}
  {earlier : List Checked} {tx : Checked}

/-- A transaction to a text other than a slash is the typed chain's. -/
theorem applyTx_text_iff
    {recipient : Str}
    (text : tx.recipient = .str recipient)
    (notSlash : recipient ≠ SLASH_SENTINEL) :
    (∃ after, applyTx config block justified state tx = .ok after) ↔
      ∃ ledger, Mindees.applyTx config block justified state.ledger (tx.named recipient) =
        .ok ledger := by
  have named : applyTx config block justified state tx = (do
      let ledger ← Mindees.applyTx config block justified state.ledger (tx.named recipient)
      pure { state with ledger }) := by
    unfold applyTx
    rw [text]
    exact if_neg notSlash
  simp only [named, bind_eq_ok, pure_eq_ok]
  constructor
  · rintro ⟨_, ledger, applied, _⟩
    exact ⟨ledger, applied⟩
  · rintro ⟨ledger, applied⟩
    exact ⟨_, ledger, applied, rfl⟩

/-- What a grant holder keeps, by the books. -/
theorem keepsLocked_named
    {recipient : Str}
    (text : tx.recipient = .str recipient)
    (notSlash : recipient ≠ SLASH_SENTINEL) :
    keepsLocked config block state.ledger (tx.named recipient) tx.handedOver = true ↔
      ∀ grant, config.vesting.get? tx.sender = some grant →
        grant.lockedAt block.index ≤ 0 ∨ grant.lockedAt block.index ≤
          ((Books.of state.ledger).after config block.validator tx).held tx.sender := by
  have held : ∀ address, ((Books.of state.ledger).after config block.validator tx).held address =
      state.ledger.holding address + flow block (tx.named recipient) tx.handedOver address := by
    intro address
    have flows : flow block (tx.named recipient) tx.handedOver address =
        (if tx.sender = address then -(tx.handedOver + tx.fee) else 0) +
          (if recipient = address then tx.handedOver else 0) +
          (if block.validator = address then tx.fee else 0) := rfl
    rw [Books.after_of_innocent (Checked.convicts_eq_none text notSlash), flows]
    simp only [Books.move, Books.of, Checked.names_of_text text, decide_eq_true_eq]
    omega
  have sender : (tx.named recipient).sender = tx.sender := rfl
  rw [keepsLocked, held, sender]
  cases config.vesting.get? tx.sender with
  | none => simp
  | some grant =>
      simp only [Option.some.injEq, forall_eq']
      exact decide_eq_true_iff

/-! ### Votes -/

omit [Primitives] in
theorem getD_eq_self_iff
    {κ ν : Type}
    [DecidableEq κ]
    (dict : Dict κ ν)
    (key : κ)
    (value : ν) :
    dict.getD key value = value ↔ ∀ other, dict.get? key = some other → other = value := by
  rw [Dict.getD]
  cases dict.get? key <;> simp

/-- Of what a vote is checked against, only convictions and votes change in a block. -/
theorem checkVote_iff
    (booked : Booked config block.validator start earlier state)
    (voter : Str)
    (link : Link) :
    checkVote config justified state.ledger voter link = .ok () ↔
      checkVote config justified start.ledger voter link = .ok () ∧
        ∀ other ∈ earlier, other.convicts.map Prod.fst ≠ some voter ∧
          (other.sender = voter → ∀ cast, other.casts = some cast →
            cast.targetHeight = link.targetHeight → cast.edge = link.edge) := by
  have unseen := getD_eq_self_iff state.ledger.ffgSeenTarget (voter, link.targetHeight) link.edge
  have unseenBefore :=
    getD_eq_self_iff start.ledger.ffgSeenTarget (voter, link.targetHeight) link.edge
  obtain ⟨s, sh, t, th⟩ := link
  simp only [checkVote, rejectIf, bind_eq_ok, raiseIf_eq_ok, require_eq_ok, exists_unit,
    booked.stake, booked.height, booked.convicted, not_not, ne_eq]
  simp only [Link.edge] at unseen unseenBefore
  simp only [unseen, unseenBefore, booked.seen]
  constructor
  · rintro ⟨bounds, known, _, source, rfl, _, target, rfl, justified, innocent, snapshot, found,
      staked, unseen⟩
    obtain ⟨before, during⟩ := not_or.mp innocent
    exact ⟨⟨bounds, known, _, source, rfl, _, target, rfl, justified, before, snapshot, found,
      staked, fun edge recorded => unseen edge (.inl recorded)⟩, fun other inside =>
      ⟨fun convicted => during ⟨other, inside, convicted⟩, fun mine cast casts height =>
        unseen _ (.inr ⟨other, inside, mine, cast, casts, height, rfl⟩)⟩⟩
  · rintro ⟨⟨bounds, known, _, source, rfl, _, target, rfl, justified, before, snapshot, found,
      staked, unseen⟩, during⟩
    refine ⟨bounds, known, _, source, rfl, _, target, rfl, justified, ?_, snapshot, found, staked,
      ?_⟩
    · rintro (convicted | ⟨other, inside, convicted⟩)
      · exact before convicted
      · exact (during other inside).1 convicted
    · rintro edge (recorded | ⟨other, inside, mine, cast, casts, height, rfl⟩)
      · exact unseen edge recorded
      · exact (during other inside).2 mine cast casts height

/-! ### The kinds of transactions -/

/-- A funded slash needs a treasury, an account of its reporter and evidence of an offense
that has not been punished. -/
theorem applyTx_slash_iff
    (formed : tx.WellFormed)
    (slash : tx.recipient = .str SLASH_SENTINEL)
    (funded : tx.fee ≤ state.ledger.balances.getD tx.sender 0) :
    (∃ after, applyTx config block justified state tx = .ok after) ↔
      config.treasuryAddress ≠ none ∧ state.ledger.balances.contains tx.sender = true ∧
        ∃ offender offense, slashOffense tx.evidence = .ok (offender, offense) ∧
          offense ∉ state.slashed := by
  have unfolded : applyTx config block justified state tx = applySlash config block state tx := by
    unfold applyTx
    rw [slash]
    exact if_pos rfl
  simp only [unfolded, applySlash_iff, payFee_eq_ok, Option.ne_none_iff_exists']
  constructor
  · rintro ⟨_, _, treasury, known, offender, offense, proven, new, _, _, ⟨present, _⟩, _⟩
    exact ⟨⟨treasury, known⟩, present, offender, offense, proven, new⟩
  · rintro ⟨⟨treasury, known⟩, present, offender, offense, proven, new⟩
    exact ⟨_, formed.evidence slash, treasury, known, offender, offense, proven, new, funded, _,
      ⟨present, rfl⟩, rfl⟩

/-- A funded payment to what is no text needs a key for it, and the vesting rule. -/
theorem applyTx_away_iff
    (other : ∀ recipient, tx.recipient ≠ .str recipient)
    (funded : tx.amount + tx.fee ≤ state.ledger.balances.getD tx.sender 0) :
    (∃ after, applyTx config block justified state tx = .ok after) ↔
      tx.recipient.hashKey ≠ none ∧ ∀ grant, config.vesting.get? tx.sender = some grant →
        grant.lockedAt block.index ≤ 0 ∨ grant.lockedAt block.index ≤
          ((Books.of state.ledger).after config block.validator tx).held tx.sender := by
  have books : ((Books.of state.ledger).after config block.validator tx).held =
      (sentAway block state.ledger tx).holding := by
    rw [Books.after_of_innocent (Checked.convicts_of_away other), ← Books.of_sentAway other]
    rfl
  rw [books, ← enforceVesting_eq_ok, Option.ne_none_iff_exists']
  simp only [applyTx_iff_applied]
  constructor
  · rintro ⟨_, applied⟩
    cases applied with
    | text text _ _ => exact absurd text (other _)
    | slash text _ _ _ _ _ _ => exact absurd text (other _)
    | away _ _ hashable kept => exact ⟨⟨_, hashable⟩, kept⟩
  · rintro ⟨⟨key, hashable⟩, kept⟩
    exact ⟨_, .away other funded hashable kept⟩

omit [Primitives] in
theorem handedOver_of_special
    {recipient : Str}
    (text : tx.recipient = .str recipient)
    (special : recipient = STAKE_SENTINEL ∨ recipient = UNSTAKE_SENTINEL) :
    tx.handedOver = 0 := by
  rw [Checked.handedOver, if_neg]
  rcases special with rfl | rfl <;> simp [Checked.isPayment, Checked.names_of_text text]

/-- A funded transaction to a text other than a slash needs what it withdraws, a link that
the chain accepts and the vesting rule, each where its kind calls for it. -/
theorem applyTx_named_iff
    {recipient : Str}
    (booked : Booked config block.validator start earlier state)
    (healthy : Healthy block.index state.ledger)
    (keyed : state.ledger.Keyed)
    (formed : tx.WellFormed)
    (text : tx.recipient = .str recipient)
    (notSlash : recipient ≠ SLASH_SENTINEL)
    (funded : (cost tx config.unbondingBlocks).1 ≤ state.ledger.balances.getD tx.sender 0) :
    (∃ after, applyTx config block justified state tx = .ok after) ↔
      (recipient = UNSTAKE_SENTINEL →
        tx.amount ≤ (Books.of state.ledger).staked tx.sender ∧
          ((Books.of state.ledger).staked tx.sender = tx.amount →
            ∃ other, tx.sender ≠ other ∧ 0 < (Books.of state.ledger).staked other)) ∧
      (recipient = VOTE_SENTINEL →
        ∃ link, voteLink tx.evidence = .ok link ∧
          checkVote config justified start.ledger tx.sender link = .ok () ∧
          ∀ other ∈ earlier, other.convicts.map Prod.fst ≠ some tx.sender ∧
            (other.sender = tx.sender → ∀ cast, other.casts = some cast →
              cast.targetHeight = link.targetHeight → cast.edge = link.edge)) ∧
      (recipient ≠ VOTE_SENTINEL → ∀ grant, config.vesting.get? tx.sender = some grant →
        grant.lockedAt block.index ≤ 0 ∨ grant.lockedAt block.index ≤
          ((Books.of state.ledger).after config block.validator tx).held tx.sender) := by
  have kept : keepsLocked config block state.ledger (tx.named recipient) tx.handedOver = true ↔ _ :=
    keepsLocked_named text notSlash
  rw [applyTx_text_iff text notSlash, ← kept]
  rw [← cost_named text] at funded
  have positive := formed.positive_named text notSlash
  by_cases stake : recipient = STAKE_SENTINEL
  · have notUnstake : recipient ≠ UNSTAKE_SENTINEL := by
      rw [stake]
      decide
    have notVote : recipient ≠ VOTE_SENTINEL := by
      rw [stake]
      decide
    rw [cost_stake _ (show (tx.named recipient).recipient = _ from stake)] at funded
    rw [Mindees.applyTx_stake_iff (positive notVote) formed.fee stake funded,
      handedOver_of_special text (.inl stake)]
    simp [notUnstake, notVote]
  by_cases unstake : recipient = UNSTAKE_SENTINEL
  · have notVote : recipient ≠ VOTE_SENTINEL := by
      rw [unstake]
      decide
    rw [cost_unstake _ (show (tx.named recipient).recipient = _ from unstake)] at funded
    rw [Mindees.applyTx_unstake_iff unstake funded, handedOver_of_special text (.inr unstake)]
    have spends := positive notVote
    constructor
    · rintro ⟨_, covered, withdrawn, locked⟩
      exact ⟨fun _ => ⟨covered,
        (withdrawStake_succeeds_iff healthy.stakes spends covered).mp withdrawn⟩,
        fun vote => absurd vote notVote, fun _ => locked⟩
    · rintro ⟨withdrawable, _, locked⟩
      obtain ⟨covered, others⟩ := withdrawable unstake
      exact ⟨keyed.stakers _ (contains_of_funded (spends.trans_le covered)), covered,
        (withdrawStake_succeeds_iff healthy.stakes spends covered).mpr others, locked notVote⟩
  by_cases vote : recipient = VOTE_SENTINEL
  · subst vote
    rw [cost_special _ (show (tx.named VOTE_SENTINEL).recipient = _ ∨ _ from .inr rfl)] at funded
    rw [Mindees.applyTx_vote_iff rfl funded]
    simp only [unstake, ne_eq, not_true_eq_false, false_imp_iff, true_imp_iff, and_true,
      true_and, ← checkVote_iff booked]
    constructor
    · rintro ⟨_, voted⟩
      exact voted
    · rintro ⟨link, parsed, checked⟩
      exact ⟨contains_of_checkVote keyed checked, link, parsed, checked⟩
  · have payment : tx.handedOver = tx.amount := by
      rw [Checked.handedOver, if_pos]
      simp [Checked.isPayment, Checked.names_of_text text, stake, unstake, notSlash, vote]
    rw [cost_payment _ (show (tx.named recipient).recipient ≠ _ from unstake) notSlash vote]
      at funded
    rw [Mindees.applyTx_payment_iff stake unstake notSlash vote funded, payment]
    simp [unstake, vote, Checked.named]

/-- A funded transaction is applied exactly when it fits. -/
theorem applyTx_iff_fits
    (booked : Booked config block.validator start earlier state)
    (healthy : Healthy block.index state.ledger)
    (keyed : state.ledger.Keyed)
    (formed : tx.WellFormed)
    (funded : (cost tx config.unbondingBlocks).1 ≤ state.ledger.balances.getD tx.sender 0) :
    (∃ after, applyTx config block justified state tx = .ok after) ↔
      Fits config block.index block.validator justified start earlier tx := by
  have along : Books.along config block.validator start (earlier ++ [tx]) =
      (Books.of state.ledger).after config block.validator tx := by
    rw [Books.along, List.foldl_concat, ← Books.along, ← booked.books]
  rw [fits_iff]
  simp only [along, ← booked.books, ← booked.accounts]
  by_cases text : ∃ recipient, tx.recipient = .str recipient
  · obtain ⟨recipient, text⟩ := text
    have hashable : tx.recipient.hashKey ≠ none := by
      rw [text]
      exact Option.some_ne_none _
    simp only [hashable, Checked.names_of_text text, decide_eq_true_eq, decide_eq_false_iff_not,
      ne_eq, not_false_eq_true, true_and]
    by_cases slash : recipient = SLASH_SENTINEL
    · subst slash
      have notUnstake : SLASH_SENTINEL ≠ UNSTAKE_SENTINEL := by decide
      have notVote : SLASH_SENTINEL ≠ VOTE_SENTINEL := by decide
      rw [cost_slash text] at funded
      rw [applyTx_slash_iff formed text funded]
      simp [notUnstake, notVote, booked.slashed]
    · simp only [slash, not_false_eq_true, true_imp_iff, false_imp_iff, true_and]
      exact applyTx_named_iff booked healthy keyed formed text slash funded
  · have other : ∀ recipient, tx.recipient ≠ .str recipient := not_exists.mp text
    rw [cost_away other] at funded
    simp [applyTx_away_iff other funded, Checked.names_eq_false other]

end

/-! ## Applying a selection -/

/-- No liquid balance falls further than selection accounts for. -/
theorem Applied.balances_le
    {config : Config}
    {block : Mindees.Block}
    {justified : Finset Str}
    {state after : State}
    {tx : Checked}
    (applied : Applied config block justified state tx after)
    (healthy : Healthy block.index state.ledger)
    (formed : tx.WellFormed)
    (address : Str) :
    state.ledger.balances.getD address 0 +
        (if tx.sender = address then (cost tx config.unbondingBlocks).2 else 0) ≤
      after.ledger.balances.getD address 0 := by
  have amount := formed.amount
  have fee := formed.fee
  cases applied with
  | text text _ moved =>
      rw [← cost_named text]
      exact moved.balances_le healthy amount fee address
  | @slash treasury offender _ paid slash _ _ _ _ funded charged =>
      obtain ⟨shareNonneg, shareSmall⟩ :=
        reporterShare_bounds ((healthy.payFee fee funded charged).bonded_nonneg offender)
      have charge : state.ledger.balances.getD address 0 +
          (if tx.sender = address then -tx.fee else 0) ≤ paid.balances.getD address 0 := by
        obtain ⟨_, rfl⟩ := (payFee_eq_ok _ _ _ _).mp charged
        change _ ≤ (credit (credit _ tx.sender (-tx.fee)) _ tx.fee).getD address 0
        simp only [getD_credit]
        split_ifs <;> omega
      simp only [cost_slash slash, punished, getD_redistribute]
      split_ifs at charge ⊢ <;> omega
  | away other _ _ _ =>
      rw [cost_away other]
      simp only [sentAway, getD_credit]
      split_ifs <;> omega

/-- The ledger inside a block follows the nonces of selection, holds at least the balances
it counts with, and keeps the books. -/
structure Tracks
    (chain : Chain)
    (view : Mindees.Block)
    (start : State)
    (earlier : List Pooled)
    (state : State) : Prop where
  nonces : ∀ address, state.ledger.nonces.getD address 0 =
    chain.nonceOf address +
      ((market chain.config.unbondingBlocks).owned address earlier).length
  balances : ∀ address, chain.balanceOf address +
    (market chain.config.unbondingBlocks).spent
      ((market chain.config.unbondingBlocks).owned address earlier) ≤
      state.ledger.balances.getD address 0
  healthy : Healthy view.index state.ledger
  keyed : state.ledger.Keyed
  booked : Booked chain.config view.validator start (earlier.map Pooled.fields) state

section

variable {chain : Chain} {block : Block} {view : Mindees.Block} {height : Int} {start : State}
  {earlier : List Pooled} {before after : State} {pooled : Pooled}

/-- The hook before the transactions leaves what selection has read, or more. -/
theorem tracks_start
    (healthy : Healthy height chain.state.ledger)
    (keyed : chain.state.ledger.Keyed)
    (next : view.index = height + 1)
    (hash : Str) :
    Tracks chain view (applyBlockPre chain.config hash view.index chain.state) []
      (applyBlockPre chain.config hash view.index chain.state) := by
  have opened := applyBlockPre_ledger chain.config hash view.index chain.state
  refine ⟨fun address => ?_, fun address => ?_, healthy_applyBlockPre healthy (by omega),
    keyed_applyBlockPre chain.config hash view.index keyed, .nil _ _ _⟩
  · obtain ⟨_, _, same⟩ := opened
    rw [same]
    exact (add_zero _).symm
  · obtain ⟨_, _, same⟩ := opened
    have due : 0 ≤ released view.index (chain.state.ledger.unbonding.getD address []) := by
      refine List.sum_nonneg fun amount inside => ?_
      obtain ⟨entry, present, rfl⟩ := List.mem_map.mp inside
      exact (healthy.queues address entry (List.mem_of_mem_filter present)).1.le
    have matured := getD_balances_matureUnbonding view.index chain.state.ledger address
    rw [same, matured]
    change chain.state.ledger.balances.getD address 0 + 0 ≤ _
    omega

theorem Tracks.step
    (tracks : Tracks chain view start earlier before)
    (valid : pooled.tx.isValid = .ok (some pooled.fields))
    (nonce : before.ledger.nonces.getD pooled.fields.sender 0 = pooled.fields.nonce)
    {justified : Finset Str}
    (applied : Applied chain.config view justified before pooled.fields after)
    (keyed : after.ledger.Keyed) :
    Tracks chain view start (earlier ++ [pooled]) after := by
  have formed := Checked.wellFormed_of_isValid valid
  refine ⟨fun address => ?_, fun address => ?_, applied.healthy tracks.healthy formed, keyed, ?_⟩
  · have counted := tracks.nonces address
    rw [applied.getD_nonces, Market.owned_append, Market.owned_singleton, List.length_append]
    change (if pooled.fields.sender = address then _ else _) = _
    by_cases same : pooled.fields.sender = address
    · rw [if_pos same, if_pos (show (market _).owner pooled = address from same), ← nonce, same,
        counted, List.length_singleton]
      push_cast
      omega
    · rw [if_neg same, if_neg (show ¬(market _).owner pooled = address from same), counted,
        List.length_nil, Nat.add_zero]
  · have counted := tracks.balances address
    have moved := applied.balances_le tracks.healthy formed address
    rw [Market.owned_append, Market.owned_singleton, Market.spent_append]
    by_cases same : pooled.fields.sender = address
    · rw [if_pos (show (market _).owner pooled = address from same), Market.spent_singleton]
      rw [if_pos same] at moved
      change chain.balanceOf address + (_ + (cost pooled.fields _).2) ≤ _
      omega
    · rw [if_neg (show ¬(market _).owner pooled = address from same), Market.spent_nil]
      rw [if_neg same] at moved
      omega
  · rw [List.map_append]
    exact tracks.booked.concat applied

/-- What a part of a block leaves behind. -/
theorem tracks_of_progress
    {seen : List Str}
    {state : State}
    (healthy : Healthy height chain.state.ledger)
    (keyed : chain.state.ledger.Keyed)
    (next : view.index = height + 1)
    (valid : ∀ pooled ∈ earlier, pooled.tx.isValid = .ok (some pooled.fields))
    (ran : chain.progress block view (earlier.map Pooled.tx) = .ok (seen, state)) :
    seen = (earlier.map fun other => other.tx.txid).reverse ∧
      Tracks chain view (applyBlockPre chain.config block.hash view.index chain.state) earlier
        state := by
  induction earlier using List.reverseRecOn generalizing seen state with
  | nil =>
      cases ran
      exact ⟨rfl, tracks_start healthy keyed next block.hash⟩
  | append_singleton part last inductionHypothesis =>
      rw [Chain.progress, List.map_append, List.map_singleton] at ran
      obtain ⟨⟨seenBefore, middle⟩, ranBefore, stepped⟩ := (foldlM_concat_eq_ok _ _ _ _).mp ran
      obtain ⟨rfl, tracks⟩ := inductionHypothesis
        (fun pooled inside => valid pooled (List.mem_append_left _ inside)) ranBefore
      have keyedAfter := keyed_of_applyNext tracks.keyed stepped
      obtain ⟨_, checked, accepted, nonce, rfl, applied⟩ := applyNext_iff.mp stepped
      have validLast := valid last (by simp)
      obtain rfl : last.fields = checked :=
        Option.some.inj (Except.ok.inj (validLast.symm.trans accepted))
      exact ⟨by simp, tracks.step validLast nonce (applyTx_iff_applied.mp applied) keyedAfter⟩

/-- Every transaction of a list fits the books of those before it. -/
def Chain.SelectionFits
    (chain : Chain)
    (hash : Str)
    (height : Int)
    (validator : Str)
    (selected : List Pooled) : Prop :=
  ∀ earlier pooled later, selected = earlier ++ pooled :: later →
    Fits chain.config height validator chain.state.ledger.justified
      (applyBlockPre chain.config hash height chain.state) (earlier.map Pooled.fields) pooled.fields

/-- A chain applies a selection exactly when it fits. -/
theorem progress_select_iff
    {mempool : Mempool}
    {maxCount : Nat}
    (sound : mempool.Sound)
    (healthy : Healthy height chain.state.ledger)
    (keyed : chain.state.ledger.Keyed)
    (next : view.index = height + 1) :
    (∃ result, chain.progress block view ((mempool.select chain maxCount).map Pooled.tx) =
      .ok result) ↔
      chain.SelectionFits block.hash view.index view.validator
        (mempool.select chain maxCount) := by
  have valid : ∀ {earlier pooled later},
      mempool.select chain maxCount = earlier ++ pooled :: later →
      ∀ other ∈ earlier ++ [pooled], other.tx.isValid = .ok (some other.fields) := by
    intro earlier pooled later selected other inside
    have picked : other ∈ mempool.select chain maxCount := by
      rw [selected, List.append_cons]
      exact List.mem_append_left _ inside
    exact Mempool.select_valid sound picked
  -- one step: what selection models holds, so that only the rest is asked
  have step : ∀ {earlier pooled later},
      mempool.select chain maxCount = earlier ++ pooled :: later →
      ∀ seen state, chain.progress block view (earlier.map Pooled.tx) = .ok (seen, state) →
        ((∃ result, applyNext chain.config view chain.state.ledger.justified (seen, state)
            pooled.tx = .ok result) ↔
          Fits chain.config view.index view.validator chain.state.ledger.justified
            (applyBlockPre chain.config block.hash view.index chain.state)
            (earlier.map Pooled.fields) pooled.fields) := by
    intro earlier pooled later selected seen state ran
    obtain ⟨rfl, tracks⟩ := tracks_of_progress healthy keyed next
      (fun other inside => valid selected other (List.mem_append_left _ inside)) ran
    obtain ⟨nonce, affordable⟩ := Market.pick_next selected
    have accepted := valid selected pooled (by simp)
    have fresh : pooled.tx.txid ∉ (earlier.map fun other => other.tx.txid).reverse := by
      rw [List.mem_reverse]
      exact Mempool.select_fresh sound selected
    have expected : state.ledger.nonces.getD pooled.fields.sender 0 = pooled.fields.nonce :=
      (tracks.nonces _).trans nonce.symm
    rw [← applyTx_iff_fits tracks.booked tracks.healthy tracks.keyed
      (Checked.wellFormed_of_isValid accepted) (affordable.trans (tracks.balances _))]
    constructor
    · rintro ⟨result, stepped⟩
      obtain ⟨_, checked, again, _, _, applied⟩ := applyNext_iff.mp stepped
      obtain rfl : pooled.fields = checked :=
        Option.some.inj (Except.ok.inj (accepted.symm.trans again))
      exact ⟨_, applied⟩
    · rintro ⟨after, applied⟩
      exact ⟨(_, after), applyNext_iff.mpr ⟨fresh, _, accepted, expected, rfl, applied⟩⟩
  simp only [Chain.progress, List.foldlM_map] at step ⊢
  constructor
  · rintro ⟨result, ran⟩ earlier pooled later selected
    rw [selected] at ran
    obtain ⟨⟨seen, state⟩, ranBefore, onward⟩ := (foldlM_append_eq_ok _ _ _ _).mp ran
    obtain ⟨after, stepped, _⟩ := (foldlM_cons_eq_ok _ _ _ _).mp onward
    exact (step selected seen state ranBefore).mp ⟨after, stepped⟩
  · intro fits
    rw [foldlM_succeeds_iff]
    rintro earlier pooled later selected ⟨seen, state⟩ ran
    exact (step selected seen state ran).mpr (fits earlier pooled later selected)

end

end Untyped

end Mindees
