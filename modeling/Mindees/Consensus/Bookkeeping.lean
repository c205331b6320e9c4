import Mindees.Consensus.Confluence
import Mindees.Consensus.Readable

/-!
# Books kept along a list of transactions

How much every address has staked, has bonded and holds follows from what it had and
from the transactions alone, and so do the offenses that a list proves and the votes
that it casts.  A chain that applies the list keeps the same books.
-/

namespace Mindees

open Library

namespace Untyped

/-! ## What a transaction names -/

namespace Checked

variable (config : Config) (tx : Checked)

/-- `recipient == address`. -/
def names (address : Str) : Bool := tx.recipient.eq (.str address)

@[simp] theorem names_iff (address : Str) :
    tx.names address = true ↔ tx.recipient = .str address :=
  Json.eq_str_iff ..

@[simp] theorem names_of_text
    {tx : Checked}
    {recipient : Str}
    (text : tx.recipient = .str recipient)
    (address : Str) :
    tx.names address = decide (recipient = address) := by
  rw [Bool.eq_iff_iff, names_iff, text, Json.str.injEq, decide_eq_true_iff]

/-- The recipient names no operation. -/
def isPayment : Bool :=
  !tx.names STAKE_SENTINEL && !tx.names UNSTAKE_SENTINEL && !tx.names SLASH_SENTINEL &&
    !tx.names VOTE_SENTINEL

/-- What a transaction adds to the stake of its sender. -/
def stakeChange : Int :=
  if tx.names STAKE_SENTINEL then tx.amount
  else if tx.names UNSTAKE_SENTINEL then -tx.amount
  else 0

/-- What it adds to the bonded coins of its sender: delayed withdrawals stay bonded. -/
def bondChange : Int :=
  if tx.names UNSTAKE_SENTINEL ∧ 0 < config.unbondingBlocks then 0 else tx.stakeChange

/-- What it hands over to its recipient. -/
def handedOver : Int := if tx.isPayment then tx.amount else 0

/-- The accounts that it opens or uses. -/
def Opens (validator address : Str) : Prop :=
  tx.sender = address ∨ validator = address ∨ tx.isPayment ∧ tx.names address ∨
    tx.names SLASH_SENTINEL ∧ config.treasuryAddress = some address

section

variable [Primitives]

/-- Whom a slash convicts, and of what. -/
def convicts : Option (Str × Offense) :=
  if tx.names SLASH_SENTINEL then (slashOffense tx.evidence).toOption else none

/-- The link that a vote is for. -/
def casts : Option Link :=
  if tx.names VOTE_SENTINEL then (voteLink tx.evidence).toOption else none

end

end Checked

/-! ## Books -/

/-- Three amounts for every address. -/
@[ext] structure Books where
  /-- The active stake. -/
  staked : Str → Int
  /-- The stake and what is still unbonding. -/
  bonded : Str → Int
  /-- What is bonded and the liquid balance. -/
  held : Str → Int

namespace Books

/-- The books of a ledger. -/
def of (ledger : LedgerState) : Books where
  staked address := ledger.stakes.getD address 0
  bonded := ledger.bondedOf
  held := ledger.holding

/-- Book what a transaction moves, but for what a slash confiscates. -/
def move (config : Config) (validator : Str) (books : Books) (tx : Checked) : Books where
  staked address := books.staked address + if tx.sender = address then tx.stakeChange else 0
  bonded address :=
    books.bonded address + if tx.sender = address then tx.bondChange config else 0
  held address :=
    books.held address + (if tx.sender = address then -(tx.handedOver + tx.fee) else 0) +
      (if tx.names address then tx.handedOver else 0) +
      (if validator = address then tx.fee else 0)

/-- Book a confiscation. -/
def confiscate (books : Books) (treasury reporter offender : Str) : Books where
  staked address := if offender = address then 0 else books.staked address
  bonded address := if offender = address then 0 else books.bonded address
  held address :=
    books.held address - (if offender = address then books.bonded offender else 0) +
      (if beneficiary treasury reporter offender = address then
        reporterShare (books.bonded offender) else 0) +
      (if treasury = address then
        books.bonded offender - reporterShare (books.bonded offender) else 0)

/-- Book a transaction. -/
def after [Primitives] (config : Config) (validator : Str) (books : Books) (tx : Checked) :
    Books :=
  let moved := books.move config validator tx
  match config.treasuryAddress, tx.convicts with
  | some treasury, some (offender, _) => moved.confiscate treasury tx.sender offender
  | _, _ => moved

/-- The books after some transactions. -/
def along
    [Primitives]
    (config : Config)
    (validator : Str)
    (start : State)
    (transactions : List Checked) : Books :=
  transactions.foldl (after config validator) (of start.ledger)

end Books

variable [Primitives] {config : Config} {block : Mindees.Block} {justifiedParent : Finset Str}
  {state after : State} {tx : Checked}

/-! ## The ways to apply a transaction -/

/-- The ledger after a payment to a recipient that is no text. -/
def sentAway (block : Mindees.Block) (ledger : LedgerState) (tx : Checked) : LedgerState :=
  { ledger with
    balances :=
      credit (credit ledger.balances tx.sender (-(tx.amount + tx.fee))) block.validator tx.fee
    nonces := ledger.nonces.set tx.sender (tx.nonce + 1) }

/-- A transaction is applied in one of three ways. -/
inductive Applied
    (config : Config)
    (block : Mindees.Block)
    (justifiedParent : Finset Str)
    (state : State)
    (tx : Checked) : State → Prop
  | text {recipient : Str} {ledger : LedgerState} :
      tx.recipient = .str recipient → recipient ≠ SLASH_SENTINEL →
      Mindees.Applied config block justifiedParent state.ledger (tx.named recipient) ledger →
      Applied config block justifiedParent state tx { state with ledger }
  | slash {treasury offender : Str} {offense : Offense} {paid : LedgerState} :
      tx.recipient = .str SLASH_SENTINEL → tx.evidence ≠ [] →
      config.treasuryAddress = some treasury →
      slashOffense tx.evidence = .ok (offender, offense) → offense ∉ state.slashed →
      tx.fee ≤ state.ledger.balances.getD tx.sender 0 →
      payFee block state.ledger (tx.named SLASH_SENTINEL) = .ok paid →
      Applied config block justifiedParent state tx
        { state with
          ledger := punished treasury tx.sender offender paid
          slashed := insert offense state.slashed }
  | away {key : Json.HashKey} :
      (∀ recipient, tx.recipient ≠ .str recipient) →
      tx.amount + tx.fee ≤ state.ledger.balances.getD tx.sender 0 →
      tx.recipient.hashKey = some key →
      enforceVesting config tx.sender block.index (sentAway block state.ledger tx) = .ok () →
      Applied config block justifiedParent state tx
        { state with
          ledger := sentAway block state.ledger tx
          otherBalances := state.otherBalances.set key (state.otherBalances.getD key 0 + tx.amount)
          otherNonces := state.otherNonces.setDefault key 0 }

theorem applySlash_iff :
    applySlash config block state tx = .ok after ↔
      tx.evidence ≠ [] ∧ ∃ treasury, config.treasuryAddress = some treasury ∧
        ∃ offender offense, slashOffense tx.evidence = .ok (offender, offense) ∧
          offense ∉ state.slashed ∧ tx.fee ≤ state.ledger.balances.getD tx.sender 0 ∧
          ∃ paid, payFee block state.ledger (tx.named SLASH_SENTINEL) = .ok paid ∧
            { state with
              ledger := punished treasury tx.sender offender paid
              slashed := insert offense state.slashed } = after := by
  simp only [applySlash, rejectIf, bind_eq_ok, raiseIf_eq_ok, pure_eq_ok, not_lt,
    require_eq_ok, exists_and_left, exists_const, Prod.exists]
  rfl

omit [Primitives] in
theorem applyPayment_iff :
    applyPayment block state tx = .ok after ↔
      tx.amount + tx.fee ≤ state.ledger.balances.getD tx.sender 0 ∧
        ∃ key, tx.recipient.hashKey = some key ∧
          { state with
            ledger := sentAway block state.ledger tx
            otherBalances :=
              state.otherBalances.set key (state.otherBalances.getD key 0 + tx.amount)
            otherNonces := state.otherNonces.setDefault key 0 } = after := by
  simp only [applyPayment, rejectIf, bind_eq_ok, raiseIf_eq_ok, pure_eq_ok, not_lt,
    require_eq_ok, exists_unit]
  rfl

theorem applyTx_iff_applied :
    applyTx config block justifiedParent state tx = .ok after ↔
      Applied config block justifiedParent state tx after := by
  unfold applyTx
  constructor
  · intro applied
    split at applied
    · rename_i recipient text
      split_ifs at applied with slash
      · subst slash
        obtain ⟨present, treasury, known, offender, offense, proven, new, funded, paid, charged,
          rfl⟩ := applySlash_iff.mp applied
        exact .slash text present known proven new funded charged
      · simp only [bind_eq_ok, pure_eq_ok] at applied
        obtain ⟨ledger, moved, rfl⟩ := applied
        exact .text text slash ((Mindees.applyTx_eq_ok _ _ _ _ _ _).mp moved)
    · rename_i other
      simp only [bind_eq_ok, pure_eq_ok] at applied
      obtain ⟨paid, moved, _, kept, rfl⟩ := applied
      obtain ⟨funded, key, hashable, rfl⟩ := applyPayment_iff.mp moved
      exact .away other funded hashable kept
  · intro applied
    cases applied with
    | text text notSlash moved =>
        rw [text]
        simp only [if_neg notSlash, (Mindees.applyTx_eq_ok _ _ _ _ _ _).mpr moved]
        rfl
    | slash text present known proven new funded charged =>
        rw [text]
        simp only [if_true]
        exact applySlash_iff.mpr
          ⟨present, _, known, _, _, proven, new, funded, _, charged, rfl⟩
    | away other funded hashable kept =>
        split
        · rename_i recipient text
          exact absurd text (other recipient)
        · simp only [applyPayment_iff.mpr ⟨funded, _, hashable, rfl⟩, bind_eq_ok, pure_eq_ok]
          exact ⟨_, rfl, _, kept, rfl⟩

theorem applyNext_iff
    {progress result : List Str × State}
    {raw : Transaction} :
    applyNext config block justifiedParent progress raw = .ok result ↔
      raw.txid ∉ progress.1 ∧ ∃ checked, raw.isValid = .ok (some checked) ∧
        progress.2.ledger.nonces.getD checked.sender 0 = checked.nonce ∧
        result.1 = raw.txid :: progress.1 ∧
        applyTx config block justifiedParent progress.2 checked = .ok result.2 := by
  obtain ⟨seen, state⟩ := progress
  obtain ⟨seenAfter, after⟩ := result
  simp only [applyNext, rejectIf, bind_eq_ok, raiseIf_eq_ok, require_eq_ok, pure_eq_ok,
    Prod.mk.injEq, exists_unit, not_not, ne_eq]
  constructor
  · rintro ⟨fresh, _, valid, checked, rfl, nonce, state', applied, rfl, rfl⟩
    exact ⟨fresh, checked, valid, nonce, rfl, applied⟩
  · rintro ⟨fresh, checked, valid, nonce, rfl, applied⟩
    exact ⟨fresh, _, valid, checked, rfl, nonce, after, applied, rfl, rfl⟩

/-! ## What every way does -/

namespace Checked

variable {tx : Checked} {recipient : Str}

omit [Primitives] in
theorem isPayment_named
    (text : tx.recipient = .str recipient) :
    tx.isPayment = true ↔ IsPayment (tx.named recipient) := by
  simp [isPayment, names_of_text text, IsPayment, named, and_assoc]

omit [Primitives] in
theorem handedOver_named
    (text : tx.recipient = .str recipient) :
    Mindees.handedOver (tx.named recipient) = tx.handedOver := by
  simp only [Mindees.handedOver, handedOver, isPayment_named text]
  rfl

omit [Primitives] in
theorem uses_named
    (text : tx.recipient = .str recipient)
    (notSlash : recipient ≠ SLASH_SENTINEL)
    (config : Config)
    (block : Mindees.Block)
    (address : Str) :
    Uses block (tx.named recipient) address ↔ tx.Opens config block.validator address := by
  simp [Uses, Opens, isPayment_named text, names_of_text text, notSlash, named]

theorem casts_named
    (text : tx.recipient = .str recipient) :
    votedLink (tx.named recipient) = tx.casts := by
  simp only [votedLink, casts, names_of_text text, decide_eq_true_eq]
  rfl

theorem convicts_eq_none
    (text : tx.recipient = .str recipient)
    (notSlash : recipient ≠ SLASH_SENTINEL) :
    tx.convicts = none := by
  simp [convicts, names_of_text text, notSlash]

theorem convicts_eq_some
    {offender : Str}
    {offense : Offense}
    (slash : tx.recipient = .str SLASH_SENTINEL)
    (proven : slashOffense tx.evidence = .ok (offender, offense)) :
    tx.convicts = some (offender, offense) := by
  rw [convicts, if_pos ((tx.names_iff _).mpr slash), proven]
  rfl

omit [Primitives] in
theorem names_eq_false
    (other : ∀ recipient, tx.recipient ≠ .str recipient)
    (address : Str) :
    tx.names address = false := by
  rw [← Bool.not_eq_true, names_iff]
  exact other address

theorem convicts_of_away
    (other : ∀ recipient, tx.recipient ≠ .str recipient) :
    tx.convicts = none := by
  rw [convicts, names_eq_false other]
  rfl

end Checked

omit [Primitives] in
theorem getD_stakes_of_moved
    {ledger : LedgerState}
    {recipient : Str}
    (text : tx.recipient = .str recipient)
    (moved : Moved config block state.ledger (tx.named recipient) ledger)
    (address : Str) :
    ledger.stakes.getD address 0 =
      state.ledger.stakes.getD address 0 +
        if tx.sender = address then tx.stakeChange else 0 := by
  simp only [Checked.stakeChange, Checked.names_of_text text, decide_eq_true_eq]
  exact moved.getD_stakes address

omit [Primitives] in
theorem unbondingOf_of_moved
    {ledger : LedgerState}
    {recipient : Str}
    (text : tx.recipient = .str recipient)
    (moved : Moved config block state.ledger (tx.named recipient) ledger)
    (address : Str) :
    ledger.unbondingOf address =
      state.ledger.unbondingOf address +
        if tx.sender = address then tx.bondChange config - tx.stakeChange else 0 := by
  have queued : ledger.unbondingOf address = state.ledger.unbondingOf address +
      if tx.sender = address ∧ recipient = UNSTAKE_SENTINEL ∧ 0 < config.unbondingBlocks then
        tx.amount else 0 := moved.unbondingOf address
  have apart : UNSTAKE_SENTINEL ≠ STAKE_SENTINEL := by decide
  rw [queued]
  simp only [Checked.bondChange, Checked.stakeChange, Checked.names_of_text text,
    decide_eq_true_eq]
  by_cases same : tx.sender = address
  · by_cases unstake : recipient = UNSTAKE_SENTINEL
    · subst unstake
      simp only [same, true_and, if_neg apart, if_true]
      split_ifs <;> omega
    · simp [unstake]
  · simp [same]

namespace Books

theorem after_of_innocent
    (innocent : tx.convicts = none)
    (validator : Str)
    (books : Books) :
    books.after config validator tx = books.move config validator tx := by
  unfold after
  rw [innocent]
  cases config.treasuryAddress <;> rfl

theorem after_of_convicts
    {treasury offender : Str}
    {offense : Offense}
    (known : config.treasuryAddress = some treasury)
    (convicted : tx.convicts = some (offender, offense))
    (validator : Str)
    (books : Books) :
    books.after config validator tx =
      (books.move config validator tx).confiscate treasury tx.sender offender := by
  unfold after
  rw [known, convicted]

omit [Primitives] in
theorem of_moved
    {ledger : LedgerState}
    {recipient : Str}
    (text : tx.recipient = .str recipient)
    (moved : Moved config block state.ledger (tx.named recipient) ledger) :
    of ledger = (of state.ledger).move config block.validator tx := by
  ext address
  · exact getD_stakes_of_moved text moved address
  · have staked := getD_stakes_of_moved text moved address
    have unbonding := unbondingOf_of_moved text moved address
    simp only [of, move, LedgerState.bondedOf, staked, unbonding]
    split_ifs <;> omega
  · have holding : ledger.holding address = state.ledger.holding address +
        ((if tx.sender = address then -(tx.handedOver + tx.fee) else 0) +
          (if recipient = address then tx.handedOver else 0) +
          (if block.validator = address then tx.fee else 0)) := by
      rw [← Checked.handedOver_named text]
      exact moved.holding address
    simp only [of, move, Checked.names_of_text text, decide_eq_true_eq, holding]
    omega

omit [Primitives] in
/-- A fee moves no stake. -/
theorem of_payFee
    {paid : LedgerState}
    (slash : tx.recipient = .str SLASH_SENTINEL)
    (charged : payFee block state.ledger (tx.named SLASH_SENTINEL) = .ok paid) :
    of paid = (of state.ledger).move config block.validator tx := by
  have holding : ∀ address, paid.holding address = state.ledger.holding address +
      ((if tx.sender = address then -(0 + tx.fee) else 0) +
        (if SLASH_SENTINEL = address then 0 else 0) +
        (if block.validator = address then tx.fee else 0)) := payFee_holding charged
  have stake : SLASH_SENTINEL ≠ STAKE_SENTINEL := by decide
  have unstake : SLASH_SENTINEL ≠ UNSTAKE_SENTINEL := by decide
  have handed : tx.handedOver = 0 := by
    simp [Checked.handedOver, Checked.isPayment, Checked.names_of_text slash]
  ext address
  · obtain ⟨_, rfl⟩ := (payFee_eq_ok _ _ _ _).mp charged
    simp [of, move, Checked.stakeChange, Checked.names_of_text slash, stake, unstake]
  · obtain ⟨_, rfl⟩ := (payFee_eq_ok _ _ _ _).mp charged
    simp [of, move, Checked.bondChange, Checked.stakeChange, Checked.names_of_text slash, stake,
      unstake, LedgerState.bondedOf, LedgerState.unbondingOf]
  · simp only [of, move, holding, handed, ite_self]
    omega

omit [Primitives] in
theorem of_punished
    (treasury reporter offender : Str)
    (paid : LedgerState) :
    of (punished treasury reporter offender paid) =
      (of paid).confiscate treasury reporter offender := by
  ext address
  · simp only [of, punished, Mindees.confiscate, confiscate, Dict.getD_erase]
  · simp only [of, punished, Mindees.confiscate, confiscate, LedgerState.bondedOf,
      LedgerState.unbondingOf, Dict.getD_erase]
    split_ifs
    · rw [queueTotal_nil, add_zero]
    · rfl
  · exact holding_punished treasury reporter offender paid address

omit [Primitives] in
theorem of_sentAway
    (other : ∀ recipient, tx.recipient ≠ .str recipient) :
    of (sentAway block state.ledger tx) =
      (of state.ledger).move config block.validator tx := by
  have unnamed := Checked.names_eq_false other
  ext address
  · simp [of, move, sentAway, Checked.stakeChange, unnamed]
  · simp [of, move, sentAway, Checked.bondChange, Checked.stakeChange, unnamed,
      LedgerState.bondedOf, LedgerState.unbondingOf]
  · have handed : tx.handedOver = tx.amount := by
      simp [Checked.handedOver, Checked.isPayment, unnamed]
    simp only [of, move, sentAway, unnamed, handed, LedgerState.holding, LedgerState.unbondingOf,
      getD_credit, Bool.false_eq_true, if_false]
    omega

end Books

namespace Applied

/-- The chain keeps the books. -/
theorem books
    (applied : Applied config block justifiedParent state tx after) :
    Books.of after.ledger = (Books.of state.ledger).after config block.validator tx := by
  cases applied with
  | text text notSlash moved =>
      rw [Books.after_of_innocent (Checked.convicts_eq_none text notSlash)]
      exact Books.of_moved text (moved.moved notSlash)
  | slash slash _ known proven _ _ charged =>
      rw [Books.after_of_convicts known (Checked.convicts_eq_some slash proven),
        ← Books.of_payFee slash charged]
      exact Books.of_punished _ _ _ _
  | away other _ _ _ =>
      rw [Books.after_of_innocent (Checked.convicts_of_away other)]
      exact Books.of_sentAway other

/-- Only the nonce of the sender moves. -/
theorem getD_nonces
    (applied : Applied config block justifiedParent state tx after)
    (address : Str) :
    after.ledger.nonces.getD address 0 =
      if tx.sender = address then tx.nonce + 1 else state.ledger.nonces.getD address 0 := by
  cases applied with
  | text _ _ moved => exact moved.getD_nonces address
  | slash _ _ _ _ _ _ charged =>
      obtain ⟨_, rfl⟩ := (payFee_eq_ok _ _ _ _).mp charged
      exact Dict.getD_set ..
  | away _ _ _ _ => exact Dict.getD_set ..

/-- Accounts are opened by their use. -/
theorem accounts
    (applied : Applied config block justifiedParent state tx after)
    (address : Str) :
    after.ledger.balances.contains address = true ↔
      state.ledger.balances.contains address = true ∨
        tx.Opens config block.validator address := by
  cases applied with
  | text text notSlash moved =>
      rw [(moved.moved notSlash).accounts, Checked.uses_named text notSlash]
  | @slash treasury offender offense paid slash _ known _ _ _ charged =>
      obtain ⟨present, rfl⟩ := (payFee_eq_ok _ _ _ _).mp charged
      have reward : beneficiary treasury tx.sender offender = tx.sender ∨
          beneficiary treasury tx.sender offender = treasury := by
        unfold beneficiary
        split_ifs <;> simp
      have plain : tx.isPayment = false := by
        simp [Checked.isPayment, Checked.names_of_text slash]
      simp only [punished, redistribute, contains_credit, Checked.Opens, plain, known,
        Checked.names_of_text slash, Bool.false_eq_true, false_and, false_or, decide_true, true_and,
        Option.some.injEq]
      change ((((state.ledger.balances.contains address = true ∨ tx.sender = address) ∨
        block.validator = address) ∨ beneficiary treasury tx.sender offender = address) ∨
          treasury = address) ↔ _
      rcases reward with same | same <;> rw [same] <;> tauto
  | away other _ _ _ =>
      have unnamed := Checked.names_eq_false other
      simp [sentAway, contains_credit, Checked.Opens, unnamed, or_assoc]

/-- Only slashes put offenses on record. -/
theorem mem_slashed
    (applied : Applied config block justifiedParent state tx after)
    (offense : Offense) :
    offense ∈ after.slashed ↔
      offense ∈ state.slashed ∨ tx.convicts.map Prod.snd = some offense := by
  cases applied with
  | text text notSlash moved =>
      simp [Checked.convicts_eq_none text notSlash]
  | slash slash _ _ proven _ _ _ =>
      simp [Checked.convicts_eq_some slash proven, or_comm, eq_comm]
  | away other _ _ _ =>
      simp [Checked.convicts_of_away other]

/-- Only slashes convict. -/
theorem mem_slashedAddrs
    (applied : Applied config block justifiedParent state tx after)
    (address : Str) :
    address ∈ after.ledger.slashedAddrs ↔
      address ∈ state.ledger.slashedAddrs ∨ tx.convicts.map Prod.fst = some address := by
  cases applied with
  | text text notSlash moved =>
      rw [Checked.convicts_eq_none text notSlash, moved.slashedAddrs_eq notSlash]
      simp
  | slash slash _ _ proven _ _ charged =>
      obtain ⟨_, rfl⟩ := (payFee_eq_ok _ _ _ _).mp charged
      simp [Checked.convicts_eq_some slash proven, punished, Mindees.confiscate, or_comm, eq_comm]
  | away other _ _ _ =>
      simp [Checked.convicts_of_away other, sentAway]

/-- A vote is on record from the transaction on that casts it. -/
theorem seenTarget_iff
    (applied : Applied config block justifiedParent state tx after)
    (address : Str)
    (height : Int)
    (edge : Str × Str) :
    after.ledger.ffgSeenTarget.get? (address, height) = some edge ↔
      state.ledger.ffgSeenTarget.get? (address, height) = some edge ∨
        tx.sender = address ∧ ∃ link, tx.casts = some link ∧ link.targetHeight = height ∧
          link.edge = edge := by
  cases applied with
  | text text notSlash moved =>
      have seen := moved.seenTarget address height
      rw [seenAfter, Checked.casts_named text] at seen
      rw [seen]
      change (if tx.sender = address then _ else _) = some edge ↔ _
      by_cases mine : tx.sender = address
      · rw [if_pos mine]
        cases cast : tx.casts with
        | none => simp
        | some link =>
            have voted := (Checked.casts_named text).trans cast
            have unseen : state.ledger.ffgSeenTarget.getD (tx.sender, link.targetHeight) link.edge =
                link.edge := (moved.checkpoints_of_vote voted).1.unseen
            rw [mine, Dict.getD] at unseen
            dsimp only
            split_ifs with here
            · rw [here] at unseen
              cases found : state.ledger.ffgSeenTarget.get? (address, height) with
              | none => simp [mine, here]
              | some old =>
                  rw [found, Option.getD_some] at unseen
                  simp [mine, here, unseen]
            · simp [here]
      · rw [if_neg mine]
        simp [mine]
  | slash slash _ _ _ _ _ charged =>
      obtain ⟨_, rfl⟩ := (payFee_eq_ok _ _ _ _).mp charged
      have noVote : SLASH_SENTINEL ≠ VOTE_SENTINEL := by decide
      simp [Checked.casts, Checked.names_of_text slash, noVote, punished, Mindees.confiscate]
  | away other _ _ _ =>
      simp [Checked.casts, Checked.names_eq_false other, sentAway]

/-- The snapshots stay, and their heights. -/
theorem snapshots
    (applied : Applied config block justifiedParent state tx after) :
    after.ledger.ffgStake = state.ledger.ffgStake ∧
      after.ledger.ffgHeight = state.ledger.ffgHeight := by
  cases applied with
  | text _ notSlash moved =>
      have framed := moved.framed notSlash ⟨rfl, rfl, rfl⟩
      exact ⟨framed.stake, framed.height⟩
  | slash _ _ _ _ _ _ charged =>
      obtain ⟨_, rfl⟩ := (payFee_eq_ok _ _ _ _).mp charged
      exact ⟨rfl, rfl⟩
  | away _ _ _ _ => exact ⟨rfl, rfl⟩

/-- The sum of all coins stays. -/
theorem totalSupply
    (applied : Applied config block justifiedParent state tx after) :
    after.totalSupply = state.totalSupply := by
  cases applied with
  | text _ _ moved => exact congrArg (· + _) moved.totalSupply
  | slash _ _ _ _ _ _ charged =>
      exact congrArg (· + _) ((totalSupply_punished _ _ _ _).trans (payFee_totalSupply charged))
  | @away key _ _ _ _ =>
      have received := Dict.sumBy_set (fun _ amount => amount) state.otherBalances key
        (state.otherBalances.getD key 0 + tx.amount)
      have held : state.otherBalances.getD key 0 =
          state.otherBalances.quantityAt (fun _ amount => amount) key := by
        rw [Dict.getD, Dict.quantityAt]
        cases state.otherBalances.get? key <;> rfl
      rw [← held] at received
      simp only [State.totalSupply, sentAway, LedgerState.totalSupply, total_credit, received]
      omega

end Applied

/-! ## Transactions that are well formed -/

namespace Checked

/-- What `is_valid` makes sure of. -/
structure WellFormed (tx : Checked) : Prop where
  amount : 0 ≤ tx.amount
  fee : 0 ≤ tx.fee
  evidence : tx.recipient = .str SLASH_SENTINEL → tx.evidence ≠ []
  positive : tx.recipient ≠ .str SLASH_SENTINEL → tx.recipient ≠ .str VOTE_SENTINEL → 0 < tx.amount

theorem wellFormed_of_isValid
    {raw : Transaction}
    (valid : raw.isValid = .ok (some tx)) :
    tx.WellFormed := by
  obtain ⟨same, ⟨amount, fee⟩, evidence, positive⟩ := isValid_eq_ok valid
  rw [← same] at evidence positive
  exact ⟨amount, fee, evidence, positive⟩

omit [Primitives] in
theorem WellFormed.positive_named
    {recipient : Str}
    (formed : tx.WellFormed)
    (text : tx.recipient = .str recipient)
    (notSlash : recipient ≠ SLASH_SENTINEL)
    (notVote : recipient ≠ VOTE_SENTINEL) :
    0 < tx.amount := by
  refine formed.positive ?_ ?_
  · rw [text]
    exact fun same => notSlash (Json.str.inj same)
  · rw [text]
    exact fun same => notVote (Json.str.inj same)

end Checked

namespace Applied

theorem healthy
    (applied : Applied config block justifiedParent state tx after)
    (healthy : Healthy block.index state.ledger)
    (formed : tx.WellFormed) :
    Healthy block.index after.ledger := by
  cases applied with
  | text text notSlash moved =>
      exact healthy.applied_of_units ⟨formed.amount, formed.fee⟩ (formed.positive_named text) moved
  | slash slash _ _ _ _ funded charged =>
      exact (healthy.payFee formed.fee funded charged).punished _ _ _
  | away _ funded _ _ =>
      have amount := formed.amount
      have fee := formed.fee
      refine ⟨fun address => ?_, healthy.stakes, healthy.queues⟩
      have old := healthy.balances address
      simp only [sentAway, getD_credit]
      split_ifs with sender <;> (try subst sender) <;> omega

end Applied

/-! ## Books kept by a run -/

/-- A state that some transactions have led to, compared with the one they started
from. -/
structure Booked
    (config : Config)
    (validator : Str)
    (start : State)
    (earlier : List Checked)
    (state : State) : Prop where
  books : Books.of state.ledger = Books.along config validator start earlier
  accounts : ∀ address, state.ledger.balances.contains address = true ↔
    start.ledger.balances.contains address = true ∨
      ∃ other ∈ earlier, other.Opens config validator address
  slashed : ∀ offense, offense ∈ state.slashed ↔
    offense ∈ start.slashed ∨ ∃ other ∈ earlier, other.convicts.map Prod.snd = some offense
  convicted : ∀ address, address ∈ state.ledger.slashedAddrs ↔
    address ∈ start.ledger.slashedAddrs ∨
      ∃ other ∈ earlier, other.convicts.map Prod.fst = some address
  seen : ∀ address height edge,
    state.ledger.ffgSeenTarget.get? (address, height) = some edge ↔
      start.ledger.ffgSeenTarget.get? (address, height) = some edge ∨
        ∃ other ∈ earlier, other.sender = address ∧ ∃ link, other.casts = some link ∧
          link.targetHeight = height ∧ link.edge = edge
  stake : state.ledger.ffgStake = start.ledger.ffgStake
  height : state.ledger.ffgHeight = start.ledger.ffgHeight
  supply : state.totalSupply = start.totalSupply

namespace Booked

variable {validator : Str} {start : State} {earlier : List Checked}

theorem nil
    (config : Config)
    (validator : Str)
    (start : State) :
    Booked config validator start [] start := by
  refine ⟨rfl, ?_, ?_, ?_, ?_, rfl, rfl, rfl⟩ <;> simp

theorem concat
    (booked : Booked config block.validator start earlier state)
    (applied : Applied config block justifiedParent state tx after) :
    Booked config block.validator start (earlier ++ [tx]) after := by
  refine ⟨?_, fun address => ?_, fun offense => ?_, fun address => ?_,
    fun address height edge => ?_, ?_, ?_, applied.totalSupply.trans booked.supply⟩
  · rw [Books.along, List.foldl_concat, ← Books.along, ← booked.books]
    exact applied.books
  · simp only [applied.accounts, booked.accounts, List.mem_append, List.mem_singleton, or_and_right,
      exists_or, exists_eq_left, or_assoc]
  · simp only [applied.mem_slashed, booked.slashed, List.mem_append, List.mem_singleton,
      or_and_right, exists_or, exists_eq_left, or_assoc]
  · simp only [applied.mem_slashedAddrs, booked.convicted, List.mem_append, List.mem_singleton,
      or_and_right, exists_or, exists_eq_left, or_assoc]
  · simp only [applied.seenTarget_iff, booked.seen, List.mem_append, List.mem_singleton,
      or_and_right, exists_or, exists_eq_left, or_assoc]
  · exact applied.snapshots.1.trans booked.stake
  · exact applied.snapshots.2.trans booked.height

end Booked

end Untyped

end Mindees
