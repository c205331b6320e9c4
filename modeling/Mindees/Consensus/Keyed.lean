import Mindees.Consensus.Confluence

/-!
# Ledgers that only rules stop

On a ledger in which every staker has a balance and every checkpoint a height,
transactions other than slashes raise nothing but a `ValidationError`, and they
keep the ledger so.
-/

namespace Mindees

open Library

/-- Whatever is raised is caught by `except ValidationError`. -/
abbrev OnlyValidation {α : Type} (computation : Except Error α) : Prop :=
  Raises (fun error => error.isValidation = true) computation

@[simp] theorem isValidation_validation (message : String) :
    (Error.validation message).isValidation = true := rfl

@[simp] theorem isValidation_malformed (what : String) (key : Str) :
    (malformed what key).isValidation = true := rfl

/-- A lookup whose failure is not caught has to succeed. -/
theorem onlyValidation_require
    {α β : Type}
    {error : Error}
    (uncaught : error.isValidation = false)
    (value : Option α)
    (next : α → Except Error β) :
    OnlyValidation (require value error >>= next) ↔
      ∃ found, value = some found ∧ OnlyValidation (next found) := by
  cases value <;> simp [uncaught]

/-! ## The dictionaries -/

theorem onlyValidation_addItem (dict : Dict Str Int) (key : Str) (value : Int) :
    OnlyValidation (addItem dict key value) ↔ dict.contains key = true := by
  unfold addItem Dict.contains
  cases dict.get? key <;> simp [Error.isValidation]

theorem contains_credit_of_contains
    {dict : Dict Str Int}
    {address : Str}
    (inside : dict.contains address = true)
    (key : Str)
    (value : Int) :
    (credit dict key value).contains address = true :=
  (contains_credit dict key address value).mpr (.inl inside)

theorem contains_of_withdrawStake
    {stakes left : Dict Str Int}
    {sender address : Str}
    {amount : Int}
    (withdrawn : withdrawStake stakes sender amount = .ok left)
    (inside : left.contains address = true) :
    stakes.contains address = true := by
  obtain ⟨staker, _, rfl⟩ := (withdrawStake_eq_ok stakes left sender amount).mp withdrawn
  have credited : (credit stakes sender (-amount)).contains address = true := by
    split_ifs at inside
    · rw [Dict.contains_erase, Bool.and_eq_true] at inside
      exact inside.2
    · exact inside
  rcases (contains_credit stakes sender address (-amount)).mp credited with held | rfl
  · exact held
  · exact staker

theorem contains_matureUnbonding
    (height : Int)
    {state : LedgerState}
    {address : Str}
    (inside : state.balances.contains address = true) :
    (matureUnbonding height state).balances.contains address = true := by
  let held (progress : Dict Str Int × Dict Str (List Unbonding)) : Prop :=
    progress.1.contains address = true
  let heldHere (progress : Dict Str Int × List Unbonding) : Prop :=
    progress.1.contains address = true
  refine List.foldlRecOn state.unbonding.keys (matureAddress height) (motive := held) inside ?_
  intro progress before other _
  refine List.foldlRecOn (progress.2.getD other []) (matureEntry height other)
    (motive := heldHere) before ?_
  intro progress before entry _
  unfold matureEntry
  split
  · exact contains_credit_of_contains before other entry.amount
  · exact before

/-! ## Keyed ledgers -/

/-- Every address that has a stake, now or at a checkpoint, has a balance, and
every checkpoint has a height. -/
structure LedgerState.Keyed (state : LedgerState) : Prop where
  stakers : ∀ address, state.stakes.contains address = true →
    state.balances.contains address = true
  voters : ∀ hash snapshot, state.ffgStake.get? hash = some snapshot →
    ∀ address, snapshot.contains address = true → state.balances.contains address = true
  heights : ∀ hash, state.ffgStake.contains hash = true → state.ffgHeight.contains hash = true

section

variable {config : Config} {block : Block} {justifiedParent : Finset Str}
  {state after : LedgerState} {tx : Transaction}

/-- Balances are never deleted, so a ledger stays keyed when it gains no staker
without a balance. -/
theorem LedgerState.Keyed.grow
    (keyed : state.Keyed)
    (balances : ∀ address, state.balances.contains address = true →
      after.balances.contains address = true)
    (stakes : ∀ address, after.stakes.contains address = true →
      state.stakes.contains address = true ∨ after.balances.contains address = true)
    (stake : after.ffgStake = state.ffgStake)
    (height : after.ffgHeight = state.ffgHeight) :
    after.Keyed where
  stakers address staked :=
    (stakes address staked).elim (fun held => balances address (keyed.stakers address held)) id
  voters hash snapshot recorded address inside := by
    rw [stake] at recorded
    exact balances address (keyed.voters hash snapshot recorded address inside)
  heights hash recorded := by
    rw [stake] at recorded
    rw [height]
    exact keyed.heights hash recorded

/-- Maturing coins and a snapshot of the stakes keep a ledger keyed. -/
theorem LedgerState.Keyed.mature
    (keyed : state.Keyed)
    (height : Int) :
    (matureUnbonding height state).Keyed :=
  keyed.grow (fun _ => contains_matureUnbonding height) (fun _ => .inl) rfl rfl

theorem LedgerState.Keyed.snapshot
    (keyed : state.Keyed)
    (hash : Str)
    (height : Int) :
    { state with
      ffgStake := state.ffgStake.set hash state.stakes
      ffgHeight := state.ffgHeight.set hash height }.Keyed where
  stakers := keyed.stakers
  voters recorded snapshot found address inside := by
    rw [Dict.get?_set] at found
    split_ifs at found
    · cases found
      exact keyed.stakers address inside
    · exact keyed.voters recorded snapshot found address inside
  heights recorded known := by
    rw [contains_set_iff] at known ⊢
    exact known.imp (keyed.heights recorded) id

/-- Every initial stake comes out of a balance. -/
theorem contains_of_addInitialStake
    {allocations balances stakes : Dict Str Int}
    {entries : List (Str × Int)}
    (staked : entries.foldlM addInitialStake (allocations, Dict.empty) = .ok (balances, stakes))
    {address : Str}
    (inside : stakes.contains address = true) :
    balances.contains address = true := by
  let held (progress : Dict Str Int × Dict Str Int) : Prop :=
    ∀ address, progress.2.contains address = true → progress.1.contains address = true
  have all : held (balances, stakes) := by
    refine foldlM_invariant held ?_ ?_ staked
    · rintro ⟨key, amount⟩ _ ⟨before, bonded⟩ after holds stepped address inside
      simp only [addInitialStake, rejectIf, bind_eq_ok, pure_eq_ok, addItem_eq_ok] at stepped
      obtain ⟨_, _, _, _, _, ⟨_, rfl⟩, rfl⟩ := stepped
      rw [contains_credit] at inside ⊢
      exact inside.imp (holds address) id
    · intro address inside
      cases inside
  exact all address inside

theorem ProofOfStakeChain.keyed_init
    [Primitives]
    {args : GenesisArgs}
    {chain : ProofOfStakeChain}
    (built : init args = .ok chain) :
    chain.state.Keyed := by
  obtain ⟨_, balances, stakes, staked, _, _, _, state, _⟩ := (init_eq_ok args chain).mp built
  have held (address : Str) (inside : stakes.contains address = true) :
      (withTreasury args.treasuryAddress balances).contains address = true := by
    have before := contains_of_addInitialStake staked inside
    unfold withTreasury Dict.setDefault
    split
    · split
      · exact before
      · exact (contains_set_iff _ _ _ _).mpr (.inl before)
    · exact before
  rw [state]
  refine ⟨held, fun hash snapshot found address inside => ?_, fun hash known => ?_⟩
  · simp only [genesisState, Dict.get?_set, Dict.get?_empty, Option.ite_none_right_eq_some,
      Option.some.injEq] at found
    obtain ⟨_, rfl⟩ := found
    exact held address inside
  · simp only [genesisState, contains_set_iff] at known ⊢
    exact known.imp (fun inside => by cases inside) id

/-! ## What the transactions raise -/

theorem onlyValidation_enforceVesting (address : Str) (height : Int) :
    OnlyValidation (enforceVesting config address height state) := by
  unfold enforceVesting
  split <;> simp [rejectIf]

theorem onlyValidation_payFee :
    OnlyValidation (payFee block state tx) ↔ state.balances.contains tx.sender = true := by
  simp [payFee, onlyValidation_addItem]

theorem onlyValidation_applyStake
    (positive : 0 < tx.amount + tx.fee) :
    OnlyValidation (applyStake block state tx) := by
  simp only [applyStake, rejectIf, raises_bind, raises_raiseIf, raises_pure, onlyValidation_addItem,
    raiseIf_eq_ok]
  refine ⟨fun _ => rfl, fun _ funded => ⟨contains_of_funded ?_, fun _ _ => trivial⟩⟩
  omega

theorem onlyValidation_applyUnstake
    (keyed : state.Keyed)
    (positive : 0 < tx.amount) :
    OnlyValidation (applyUnstake config block state tx) := by
  simp only [applyUnstake, withdrawStake, rejectIf, raises_bind, raises_raiseIf, raises_pure,
    onlyValidation_addItem, raiseIf_eq_ok]
  refine ⟨fun _ => rfl, fun _ _ => ⟨fun _ => rfl, fun _ bonded => ?_⟩⟩
  have staker : state.stakes.contains tx.sender = true := contains_of_funded (by omega)
  exact ⟨keyed.stakers _ staker, fun _ _ =>
    ⟨⟨staker, fun _ _ => ⟨fun _ => rfl, fun _ _ => trivial⟩⟩, fun _ _ => trivial⟩⟩

theorem onlyValidation_checkVote
    (keyed : state.Keyed)
    (voter : Str)
    (link : Link) :
    OnlyValidation (checkVote config justifiedParent state voter link) := by
  have entry {ν : Type} (dict : Dict Str ν) (hash : Str)
      (known : dict.contains hash = true) : dict.get? hash ≠ none := by
    obtain ⟨found, known⟩ := (Dict.contains_iff dict hash).mp known
    rw [known]
    exact Option.some_ne_none found
  simp +contextual [checkVote, rejectIf, entry, keyed.heights]

/-- Somebody whose vote passes the checks has stake at the source, hence a balance. -/
theorem contains_of_checkVote
    {voter : Str}
    {link : Link}
    (keyed : state.Keyed)
    (checked : checkVote config justifiedParent state voter link = .ok ()) :
    state.balances.contains voter = true := by
  have staked := (checkedVote_of_checkVote checked).staked
  cases found : state.ffgStake.get? link.source with
  | none =>
      have empty : state.ffgStake.getD link.source Dict.empty = Dict.empty := by
        rw [Dict.getD, found, Option.getD_none]
      rw [empty, Dict.getD_empty] at staked
      exact absurd staked (lt_irrefl 0)
  | some snapshot =>
      rw [Dict.getD_eq_of_get? found] at staked
      exact keyed.voters link.source snapshot found voter (contains_of_funded staked)

theorem onlyValidation_rawLink (what : String) (fields : List (Str × Json)) :
    OnlyValidation (rawLink what fields) := by
  simp [rawLink]

variable [Primitives]

theorem onlyValidation_loadJson (evidence : Str) : OnlyValidation (loadJson evidence) := by
  unfold loadJson
  split <;> simp

theorem onlyValidation_voteLink (evidence : Str) : OnlyValidation (voteLink evidence) := by
  simp only [voteLink, raises_bind, onlyValidation_loadJson, onlyValidation_rawLink, true_and]
  intro _ _ raw _
  split <;> simp [rejectIf]

theorem onlyValidation_applyVote
    (keyed : state.Keyed) :
    OnlyValidation (applyVote config block justifiedParent state tx) := by
  simp only [applyVote, rejectIf, raises_bind, raises_raiseIf, raises_pure,
    onlyValidation_voteLink, onlyValidation_checkVote keyed, onlyValidation_payFee, true_and]
  exact fun link _ _ checked =>
    ⟨fun _ => rfl, fun _ _ => ⟨contains_of_checkVote keyed checked, fun _ _ => trivial⟩⟩

/-- Only a slash can fail otherwise than by a rule. -/
theorem onlyValidation_applyTx
    (keyed : state.Keyed)
    (units : 0 ≤ tx.amount ∧ 0 ≤ tx.fee)
    (positive : tx.recipient ≠ SLASH_SENTINEL → tx.recipient ≠ VOTE_SENTINEL → 0 < tx.amount)
    (notSlash : tx.recipient ≠ SLASH_SENTINEL) :
    OnlyValidation (applyTx config block justifiedParent state tx) := by
  unfold applyTx
  split_ifs with stake unstake vote
  · have spends := positive notSlash (by rw [stake]; decide)
    simp [onlyValidation_applyStake (show 0 < tx.amount + tx.fee by omega),
      onlyValidation_enforceVesting]
  · have spends := positive notSlash (by rw [unstake]; decide)
    simp [onlyValidation_applyUnstake keyed spends, onlyValidation_enforceVesting]
  · exact onlyValidation_applyVote keyed
  · simp [applyPayment, rejectIf, onlyValidation_enforceVesting]

theorem LedgerState.Keyed.applied
    (keyed : state.Keyed)
    (applied : Applied config block justifiedParent state tx after)
    (notSlash : tx.recipient ≠ SLASH_SENTINEL) :
    after.Keyed := by
  cases applied with
  | stake _ moved _ =>
      obtain ⟨_, payer, rfl⟩ := (applyStake_eq_ok block state after tx).mp moved
      refine keyed.grow (fun address inside => ?_) (fun address inside => ?_) rfl rfl
      · exact contains_credit_of_contains (contains_credit_of_contains inside _ _) _ _
      · rcases (contains_credit state.stakes tx.sender address tx.amount).mp inside with held | rfl
        · exact .inl held
        · exact .inr (contains_credit_of_contains (contains_credit_of_contains payer _ _) _ _)
  | unstake _ moved _ =>
      obtain ⟨_, _, _, stakes, withdrawn, rfl⟩ :=
        (applyUnstake_eq_ok config block state after tx).mp moved
      refine keyed.grow (fun address inside => contains_credit_of_contains ?_ _ _)
        (fun address inside => .inl (contains_of_withdrawStake withdrawn inside)) rfl rfl
      split_ifs
      · exact contains_credit_of_contains inside _ _
      · exact contains_credit_of_contains (contains_credit_of_contains inside _ _) _ _
  | slash named _ => exact absurd named notSlash
  | vote _ moved =>
      obtain ⟨link, _, _, _, paid, charged, rfl⟩ :=
        (applyVote_eq_ok config block justifiedParent state after tx).mp moved
      obtain ⟨_, rfl⟩ := (payFee_eq_ok block state paid tx).mp charged
      obtain ⟨_, _, frame⟩ := tallyLink_frame config (recordVote _ tx.sender link) link
      rw [frame]
      exact keyed.grow
        (fun _ inside => contains_credit_of_contains (contains_credit_of_contains inside _ _) _ _)
        (fun _ => .inl) rfl rfl
  | payment _ _ _ _ moved _ =>
      obtain ⟨_, rfl⟩ := (applyPayment_eq_ok block state after tx).mp moved
      exact keyed.grow
        (fun _ inside => contains_credit_of_contains
          (contains_credit_of_contains (contains_credit_of_contains inside _ _) _ _) _ _)
        (fun _ => .inl) rfl rfl

end

end Mindees
