import Mindees.Core.Codec
import Mindees.Consensus.SlashHistory
import Mindees.Consensus.Escapes

/-!
# Typed objects among the untyped ones

On objects whose fields have the declared types, the untyped validation commits
what the typed validation commits, to the same state.
-/

namespace Mindees

open Library

namespace Untyped

/-! ## Values -/

@[simp] theorem eq_str (left right : Str) :
    (Json.str left).eq (.str right) = decide (left = right) := by
  simp [Json.eq]

@[simp] theorem eq_int (left right : Int) :
    (Json.int left).eq (.int right) = decide (left = right) := by
  simp [Json.eq]

@[simp] theorem truthy_str (value : Str) : (Json.str value).truthy = decide (value ≠ []) := rfl

/-- What is checked of a transaction of the declared types. -/
def Checked.ofTyped (tx : Mindees.Transaction) : Checked where
  sender := tx.sender
  recipient := .str tx.recipient
  amount := tx.amount
  fee := tx.fee
  nonce := tx.nonce
  evidence := tx.evidence

theorem hexBytes_str (value : Str) : hexBytes (.str value) = Mindees.hexBytes value := rfl

/-! ## Decoding -/

section

variable {what : String} {fields : List (Str × Json)} {key : Str}

theorem field_of_stringField
    {value : Str}
    (found : stringField what fields key = .ok value) :
    Json.field fields key = some (.str value) := by
  unfold stringField at found
  split at found <;> cases found
  assumption

theorem field_of_intField
    {value : Int}
    (found : intField what fields key = .ok value) :
    Json.field fields key = some (.int value) := by
  unfold intField at found
  split at found <;> cases found
  assumption

theorem getD_of_stringFieldD
    {default value : Str}
    (found : stringFieldD fields key default = .ok value) :
    (Json.field fields key).getD (.str default) = .str value := by
  unfold stringFieldD at found
  split at found <;> cases found <;> simp [*]

theorem getD_of_intFieldD
    {default value : Int}
    (found : intFieldD fields key default = .ok value) :
    (Json.field fields key).getD (.int default) = .int value := by
  unfold intFieldD at found
  split at found <;> cases found <;> simp [*]

end

theorem decodeTx_of_typed
    {data : Json}
    {tx : Mindees.Transaction}
    (decoded : Mindees.decodeTx data = .ok tx) :
    decodeTx data = .ok (.ofTyped tx) := by
  cases data with
  | obj fields =>
      simp only [Mindees.decodeTx, bind_eq_ok, pure_eq_ok] at decoded
      obtain ⟨_, sender, _, recipient, _, amount, _, fee, _, nonce, _, publicKey, _, signature, _,
        evidence, rfl⟩ := decoded
      simp only [decodeTx, bind_eq_ok, require_eq_ok, pure_eq_ok]
      exact ⟨_, field_of_stringField sender, _, field_of_stringField recipient, _,
        field_of_intField amount, _, field_of_intField fee, _, field_of_intField nonce, _,
        field_of_stringField publicKey, _, field_of_stringField signature, _,
        field_of_stringField evidence, rfl⟩
  | _ => cases decoded

theorem mapM_decodeTx_of_typed
    {items : List Json}
    {transactions : List Mindees.Transaction}
    (decoded : items.mapM Mindees.decodeTx = .ok transactions) :
    items.mapM decodeTx = .ok (transactions.map .ofTyped) := by
  induction items generalizing transactions with
  | nil =>
      cases decoded
      rfl
  | cons item rest inductionHypothesis =>
      simp only [List.mapM_cons, bind_eq_ok, pure_eq_ok] at decoded ⊢
      obtain ⟨tx, first, others, remaining, rfl⟩ := decoded
      exact ⟨_, decodeTx_of_typed first, _, inductionHypothesis remaining, rfl⟩

variable [Primitives]

@[simp] theorem hash_ofTyped (block : Mindees.Block) :
    (Block.ofTyped block).hash = block.hash := rfl

theorem txids_ofTyped (transactions : List Mindees.Transaction) :
    (transactions.map Transaction.ofTyped).map Transaction.txid =
      transactions.map Mindees.Transaction.txid := by
  rw [List.map_map]
  rfl

theorem isValid_ofTyped
    {tx : Mindees.Transaction}
    (valid : tx.isValid = true) :
    (Transaction.ofTyped tx).isValid = .ok (some (.ofTyped tx)) := by
  unfold Mindees.Transaction.isValid at valid
  split_ifs at valid with units special small keys
  obtain ⟨amount, fee, nonce⟩ := units
  have shaped : (Transaction.ofTyped tx).shape =
      some { amount := tx.amount, fee := tx.fee, nonce := tx.nonce, evidence := tx.evidence } := by
    simp only [Transaction.shape, Transaction.ofTyped, Json.units, amount, fee, nonce, eq_str,
      truthy_str, if_true, Bool.or_eq_true, decide_eq_true_eq, decide_eq_false_iff_not, not_not,
      ne_eq]
    rw [if_neg special, if_neg small, if_neg keys]
  split at valid
  · rename_i publicKey signature readKey readSignature
    split_ifs at valid with owner
    have key : (Transaction.ofTyped tx).publicKey.fromHex = .ok (some publicKey) :=
      congrArg Except.ok readKey
    have signed : (Transaction.ofTyped tx).signature.fromHex = .ok (some signature) :=
      congrArg Except.ok readSignature
    have sender :
        (Transaction.ofTyped tx).sender.eq (.str (addressFromPublicKey publicKey)) = true :=
      (Json.eq_str_iff _ _).mpr (congrArg Json.str (not_not.mp owner).symm)
    simp only [Transaction.isValid, shaped, key, signed, sender, bind, Except.bind]
    have payload : (Transaction.ofTyped tx).signingPayload = tx.signingPayload := rfl
    rw [if_neg Bool.true_eq_false.mp, payload, if_pos valid, not_not.mp owner]
    rfl
  · cases valid

theorem postInit_ofTyped (block : Mindees.Block) :
    (Block.ofTyped block).postInit = .ofTyped block.postInit := by
  unfold Block.postInit Mindees.Block.postInit
  by_cases empty : block.merkleRoot = []
  · rw [if_neg (by simp [empty]), if_pos empty]
    simp only [Block.ofTyped, txids_ofTyped]
  · rw [if_pos (by simp [empty]), if_neg empty]

theorem decodeBlock_of_typed
    {data : Json}
    {block : Mindees.Block}
    (decoded : Mindees.decodeBlock data = .ok block) :
    decodeBlock data = .ok (.ofTyped block) := by
  unfold Mindees.decodeBlock at decoded
  split at decoded
  · split at decoded
    · rename_i fields items listed
      simp only [bind_eq_ok, pure_eq_ok] at decoded
      obtain ⟨_, index, _, previousHash, _, timestamp, _, transactions, _, validator, _, nonce, _,
        merkleRoot, _, proposerPubkey, _, validatorSig, rfl⟩ := decoded
      rw [← postInit_ofTyped]
      simp only [decodeBlock, listed, bind_eq_ok, require_eq_ok, pure_eq_ok]
      refine ⟨_, field_of_intField index, _, field_of_stringField previousHash, _,
        field_of_intField timestamp, _, mapM_decodeTx_of_typed transactions, _,
        field_of_stringField validator, _, field_of_stringField merkleRoot, ?_⟩
      rw [getD_of_intFieldD nonce, getD_of_stringFieldD proposerPubkey,
        getD_of_stringFieldD validatorSig]
      rfl
    · cases decoded
  · cases decoded

theorem verifyVoteFault_of_typed
    {txA txB : Mindees.Transaction}
    {fault : Str × Str}
    (verified : Mindees.verifyVoteFault txA txB = .ok fault) :
    verifyVoteFault (.ofTyped txA) (.ofTyped txB) = .ok fault := by
  simp only [Mindees.verifyVoteFault, rejectIf, bind_eq_ok, raiseIf_eq_ok, exists_unit, pure_eq_ok,
    not_or, not_not, Bool.not_eq_false, ne_eq] at verified
  obtain ⟨⟨validA, validB⟩, ⟨voteA, voteB⟩, voter, verified⟩ := verified
  simp only [verifyVoteFault, isValid_ofTyped validA, isValid_ofTyped validB, rejectIf, bind_eq_ok,
    raiseIf_eq_ok, exists_unit, pure_eq_ok, require_eq_ok, Except.ok.injEq, exists_eq_left',
    Option.some.injEq]
  refine ⟨?_, not_not.mpr voter, verified⟩
  simp [Checked.ofTyped, voteA, voteB]

theorem selfAuthenticating_of_typed
    {block : Mindees.Block}
    (authentic : Mindees.selfAuthenticating block = .ok ()) :
    selfAuthenticating (.ofTyped block) = .ok block.validator := by
  simp only [Mindees.selfAuthenticating, rejectIf, bind_eq_ok, raiseIf_eq_ok, exists_unit, not_or,
    not_not, Bool.not_eq_false, ne_eq, require_eq_ok] at authentic
  obtain ⟨present, publicKey, parsed, owner, message, hashed, signature, signed, verified⟩ :=
    authentic
  simp [selfAuthenticating, rejectIf, hexBytes_str, present, parsed, owner, hashed, signed,
    verified]
  simp [raiseIf]

theorem verifyEquivocation_of_typed
    {b1 b2 : Mindees.Block}
    {offender : Str}
    {height : Int}
    (verified : Mindees.verifyEquivocation b1 b2 = .ok (offender, height)) :
    verifyEquivocation (.ofTyped b1) (.ofTyped b2) = .ok (offender, .int height) := by
  simp only [Mindees.verifyEquivocation, rejectIf, bind_eq_ok, raiseIf_eq_ok, exists_unit,
    not_not, ne_eq, pure_eq_ok, Prod.mk.injEq] at verified
  obtain ⟨index, previous, validator, distinct, authentic, other, rfl, rfl⟩ := verified
  simp only [verifyEquivocation, rejectIf, bind_eq_ok, raiseIf_eq_ok, exists_unit, pure_eq_ok,
    selfAuthenticating_of_typed authentic, selfAuthenticating_of_typed other]
  simp [index, previous, validator, distinct]

theorem slashOffense_of_typed
    {evidence : Str}
    {offender : Str}
    {offense : Mindees.Offense}
    (convicted : Mindees.slashOffense evidence = .ok (offender, offense)) :
    slashOffense evidence = .ok (offender, .ofTyped offense) := by
  simp only [Mindees.slashOffense, bind_eq_ok, require_eq_ok] at convicted
  obtain ⟨data, loaded, a, foundA, convicted⟩ := convicted
  simp only [slashOffense, bind_eq_ok, require_eq_ok]
  refine ⟨data, loaded, a, foundA, ?_⟩
  split at convicted <;> rename_i kind
  · rw [if_pos kind]
    simp only [bind_eq_ok, require_eq_ok, pure_eq_ok, Prod.exists] at convicted
    obtain ⟨voteA, decodedA, b, foundB, voteB, decodedB, voter, offenseId, verified, same⟩ :=
      convicted
    cases same
    simp only [bind_eq_ok, require_eq_ok, pure_eq_ok, Prod.exists]
    exact ⟨_, decodeTx_of_typed decodedA, b, foundB, _, decodeTx_of_typed decodedB, _, _,
      verifyVoteFault_of_typed verified, rfl⟩
  · rw [if_neg kind]
    simp only [bind_eq_ok, require_eq_ok, pure_eq_ok, Prod.exists] at convicted
    obtain ⟨blockA, decodedA, b, foundB, blockB, decodedB, validator, height, verified, same⟩ :=
      convicted
    cases same
    simp only [bind_eq_ok, require_eq_ok, pure_eq_ok, Prod.exists]
    exact ⟨_, decodeBlock_of_typed decodedA, b, foundB, _, decodeBlock_of_typed decodedB, _, _,
      verifyEquivocation_of_typed verified, _, rfl, rfl⟩

omit [Primitives] in
theorem ofTyped_injective : Function.Injective Offense.ofTyped := by
  intro left right same
  cases left <;> cases right <;> simp [Offense.ofTyped] at same <;> simp [same]

/-- What a transaction reads of a block of the declared types. -/
def viewOf (block : Mindees.Block) : Mindees.Block where
  index := block.index
  previousHash := []
  timestamp := 0
  transactions := []
  validator := block.validator

section

variable {config : Config} {block : Mindees.Block} {justifiedParent : Finset Str}
  {state after : LedgerState} {tx : Mindees.Transaction}

theorem applySlash_of_typed
    (applied : Mindees.applySlash config block state tx = .ok after) :
    applySlash config (viewOf block) (.ofTyped state) (.ofTyped tx) = .ok (.ofTyped after) := by
  obtain ⟨present, treasury, known, offender, offense, convicted, new, funded, paid, charged,
    rfl⟩ := (applySlash_eq_ok config block state after tx).mp applied
  obtain ⟨payer, rfl⟩ := (payFee_eq_ok block state paid tx).mp charged
  have fresh : Offense.ofTyped offense ∉ (State.ofTyped state).slashed := by
    simpa [State.ofTyped, ofTyped_injective.eq_iff] using new
  simp only [applySlash, rejectIf, bind_eq_ok, raiseIf_eq_ok, require_eq_ok, exists_unit,
    pure_eq_ok, not_lt]
  refine ⟨present, treasury, known, _, slashOffense_of_typed convicted, fresh, funded, _,
    (payFee_eq_ok _ _ _ _).mpr ⟨payer, rfl⟩, ?_⟩
  rw [State.ofTyped, State.ofTyped, Finset.image_insert]
  rfl

omit [Primitives] in
theorem tallyLink_ofTyped (link : Link) :
    tallyLink config (State.ofTyped state).ledger link =
      (State.ofTyped (tallyLink config state link)).ledger := by
  by_cases reached : isSupermajority
      (votedStake (state.ffgStake.getD link.source Dict.empty)
        (state.ffgVotes.getD (link.source, link.target) ∅) state.slashedAddrs)
      (activeStake (state.ffgStake.getD link.source Dict.empty) state.slashedAddrs) = true
  · have untyped : tallyLink config (State.ofTyped state).ledger link = _ := if_pos reached
    have typed : tallyLink config state link = _ := if_pos reached
    rw [untyped, typed]
    rfl
  · have untyped : tallyLink config (State.ofTyped state).ledger link = _ := if_neg reached
    have typed : tallyLink config state link = _ := if_neg reached
    rw [untyped, typed]

/-- A transaction other than a slash reads nothing that the untyped chain keeps elsewhere. -/
theorem applyTx_frame
    (applied : Mindees.applyTx config block justifiedParent state tx = .ok after)
    (notSlash : tx.recipient ≠ SLASH_SENTINEL) :
    Mindees.applyTx config (viewOf block) justifiedParent (State.ofTyped state).ledger
      ((Checked.ofTyped tx).named tx.recipient) = .ok (State.ofTyped after).ledger := by
  rw [applyTx_eq_ok] at applied ⊢
  cases applied with
  | stake named moved vesting =>
      obtain ⟨funded, payer, rfl⟩ := (applyStake_eq_ok block state after tx).mp moved
      exact .stake named ((applyStake_eq_ok _ _ _ _).mpr ⟨funded, payer, rfl⟩) vesting
  | unstake named moved vesting =>
      obtain ⟨funded, bonded, payer, stakes, withdrawn, rfl⟩ :=
        (applyUnstake_eq_ok config block state after tx).mp moved
      exact .unstake named
        ((applyUnstake_eq_ok _ _ _ _ _).mpr ⟨funded, bonded, payer, stakes, withdrawn, rfl⟩) vesting
  | slash named _ => exact absurd named notSlash
  | vote named moved =>
      obtain ⟨link, parsed, checked, funded, paid, charged, rfl⟩ :=
        (applyVote_eq_ok config block justifiedParent state after tx).mp moved
      obtain ⟨payer, rfl⟩ := (payFee_eq_ok block state paid tx).mp charged
      rw [← tallyLink_ofTyped]
      exact .vote named ((applyVote_eq_ok _ _ _ _ _ _).mpr ⟨link, parsed, checked, funded, _,
        (payFee_eq_ok _ _ _ _).mpr ⟨payer, rfl⟩, rfl⟩)
  | payment notStake notUnstake _ notVote moved vesting =>
      obtain ⟨funded, rfl⟩ := (applyPayment_eq_ok block state after tx).mp moved
      exact .payment notStake notUnstake notSlash notVote
        ((applyPayment_eq_ok _ _ _ _).mpr ⟨funded, rfl⟩) vesting

theorem applyTx_of_typed
    (applied : Mindees.applyTx config block justifiedParent state tx = .ok after) :
    applyTx config (viewOf block) justifiedParent (.ofTyped state) (.ofTyped tx) =
      .ok (.ofTyped after) := by
  by_cases slash : tx.recipient = SLASH_SENTINEL
  · have moved := ((applyTx_eq_ok _ _ _ _ _ _).mp applied).of_slash slash
    rw [← applySlash_of_typed moved]
    exact if_pos slash
  · have moved := applyTx_frame applied slash
    have chosen : applyTx config (viewOf block) justifiedParent (.ofTyped state) (.ofTyped tx) =
        (do
          let ledger ← Mindees.applyTx config (viewOf block) justifiedParent
            (State.ofTyped state).ledger ((Checked.ofTyped tx).named tx.recipient)
          pure { State.ofTyped state with ledger }) := if_neg slash
    rw [chosen, moved]
    have offenses : (State.ofTyped state).slashed = (State.ofTyped after).slashed := by
      rw [State.ofTyped, State.ofTyped, ((applyTx_eq_ok _ _ _ _ _ _).mp applied).slashed_eq slash]
    simp only [bind, Except.bind, offenses]
    rfl

theorem applyNext_of_typed
    {seen next : List Str}
    (applied : Mindees.applyNext config block justifiedParent (seen, state) tx =
      .ok (next, after)) :
    applyNext config (viewOf block) justifiedParent (seen, .ofTyped state) (.ofTyped tx) =
      .ok (next, .ofTyped after) := by
  obtain ⟨new, valid, numbered, rfl, moved⟩ := (applyNext_eq_ok _ _ _ _ _ _).mp applied
  simp only [applyNext, rejectIf, bind_eq_ok, raiseIf_eq_ok, require_eq_ok, exists_unit, pure_eq_ok,
    not_not, isValid_ofTyped valid, Except.ok.injEq, exists_eq_left', Option.some.injEq]
  exact ⟨new, numbered, _, applyTx_of_typed moved, rfl⟩

theorem foldlM_applyNext_of_typed
    {transactions : List Mindees.Transaction}
    {seen next : List Str}
    (applied : transactions.foldlM (Mindees.applyNext config block justifiedParent) (seen, state) =
      .ok (next, after)) :
    (transactions.map Transaction.ofTyped).foldlM
      (applyNext config (viewOf block) justifiedParent) (seen, .ofTyped state) =
      .ok (next, .ofTyped after) := by
  induction transactions generalizing seen state with
  | nil =>
      cases applied
      rfl
  | cons tx rest inductionHypothesis =>
      rw [foldlM_cons_eq_ok] at applied
      obtain ⟨⟨middle, between⟩, first, others⟩ := applied
      rw [List.map_cons, foldlM_cons_eq_ok]
      exact ⟨_, applyNext_of_typed first, inductionHypothesis others⟩

end

/-! ## Blocks -/

theorem checkProposer_of_typed
    {stakes : Dict Str Int}
    {block : Mindees.Block}
    (checked : Mindees.checkProposer stakes block = .ok ()) :
    checkProposer stakes (.ofTyped block) = .ok (viewOf block) := by
  simp only [Mindees.checkProposer, elect, seed, rejectIf, bind_eq_ok, raiseIf_eq_ok, exists_unit,
    require_eq_ok, pure_eq_ok, not_or, not_not, Bool.not_eq_false, ne_eq] at checked
  obtain ⟨expected, ⟨drawn, ⟨parent, parsed, height, bytes, rfl⟩, elected⟩, validator,
    ⟨key, sign⟩, publicKey, read, owner, message, hashed, signature, signed, verified⟩ := checked
  have previous : (Block.ofTyped block).previousHash.fromHex = .ok (some parent) :=
    congrArg Except.ok parsed
  simp only [checkProposer, rejectIf, bind_eq_ok, raiseIf_eq_ok, exists_unit, require_eq_ok,
    pure_eq_ok]
  refine ⟨_, previous, parent, rfl, block.index, rfl, height, bytes, expected, elected, ?_, ?_,
    publicKey, read, ?_, message, hashed, signature, signed, ?_, ?_⟩
  · simp [validator]
  · simp [key, sign]
  · simp [owner]
  · simp [verified]
  · rw [← validator]
    rfl

theorem applyBlockPre_of_typed
    (config : Config)
    (block : Mindees.Block)
    (state : LedgerState) :
    applyBlockPre config block.hash block.index (.ofTyped state) =
      .ofTyped (Mindees.applyBlockPre config block state) := by
  by_cases boundary : block.index % config.epoch = 0
  · simp only [applyBlockPre, Mindees.applyBlockPre, snapshotCheckpoint, if_pos boundary]
    rfl
  · simp only [applyBlockPre, Mindees.applyBlockPre, snapshotCheckpoint, if_neg boundary]
    rfl

omit [Primitives] in
theorem totalSupply_ofTyped (state : LedgerState) :
    (State.ofTyped state).totalSupply = state.totalSupply := by
  simp [State.totalSupply, State.ofTyped, LedgerState.totalSupply]

/-- What the typed chain commits, the untyped chain commits. -/
theorem Chain.submitBlock_ofTyped
    {before after : ProofOfStakeChain}
    {block : Mindees.Block}
    (submitted : before.submitBlock block = .ok after) :
    (ofTyped before).submitBlock (.ofTyped block) = .ok (ofTyped after) := by
  simp only [ProofOfStakeChain.submitBlock, ProofOfStakeChain.apply, ProofOfStakeChain.applyChecked,
    checkSupply, applyTxs, rejectIf, bind_eq_ok, raiseIf_eq_ok, exists_unit, pure_eq_ok, not_not,
    ne_eq, Prod.exists] at submitted
  obtain ⟨_, ⟨_, ⟨previous, index, root, proposer, seen, state, ran, rfl⟩, supply, rfl⟩, rfl⟩ :=
    submitted
  have head : (ofTyped before).head = .ofTyped before.head := List.getLast_map _
  have applied : (ofTyped before).applyChecked (.ofTyped block) = .ok (.ofTyped state) := by
    rw [applyChecked_eq_ok]
    refine ⟨⟨?_, ⟨before.head.index + 1, ?_, ?_⟩, ?_⟩, viewOf block,
      checkProposer_of_typed proposer, seen, ?_⟩
    · rw [head]
      exact congrArg Json.str previous
    · rw [nextIndex, head]
      rfl
    · simp [index]
    · rw [Block.ofTyped_transactions, txids_ofTyped]
      exact congrArg Json.str root
    · have opened : applyBlockPre (ofTyped before).config block.hash block.index
          (ofTyped before).state =
            .ofTyped (Mindees.applyBlockPre before.config block before.state) :=
        applyBlockPre_of_typed before.config block before.state
      rw [progress, hash_ofTyped, show (viewOf block).index = block.index from rfl, opened]
      exact foldlM_applyNext_of_typed ran
  have kept : ¬(State.ofTyped state).totalSupply ≠ MAX_SUPPLY_UNITS := by
    rw [totalSupply_ofTyped]
    exact not_not.mpr supply
  simp only [submitBlock, applied, rejectIf, bind_eq_ok, raiseIf_eq_ok, exists_unit, pure_eq_ok,
    Except.ok.injEq, exists_eq_left']
  refine ⟨kept, ?_⟩
  simp [ofTyped]

/-- Every typed chain that is reached is among the untyped ones. -/
theorem Chain.Reachable.of_typed
    {args : GenesisArgs}
    {chain : ProofOfStakeChain}
    (reached : ProofOfStakeChain.Reachable args chain) :
    Reachable args (ofTyped chain) := by
  induction reached with
  | genesis built => exact .genesis built
  | block _ submitted reached => exact .block reached (Chain.submitBlock_ofTyped submitted)

/-- What an honest peer encodes is received as the block it is. -/
theorem Chain.receive_encodeBlock
    {before after : ProofOfStakeChain}
    {block : Mindees.Block}
    (submitted : before.submitBlock block.postInit = .ok after) :
    (ofTyped before).receive block.encodeBlock = .ok (ofTyped after) := by
  simp only [receive, bind_eq_ok]
  exact ⟨_, decodeBlock_of_typed (decodeBlock_encodeBlock block), submitBlock_ofTyped submitted⟩

end Untyped

end Mindees
