import Mindees.Consensus.Genesis

/-!
# What block validation raises

Neither the checks of a block nor its transactions raise the exception that fork
choice reserves for conflicting finality.  The rejections for a nonce, a
duplicate or missing funds come from the guards of a transaction only, not from
what it refers to.
-/

namespace Mindees

open Library

namespace Error

/-- Any exception but the stop for conflicting finality. -/
def Ordinary : Error → Prop
  | .conflictingFinality _ => False
  | _ => True

/-- A `ValidationError` whose message starts with given words. -/
def Opens (words : String) : Error → Prop
  | .validation message => words.toList <+: message.toList
  | _ => False

/-- The rejections of a transaction that is a copy, out of order or unfunded. -/
def Avoidable (error : Error) : Prop :=
  error.Opens "duplicate transaction" ∨ error.Opens "bad nonce" ∨
    error.Opens "insufficient funds" ∨ error.Opens "vote: insufficient funds"

/-- What is raised for other reasons. -/
def Plain (error : Error) : Prop := error.Ordinary ∧ ¬error.Avoidable

theorem Plain.ordinary
    {error : Error}
    (plain : error.Plain) :
    error.Ordinary :=
  plain.1

end Error

/-! ## Fields, elections and balances -/

theorem raises_stringField (what : String) (fields : List (Str × Json)) (key : Str) :
    Raises Error.Plain (stringField what fields key) := by
  unfold stringField
  split <;>
    simp [Error.Plain, Error.Ordinary, Error.Avoidable, Error.Opens, malformed, toString]

theorem raises_intField (what : String) (fields : List (Str × Json)) (key : Str) :
    Raises Error.Plain (intField what fields key) := by
  unfold intField
  split <;>
    simp [Error.Plain, Error.Ordinary, Error.Avoidable, Error.Opens, malformed, toString]

theorem raises_decodeTx (value : Json) : Raises Error.Plain (decodeTx value) := by
  unfold decodeTx
  split
  · simp [raises_stringField, raises_intField]
  · simp [Error.Plain, Error.Ordinary, Error.Avoidable, Error.Opens]

theorem raises_electValidator (stakes : Dict Str Int) (seed : Bytes) :
    Raises Error.Ordinary (electValidator stakes seed) := by
  unfold electValidator
  simp only [rejectIf, raises_bind, raises_raiseIf]
  refine ⟨fun _ => trivial, fun _ _ => ?_⟩
  split <;> simp [Error.Ordinary]

theorem raises_addItem (dict : Dict Str Int) (key : Str) (amount : Int) :
    Raises Error.Plain (addItem dict key amount) := by
  unfold addItem
  split <;> simp [Error.Plain, Error.Ordinary, Error.Avoidable, Error.Opens]

theorem raises_withdrawStake (stakes : Dict Str Int) (sender : Str) (amount : Int) :
    Raises Error.Plain (withdrawStake stakes sender amount) := by
  simp [withdrawStake, raises_addItem, rejectIf, Error.Plain, Error.Ordinary, Error.Avoidable,
    Error.Opens]

theorem raises_enforceVesting
    (config : Config)
    (address : Str)
    (height : Int)
    (state : LedgerState) :
    Raises Error.Plain (enforceVesting config address height state) := by
  unfold enforceVesting
  split <;>
    simp [rejectIf, Error.Plain, Error.Ordinary, Error.Avoidable, Error.Opens, toString]

theorem raises_payFee (block : Block) (state : LedgerState) (tx : Transaction) :
    Raises Error.Plain (payFee block state tx) := by
  simp [payFee, raises_addItem]

theorem raises_checkVote
    (config : Config)
    (justifiedParent : Finset Str)
    (state : LedgerState)
    (voter : Str)
    (link : Link) :
    Raises Error.Plain (checkVote config justifiedParent state voter link) := by
  simp [checkVote, rejectIf, Error.Plain, Error.Ordinary, Error.Avoidable, Error.Opens]

section

variable [Primitives]

theorem raises_decodeBlock (value : Json) : Raises Error.Plain (decodeBlock value) := by
  have optionalString : ∀ fields key default,
      Raises Error.Plain (stringFieldD fields key default) := by
    intro fields key default
    unfold stringFieldD
    split <;> simp [Error.Plain, Error.Ordinary, Error.Avoidable, Error.Opens]
  have optionalInt : ∀ fields key default,
      Raises Error.Plain (intFieldD fields key default) := by
    intro fields key default
    unfold intFieldD
    split <;> simp [Error.Plain, Error.Ordinary, Error.Avoidable, Error.Opens]
  unfold decodeBlock
  split
  · split
    · simp [raises_stringField, raises_intField, optionalString, optionalInt,
        Raises.mapM raises_decodeTx]
    · simp [Error.Plain, Error.Ordinary, Error.Avoidable, Error.Opens]
  · simp [Error.Plain, Error.Ordinary, Error.Avoidable, Error.Opens]

theorem raises_elect (stakes : Dict Str Int) (previousHash : Str) (index : Int) :
    Raises Error.Ordinary (elect stakes previousHash index) := by
  simp [elect, seed, toBytes8, raises_electValidator, Error.Ordinary]

theorem raises_checkProposer (stakes : Dict Str Int) (block : Block) :
    Raises Error.Ordinary (checkProposer stakes block) := by
  simp [checkProposer, hexBytes, rejectIf, raises_elect, Error.Ordinary]

theorem raises_loadJson (evidence : Str) : Raises Error.Plain (loadJson evidence) := by
  unfold loadJson
  split <;> simp [Error.Plain, Error.Ordinary, Error.Avoidable, Error.Opens]

theorem raises_voteLink (evidence : Str) : Raises Error.Plain (voteLink evidence) := by
  have types : (Error.validation "vote link fields have wrong types").Plain := by
    simp [Error.Plain, Error.Ordinary, Error.Avoidable, Error.Opens]
  unfold voteLink
  simp only [raises_bind, raises_loadJson, true_and]
  intro fields _
  refine ⟨?_, fun raw _ => ?_⟩
  · simp [rawLink, Error.Plain, Error.Ordinary, Error.Avoidable, Error.Opens, toString]
  · split <;> simp [rejectIf, types]

theorem raises_verifyVoteFault (txA txB : Transaction) :
    Raises Error.Plain (verifyVoteFault txA txB) := by
  have surround : ∀ left right, Raises Error.Plain (surrounds left right) := by
    intro left right
    simp [surrounds, jsonLt, Error.Plain, Error.Ordinary, Error.Avoidable, Error.Opens]
  simp [verifyVoteFault, isSurroundVote, surround, rejectIf, raises_loadJson, rawLink,
    Error.Plain, Error.Ordinary, Error.Avoidable, Error.Opens, toString]

theorem raises_verifyEquivocation (b1 b2 : Block) :
    Raises Error.Plain (verifyEquivocation b1 b2) := by
  simp [verifyEquivocation, selfAuthenticating, hexBytes, rejectIf, Error.Plain, Error.Ordinary,
    Error.Avoidable, Error.Opens]

theorem raises_slashOffense (evidence : Str) : Raises Error.Plain (slashOffense evidence) := by
  have missing : Error.keyError.Plain := by
    simp [Error.Plain, Error.Ordinary, Error.Avoidable, Error.Opens]
  simp [slashOffense, raises_loadJson, raises_decodeTx, raises_decodeBlock,
    raises_verifyVoteFault, raises_verifyEquivocation, missing]

/-! ## Transactions -/

variable (config : Config) (block : Block) (state : LedgerState) (tx : Transaction)

theorem raises_applyTx (justifiedParent : Finset Str) :
    Raises Error.Ordinary (applyTx config block justifiedParent state tx) := by
  have stake : Raises Error.Ordinary (applyStake block state tx) := by
    simp [applyStake, (raises_addItem _ _ _).mono fun _ => Error.Plain.ordinary, rejectIf,
      Error.Ordinary]
  have unstake : Raises Error.Ordinary (applyUnstake config block state tx) := by
    simp [applyUnstake, (raises_withdrawStake _ _ _).mono fun _ => Error.Plain.ordinary,
      (raises_addItem _ _ _).mono fun _ => Error.Plain.ordinary, rejectIf, Error.Ordinary]
  have slash : Raises Error.Ordinary (applySlash config block state tx) := by
    simp [applySlash, (raises_slashOffense _).mono fun _ => Error.Plain.ordinary,
      (raises_payFee _ _ _).mono fun _ => Error.Plain.ordinary, rejectIf, Error.Ordinary]
  have vote : Raises Error.Ordinary (applyVote config block justifiedParent state tx) := by
    simp [applyVote, (raises_checkVote _ _ _ _ _).mono fun _ => Error.Plain.ordinary,
      (raises_voteLink _).mono fun _ => Error.Plain.ordinary,
      (raises_payFee _ _ _).mono fun _ => Error.Plain.ordinary, rejectIf, Error.Ordinary]
  have payment : Raises Error.Ordinary (applyPayment block state tx) := by
    simp [applyPayment, rejectIf, Error.Ordinary]
  simp [applyTx, stake, unstake, slash, vote, payment,
    (raises_enforceVesting _ _ _ _).mono fun _ => Error.Plain.ordinary]

/-- Whatever submitting a block raises, it is not the stop for conflicting
finality. -/
theorem raises_submitBlock (chain : ProofOfStakeChain) :
    Raises Error.Ordinary (chain.submitBlock block) := by
  have next : ∀ progress tx, Raises Error.Ordinary
      (applyNext chain.config block chain.state.justified progress tx) := by
    intro progress tx
    simp [applyNext, raises_applyTx, rejectIf, Error.Ordinary]
  simp [ProofOfStakeChain.submitBlock, ProofOfStakeChain.apply, ProofOfStakeChain.applyChecked,
    applyTxs, checkSupply, raises_checkProposer, Raises.foldlM next, rejectIf, Error.Ordinary]

/-- Nor does the constructor of a chain raise it. -/
theorem raises_init (args : GenesisArgs) :
    Raises Error.Ordinary (ProofOfStakeChain.init args) := by
  have stakes : ∀ progress entry, Raises Error.Ordinary (addInitialStake progress entry) := by
    intro progress entry
    simp [addInitialStake, (raises_addItem _ _ _).mono fun _ => Error.Plain.ordinary, rejectIf,
      Error.Ordinary]
  have grants : ∀ balances stakes progress entry,
      Raises Error.Ordinary (checkGrant balances stakes progress entry) := by
    intro balances stakes progress entry
    simp [checkGrant, rejectIf, Error.Ordinary]
  simp [ProofOfStakeChain.init, checkAllocations, Raises.foldlM stakes,
    Raises.foldlM (grants _ _), rejectIf, Error.Ordinary]

end

end Mindees
