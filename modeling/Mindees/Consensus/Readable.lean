import Mindees.Consensus.Untyped
import Mindees.Consensus.Keyed

/-!
# What transactions of any JSON kind have to hold

Each function on the way to a committed transaction raises a `ValidationError`
at most, exactly when what it reads is of a kind it can work with.
-/

namespace Mindees

open Library

namespace Untyped

/-! ## Comparisons and texts -/

/-- The two height comparisons of a surround find an order where they are made. -/
def Ordered (outer inner : RawLink) : Prop :=
  outer.sh.lt inner.sh ≠ none ∧ (outer.sh.lt inner.sh = some true → inner.th.lt outer.th ≠ none)

/-- The heights of two links can be compared, as far as the surround check does. -/
def Comparable (left right : RawLink) : Prop :=
  Ordered left right ∧
    (¬(left.sh.lt right.sh = some true ∧ right.th.lt left.th = some true) → Ordered right left)

theorem onlyValidation_surrounds (outer inner : RawLink) :
    OnlyValidation (surrounds outer inner) ↔ Ordered outer inner := by
  simp only [surrounds, jsonLt, Ordered]
  cases outer.sh.lt inner.sh with
  | none => simp [require, Error.isValidation]
  | some below =>
      cases below <;> cases inner.th.lt outer.th <;> simp [require, Error.isValidation]

theorem surrounds_eq_ok
    {outer inner : RawLink}
    (ordered : Ordered outer inner) :
    surrounds outer inner =
      .ok (decide (outer.sh.lt inner.sh = some true ∧ inner.th.lt outer.th = some true)) := by
  obtain ⟨sources, targets⟩ := ordered
  simp only [surrounds, jsonLt]
  cases below : outer.sh.lt inner.sh with
  | none => exact absurd below sources
  | some below' =>
      cases below' with
      | false => simp [require]
      | true =>
          cases above : inner.th.lt outer.th with
          | none => exact absurd above (targets below)
          | some above' => cases above' <;> simp [require]

theorem onlyValidation_isSurroundVote (left right : RawLink) :
    OnlyValidation (isSurroundVote left right) ↔ Comparable left right := by
  simp only [isSurroundVote, raises_bind, onlyValidation_surrounds, Comparable, and_congr_right_iff]
  intro ordered
  rw [surrounds_eq_ok ordered]
  by_cases surround : left.sh.lt right.sh = some true ∧ right.th.lt left.th = some true
  · simp [surround]
  · simp [surround, onlyValidation_surrounds]

theorem onlyValidation_fromHex (value : Json) :
    OnlyValidation value.fromHex ↔ ∃ text, value = .str text := by
  cases value <;> simp [Json.fromHex, Error.isValidation]

theorem fromHex_eq_ok
    (value : Json)
    (bytes : Option Bytes) :
    value.fromHex = .ok bytes ↔ ∃ text, value = .str text ∧ fromHex text = bytes := by
  cases value <;> simp [Json.fromHex]

theorem onlyValidation_hexBytes (value : Json) : OnlyValidation (hexBytes value) := by
  unfold hexBytes Mindees.hexBytes
  split <;> simp

/-! ## Validity -/

/-- `is_valid` reads the key as a text, and the signature too when the key is
hexadecimal. -/
def Transaction.TextKeys (tx : Transaction) : Prop :=
  tx.shape ≠ none → ∃ key, tx.publicKey = .str key ∧
    (fromHex key ≠ none → ∃ signature, tx.signature = .str signature)

theorem onlyValidation_decodeTx (data : Json) : OnlyValidation (decodeTx data) := by
  unfold decodeTx
  split <;> simp

theorem shape_units
    {tx : Transaction}
    {shape : Shape}
    (shaped : tx.shape = some shape) :
    (0 ≤ shape.amount ∧ 0 ≤ shape.fee) ∧
      (tx.recipient = .str SLASH_SENTINEL → shape.evidence ≠ []) ∧
      (tx.recipient ≠ .str SLASH_SENTINEL → tx.recipient ≠ .str VOTE_SENTINEL →
        0 < shape.amount) := by
  have units {value : Json} {amount : Int} (found : value.units = some amount) : 0 ≤ amount := by
    cases value with
    | int value =>
        simp only [Json.units, Option.ite_none_right_eq_some, isUnits_iff, Option.some.injEq]
          at found
        omega
    | _ => cases found
  unfold Transaction.shape at shaped
  split at shaped
  · rename_i amount fee nonce amounts fees nonces
    have bounds := And.intro (units amounts) (units fees)
    simp only [Option.ite_none_left_eq_some, Bool.or_eq_true, Json.eq_str_iff] at shaped
    obtain ⟨special, small, shaped⟩ := shaped
    split at shaped
    · rename_i evidence text
      simp only [Option.ite_none_left_eq_some, Option.some.injEq] at shaped
      obtain ⟨_, rfl⟩ := shaped
      refine ⟨bounds, fun slash empty => special ⟨.inl slash, .inr ?_⟩, fun notSlash notVote => ?_⟩
      · rw [text, show evidence = [] from empty]
        rfl
      · by_contra zero
        exact small ⟨not_or.mpr ⟨notSlash, notVote⟩, not_lt.mp zero⟩
    · cases shaped
  · cases shaped

variable [Primitives]

theorem onlyValidation_decodeBlock (data : Json) : OnlyValidation (decodeBlock data) := by
  unfold decodeBlock
  split
  · split <;> simp [Raises.mapM onlyValidation_decodeTx]
  · simp

theorem onlyValidation_isValid (tx : Transaction) :
    OnlyValidation tx.isValid ↔ tx.TextKeys := by
  unfold Transaction.isValid Transaction.TextKeys
  cases tx.shape with
  | none => simp
  | some shape =>
      simp only [raises_bind, onlyValidation_fromHex, fromHex_eq_ok, ne_eq, reduceCtorEq,
        not_false_eq_true, true_imp_iff]
      constructor
      · rintro ⟨⟨key, text⟩, next⟩
        refine ⟨key, text, fun decoded => ?_⟩
        cases parsed : fromHex key with
        | none => exact absurd parsed decoded
        | some publicKey =>
            have rest := next (some publicKey) ⟨key, text, parsed⟩
            simp only [raises_bind, onlyValidation_fromHex] at rest
            exact rest.1
      · rintro ⟨key, text, signature⟩
        refine ⟨⟨key, text⟩, ?_⟩
        rintro decoded ⟨other, same, parsed⟩
        rw [text, Json.str.injEq] at same
        subst same
        cases decoded with
        | none => simp
        | some publicKey =>
            simp only [raises_bind, onlyValidation_fromHex]
            refine ⟨signature (by simp [parsed]), fun found _ => ?_⟩
            cases found with
            | none => simp
            | some bytes =>
                dsimp only
                split_ifs <;> simp

/-- What is known of a transaction that `is_valid` accepts. -/
theorem isValid_eq_ok
    {tx : Transaction}
    {checked : Checked}
    (valid : tx.isValid = .ok (some checked)) :
    checked.recipient = tx.recipient ∧ (0 ≤ checked.amount ∧ 0 ≤ checked.fee) ∧
      (tx.recipient = .str SLASH_SENTINEL → checked.evidence ≠ []) ∧
      (tx.recipient ≠ .str SLASH_SENTINEL → tx.recipient ≠ .str VOTE_SENTINEL →
        0 < checked.amount) := by
  unfold Transaction.isValid at valid
  cases shaped : tx.shape with
  | none =>
      rw [shaped] at valid
      cases valid
  | some shape =>
      simp only [shaped, bind_eq_ok] at valid
      obtain ⟨decoded, _, valid⟩ := valid
      cases decoded with
      | none => cases valid
      | some publicKey =>
          simp only [bind_eq_ok] at valid
          obtain ⟨found, _, valid⟩ := valid
          cases found with
          | none => cases valid
          | some signature =>
              dsimp only at valid
              split_ifs at valid <;> cases valid
              exact ⟨rfl, shape_units shaped⟩

/-! ## Evidence -/

/-- What the evidence of a vote fault has to hold for the check to go through. -/
def VotesReadable (txA txB : Transaction) : Prop :=
  txA.TextKeys ∧ ∀ a, txA.isValid = .ok (some a) →
    txB.TextKeys ∧ ∀ b, txB.isValid = .ok (some b) →
      a.recipient = .str VOTE_SENTINEL → b.recipient = .str VOTE_SENTINEL → a.sender = b.sender →
      ∀ fieldsA, loadJson a.evidence = .ok fieldsA →
      ∀ fieldsB, loadJson b.evidence = .ok fieldsB →
      ∀ linkA, rawLink "vote-fault: link" fieldsA = .ok linkA →
      ∀ linkB, rawLink "vote-fault: link" fieldsB = .ok linkB →
        Comparable linkA linkB

/-- What the evidence of an equivocation has to hold. -/
def BlocksReadable (blockA blockB : Block) : Prop :=
  ∀ offender index, verifyEquivocation blockA blockB = .ok (offender, index) →
    index.hashKey ≠ none

/-- What the evidence of a slash has to hold. -/
def EvidenceReadable (evidence : Str) : Prop :=
  ∀ data, loadJson evidence = .ok data →
    ∃ a, Json.field data Key.a = some a ∧
      (((Json.field data Key.kind).getD .null).eq (.str Key.vote) = true →
        ∀ voteA, decodeTx a = .ok voteA → ∃ b, Json.field data Key.b = some b ∧
          ∀ voteB, decodeTx b = .ok voteB → VotesReadable voteA voteB) ∧
      (((Json.field data Key.kind).getD .null).eq (.str Key.vote) = false →
        ∀ blockA, decodeBlock a = .ok blockA → ∃ b, Json.field data Key.b = some b ∧
          ∀ blockB, decodeBlock b = .ok blockB → BlocksReadable blockA blockB)

theorem onlyValidation_verifyVoteFault (txA txB : Transaction) :
    OnlyValidation (verifyVoteFault txA txB) ↔ VotesReadable txA txB := by
  simp only [verifyVoteFault, raises_bind_require]
  simp [VotesReadable, rejectIf, onlyValidation_isValid, onlyValidation_loadJson,
    onlyValidation_rawLink, onlyValidation_isSurroundVote, Json.eq_str_iff]

theorem onlyValidation_verifyEquivocation (b1 b2 : Block) :
    OnlyValidation (verifyEquivocation b1 b2) := by
  have authentic (block : Block) : OnlyValidation (selfAuthenticating block) := by
    simp [selfAuthenticating, rejectIf, onlyValidation_hexBytes, Block.hash]
  simp [verifyEquivocation, rejectIf, authentic]

theorem onlyValidation_slashOffense (evidence : Str) :
    OnlyValidation (slashOffense evidence) ↔ EvidenceReadable evidence := by
  have key : Error.keyError.isValidation = false := rfl
  have type : Error.typeError.isValidation = false := rfl
  simp [slashOffense, EvidenceReadable, BlocksReadable, onlyValidation_require key, type,
    onlyValidation_loadJson, onlyValidation_decodeTx, onlyValidation_decodeBlock,
    onlyValidation_verifyEquivocation, onlyValidation_verifyVoteFault]

/-! ## Effects -/

/-- The reporter of an accepted offense has an entry that the fee is taken from. -/
def ReporterKnown (state : State) (tx : Checked) : Prop :=
  ∀ offender offense, slashOffense tx.evidence = .ok (offender, offense) →
    offense ∉ state.slashed → tx.fee ≤ state.ledger.balances.getD tx.sender 0 →
    state.ledger.balances.contains tx.sender = true

theorem onlyValidation_applySlash
    (config : Config)
    (block : Mindees.Block)
    (state : State)
    (tx : Checked)
    (nonempty : tx.evidence ≠ []) :
    OnlyValidation (applySlash config block state tx) ↔
      (config.treasuryAddress ≠ none →
        EvidenceReadable tx.evidence ∧ ReporterKnown state tx) := by
  cases treasury : config.treasuryAddress <;>
    simp [applySlash, rejectIf, nonempty, treasury, ReporterKnown, Checked.named,
      onlyValidation_slashOffense, onlyValidation_payFee]

omit [Primitives] in
theorem onlyValidation_applyPayment
    (block : Mindees.Block)
    (state : State)
    (tx : Checked) :
    OnlyValidation (applyPayment block state tx) ↔
      (tx.amount + tx.fee ≤ state.ledger.balances.getD tx.sender 0 →
        tx.recipient.hashKey ≠ none) := by
  have type : Error.typeError.isValidation = false := rfl
  simp [applyPayment, rejectIf, type]

/-- What a valid transaction in its turn has to hold. -/
structure Checked.Readable (config : Config) (state : State) (tx : Checked) : Prop where
  recipient : tx.amount + tx.fee ≤ state.ledger.balances.getD tx.sender 0 →
    tx.recipient.hashKey ≠ none
  evidence : tx.recipient = .str SLASH_SENTINEL → config.treasuryAddress ≠ none →
    EvidenceReadable tx.evidence
  reporter : tx.recipient = .str SLASH_SENTINEL → config.treasuryAddress ≠ none →
    ReporterKnown state tx

theorem onlyValidation_applyTx
    {config : Config}
    {block : Mindees.Block}
    {justifiedParent : Finset Str}
    {state : State}
    {tx : Checked}
    (keyed : state.ledger.Keyed)
    (units : 0 ≤ tx.amount ∧ 0 ≤ tx.fee)
    (nonempty : tx.recipient = .str SLASH_SENTINEL → tx.evidence ≠ [])
    (positive : tx.recipient ≠ .str SLASH_SENTINEL → tx.recipient ≠ .str VOTE_SENTINEL →
      0 < tx.amount) :
    OnlyValidation (applyTx config block justifiedParent state tx) ↔
      tx.Readable config state := by
  unfold applyTx
  split
  · rename_i recipient named
    split_ifs with slash
    · subst slash
      rw [onlyValidation_applySlash config block state tx (nonempty named)]
      refine ⟨fun readable => ⟨fun _ => ?_, fun _ treasury => (readable treasury).1,
        fun _ treasury => (readable treasury).2⟩, fun readable treasury =>
        ⟨readable.evidence named treasury, readable.reporter named treasury⟩⟩
      simp [named, Json.hashKey]
    · have other : tx.recipient ≠ .str SLASH_SENTINEL := by
        rw [named]
        exact fun same => slash (Json.str.inj same)
      have safe : OnlyValidation
          (Mindees.applyTx config block justifiedParent state.ledger (tx.named recipient)) := by
        refine Mindees.onlyValidation_applyTx keyed units (fun _ notVote => ?_) slash
        apply positive other
        rw [named]
        exact fun same => notVote (Json.str.inj same)
      simp only [raises_bind, safe, raises_pure, implies_true, and_true, true_iff]
      exact ⟨fun _ => by simp [named, Json.hashKey], fun slash => absurd slash other,
        fun slash => absurd slash other⟩
  · rename_i unnamed
    have other : tx.recipient ≠ .str SLASH_SENTINEL := unnamed SLASH_SENTINEL
    simp only [raises_bind, onlyValidation_applyPayment, onlyValidation_enforceVesting, raises_pure,
      implies_true, and_true]
    exact ⟨fun hashable => ⟨hashable, fun slash => absurd slash other,
      fun slash => absurd slash other⟩, Checked.Readable.recipient⟩

/-- What a transaction has to hold in its turn, whatever its fields are. -/
structure Transaction.Readable (config : Config) (state : State) (tx : Transaction) : Prop where
  keys : tx.TextKeys
  checked : ∀ checked, tx.isValid = .ok (some checked) →
    state.ledger.nonces.getD checked.sender 0 = checked.nonce → checked.Readable config state

theorem onlyValidation_applyNext
    {config : Config}
    {block : Mindees.Block}
    {justifiedParent : Finset Str}
    {progress : List Str × State}
    {tx : Transaction}
    (keyed : progress.2.ledger.Keyed) :
    OnlyValidation (applyNext config block justifiedParent progress tx) ↔
      (tx.txid ∉ progress.1 → tx.Readable config progress.2) := by
  obtain ⟨seen, state⟩ := progress
  have applied (checked : Checked) (valid : tx.isValid = .ok (some checked)) :
      OnlyValidation (applyTx config block justifiedParent state checked) ↔
        checked.Readable config state := by
    obtain ⟨recipient, units, nonempty, positive⟩ := isValid_eq_ok valid
    rw [← recipient] at nonempty positive
    exact onlyValidation_applyTx keyed units nonempty positive
  simp only [applyNext, rejectIf, raises_bind, raises_raiseIf, raises_require, raises_pure,
    onlyValidation_isValid, isValidation_validation, implies_true, true_and, and_true,
    raiseIf_eq_ok, require_eq_ok, not_not, forall_const]
  constructor
  · intro raises new
    obtain ⟨keys, next⟩ := raises new
    exact ⟨keys, fun checked valid numbered =>
      (applied checked valid).mp (next _ valid checked rfl numbered)⟩
  · intro readable new
    refine ⟨(readable new).keys, ?_⟩
    rintro _ valid checked rfl numbered
    exact (applied checked valid).mpr ((readable new).checked checked valid numbered)

/-- Accepted transactions keep the ledger keyed, slashes too. -/
theorem keyed_of_applyNext
    {config : Config}
    {block : Mindees.Block}
    {justifiedParent : Finset Str}
    {before after : List Str × State}
    {tx : Transaction}
    (keyed : before.2.ledger.Keyed)
    (applied : applyNext config block justifiedParent before tx = .ok after) :
    after.2.ledger.Keyed := by
  obtain ⟨seen, state⟩ := before
  simp only [applyNext, rejectIf, bind_eq_ok, pure_eq_ok, raiseIf_eq_ok, require_eq_ok,
    exists_unit] at applied
  obtain ⟨_, _, _, checked, _, _, next, applied, rfl⟩ := applied
  unfold applyTx at applied
  split at applied
  · split_ifs at applied with slash
    · simp only [applySlash, rejectIf, bind_eq_ok, pure_eq_ok, raiseIf_eq_ok, require_eq_ok,
        exists_unit] at applied
      obtain ⟨_, treasury, _, ⟨offender, offense⟩, _, _, _, paid, charged, rfl⟩ := applied
      obtain ⟨_, rfl⟩ := (payFee_eq_ok _ _ _ _).mp charged
      refine keyed.grow (fun address inside => ?_) (fun address inside => .inl ?_) rfl rfl
      · exact contains_credit_of_contains (contains_credit_of_contains
          (contains_credit_of_contains (contains_credit_of_contains inside _ _) _ _) _ _) _ _
      · change (state.ledger.stakes.erase offender).contains address = true at inside
        rw [Dict.contains_erase, Bool.and_eq_true] at inside
        exact inside.2
    · simp only [bind_eq_ok, pure_eq_ok] at applied
      obtain ⟨ledger, applied, rfl⟩ := applied
      exact keyed.applied ((applyTx_eq_ok _ _ _ _ _ _).mp applied) slash
  · simp only [applyPayment, rejectIf, bind_eq_ok, pure_eq_ok, raiseIf_eq_ok, require_eq_ok,
      exists_unit] at applied
    obtain ⟨_, ⟨_, _, _, rfl⟩, _, rfl⟩ := applied
    exact keyed.grow
      (fun _ inside => contains_credit_of_contains (contains_credit_of_contains inside _ _) _ _)
      (fun _ => .inl) rfl rfl

end Untyped

end Mindees
