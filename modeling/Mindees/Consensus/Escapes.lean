import Mindees.Core.Symbolic
import Mindees.Consensus.Readable
import Mindees.Consensus.Walks

/-!
# What escapes the validation of a block

A JSON value from the wire is decoded and submitted.  It is committed or
rejected with a `ValidationError` exactly when it is readable; any other
exception passes by the callers, who catch that one only.
-/

namespace Mindees

open Library

/-- An election fails for want of validators only. -/
theorem onlyValidation_electValidator (stakes : Dict Str Int) (seed : Bytes) :
    OnlyValidation (electValidator stakes seed) := by
  simp only [electValidator, rejectIf, raises_bind, raises_raiseIf, raiseIf_eq_ok]
  refine ⟨fun _ => rfl, fun _ staked => ?_⟩
  split
  · simp
  · rw [raises_require]
    intro empty
    rw [List.getLast?_eq_none_iff.mp empty] at staked
    exact absurd rfl staked

namespace Untyped

variable [Primitives]

/-! ## The checks of a block -/

/-- The index is an integer that fits into eight bytes. -/
def Block.IndexFits (block : Block) : Prop :=
  ∃ index, block.index.integer = some index ∧ 0 ≤ index ∧ index < 2 ^ 64

theorem onlyValidation_checkProposer
    {stakes : Dict Str Int}
    {block : Block}
    {parent : Bytes}
    (previous : block.previousHash = .str (hex parent)) :
    OnlyValidation (checkProposer stakes block) ↔ block.IndexFits := by
  have missing : Error.attributeError.isValidation = false := rfl
  have overflow : Error.overflowError.isValidation = false := rfl
  simp only [checkProposer, previous, Json.fromHex, fromHex_hex, toBytes8]
  simp [onlyValidation_require missing, overflow, onlyValidation_electValidator, rejectIf,
    onlyValidation_hexBytes, Block.IndexFits, Block.hash]

/-- A committed block has an integer index. -/
theorem integer_of_checkProposer
    {stakes : Dict Str Int}
    {block : Block}
    {view : Mindees.Block}
    (checked : checkProposer stakes block = .ok view) :
    block.index.integer = some view.index := by
  simp only [checkProposer, rejectIf, bind_eq_ok, pure_eq_ok, require_eq_ok] at checked
  obtain ⟨_, _, _, _, index, found, _, _, _, _, _, _, _, _, _, _, _, _, _, _, _, _, _, _, rfl⟩ :=
    checked
  exact found

omit [Primitives] in
theorem keyed_applyBlockPre
    (config : Config)
    (hash : Str)
    (height : Int)
    {state : State}
    (keyed : state.ledger.Keyed) :
    (applyBlockPre config hash height state).ledger.Keyed := by
  unfold applyBlockPre
  dsimp only
  split
  · exact (keyed.mature height).snapshot hash height
  · exact keyed.mature height

namespace Chain

/-- Holds of every chain that is reached: its ledger is keyed, and its head has
an integer index. -/
structure Sound (chain : Chain) : Prop where
  keyed : chain.state.ledger.Keyed
  numbered : chain.nextIndex ≠ none

theorem sound_ofTyped
    {args : GenesisArgs}
    {chain : ProofOfStakeChain}
    (built : ProofOfStakeChain.init args = .ok chain) :
    (ofTyped chain).Sound := by
  refine ⟨(ProofOfStakeChain.keyed_init built).grow (fun _ => id) (fun _ => .inl) rfl rfl, ?_⟩
  obtain ⟨_, _, _, _, _, _, _, _, blocks⟩ := (ProofOfStakeChain.init_eq_ok args chain).mp built
  obtain ⟨_, _, _, _⟩ := chain
  cases blocks
  exact Option.some_ne_none _

/-- The block passes the checks before the proposer check. -/
structure Follows (chain : Chain) (block : Block) : Prop where
  previousHash : block.previousHash = .str chain.head.hash
  index : ∃ next, chain.nextIndex = some next ∧ block.index.eq (.int next) = true
  merkleRoot :
    block.merkleRoot = .str (merkleRoot (block.transactions.map Transaction.txid))

/-- The identifiers and the state after the first transactions of a block. -/
def progress
    (chain : Chain)
    (block : Block)
    (view : Mindees.Block)
    (transactions : List Transaction) : Except Error (List Str × State) :=
  transactions.foldlM (applyNext chain.config view chain.state.ledger.justified)
    ([], applyBlockPre chain.config block.hash view.index chain.state)

theorem applyChecked_eq_ok
    (chain : Chain)
    (block : Block)
    (after : State) :
    chain.applyChecked block = .ok after ↔
      chain.Follows block ∧ ∃ view, checkProposer chain.state.ledger.stakes block = .ok view ∧
        ∃ seen, chain.progress block view block.transactions = .ok (seen, after) := by
  simp only [applyChecked, rejectIf, bind_eq_ok, pure_eq_ok, raiseIf_eq_ok, require_eq_ok,
    exists_unit, Bool.not_eq_false, Json.eq_str_iff, Prod.exists, progress]
  constructor
  · rintro ⟨previous, next, nextIndex, index, root, view, checked, seen, state, ran, rfl⟩
    exact ⟨⟨previous, ⟨next, nextIndex, index⟩, root⟩, view, checked, seen, ran⟩
  · rintro ⟨⟨previous, ⟨next, nextIndex, index⟩, root⟩, view, checked, seen, ran⟩
    exact ⟨previous, next, nextIndex, index, root, view, checked, seen, after, ran, rfl⟩

theorem keyed_progress
    {chain : Chain}
    {block : Block}
    {view : Mindees.Block}
    {transactions : List Transaction}
    {seen : List Str}
    {state : State}
    (sound : chain.Sound)
    (ran : chain.progress block view transactions = .ok (seen, state)) :
    state.ledger.Keyed :=
  foldlM_invariant (fun progress => progress.2.ledger.Keyed)
    (fun _ _ _ _ keyed applied => keyed_of_applyNext keyed applied)
    (keyed_applyBlockPre chain.config block.hash view.index sound.keyed) ran

theorem Reachable.sound
    {args : GenesisArgs}
    {chain : Chain}
    (reached : Reachable args chain) :
    chain.Sound := by
  induction reached with
  | genesis built => exact sound_ofTyped built
  | block _ submitted sound =>
      simp only [submitBlock, rejectIf, bind_eq_ok, pure_eq_ok, raiseIf_eq_ok, exists_unit]
        at submitted
      obtain ⟨state, applied, _, rfl⟩ := submitted
      obtain ⟨_, view, checked, seen, ran⟩ := (applyChecked_eq_ok _ _ _).mp applied
      refine ⟨keyed_progress sound ran, ?_⟩
      simp [nextIndex, head, integer_of_checkProposer checked]

/-- What a JSON value has to hold for its block to be judged by the rules alone,
each part at the point where the validation reads it. -/
structure Readable (chain : Chain) (data : Json) : Prop where
  index : ∀ block, decodeBlock data = .ok block → chain.Follows block → block.IndexFits
  transactions : ∀ block, decodeBlock data = .ok block → chain.Follows block →
    ∀ view, checkProposer chain.state.ledger.stakes block = .ok view →
    ∀ earlier tx later, block.transactions = earlier ++ tx :: later →
    ∀ seen state, chain.progress block view earlier = .ok (seen, state) →
      tx.txid ∉ seen → tx.Readable chain.config state

theorem onlyValidation_applyChecked
    {chain : Chain}
    (sound : chain.Sound)
    (block : Block) :
    OnlyValidation (chain.applyChecked block) ↔
      (chain.Follows block → block.IndexFits ∧
        ∀ view, checkProposer chain.state.ledger.stakes block = .ok view →
          OnlyValidation (chain.progress block view block.transactions)) := by
  obtain ⟨next, numbered⟩ := Option.ne_none_iff_exists'.mp sound.numbered
  simp only [applyChecked, rejectIf, raises_bind, raises_raiseIf, raises_require, raises_pure,
    isValidation_validation, implies_true, true_and, and_true, raiseIf_eq_ok, require_eq_ok,
    Bool.not_eq_false, Json.eq_str_iff, numbered, reduceCtorEq, IsEmpty.forall_iff,
    Option.some.injEq, forall_eq', forall_const]
  constructor
  · rintro raises ⟨previous, ⟨_, found, index⟩, root⟩
    rw [numbered] at found
    cases found
    obtain ⟨proposer, transactions⟩ := raises previous index root
    exact ⟨(onlyValidation_checkProposer previous).mp proposer, transactions⟩
  · intro readable previous index root
    obtain ⟨fits, transactions⟩ := readable ⟨previous, ⟨next, numbered, index⟩, root⟩
    exact ⟨(onlyValidation_checkProposer previous).mpr fits, transactions⟩

theorem onlyValidation_progress
    {chain : Chain}
    (sound : chain.Sound)
    (block : Block)
    (view : Mindees.Block)
    (transactions : List Transaction) :
    OnlyValidation (chain.progress block view transactions) ↔
      ∀ earlier tx later, transactions = earlier ++ tx :: later →
        ∀ seen state, chain.progress block view earlier = .ok (seen, state) →
          tx.txid ∉ seen → tx.Readable chain.config state := by
  rw [progress, OnlyValidation, raises_foldlM]
  refine forall_congr' fun earlier => forall_congr' fun tx => forall_congr' fun later =>
    forall_congr' fun _ => ?_
  rw [Prod.forall]
  refine forall_congr' fun seen => forall_congr' fun state => forall_congr' fun ran => ?_
  exact onlyValidation_applyNext (keyed_progress sound ran)

theorem onlyValidation_receive
    {chain : Chain}
    (sound : chain.Sound)
    (data : Json) :
    OnlyValidation (chain.receive data) ↔ chain.Readable data := by
  simp only [receive, submitBlock, rejectIf, raises_bind, raises_raiseIf, raises_pure,
    onlyValidation_decodeBlock, onlyValidation_applyChecked sound, onlyValidation_progress sound,
    isValidation_validation, implies_true, true_and, and_true]
  constructor
  · intro raises
    exact ⟨fun block decoded follows => (raises block decoded follows).1,
      fun block decoded follows view checked => (raises block decoded follows).2 view checked⟩
  · intro readable block decoded follows
    exact ⟨readable.index block decoded follows,
      fun view checked => readable.transactions block decoded follows view checked⟩

/-- On any chain that is reached, a JSON value from the wire is committed or
rejected with a `ValidationError` exactly when the stack holds every walk through
it and it is readable. -/
theorem Reachable.validates_iff
    [Stack]
    {args : GenesisArgs}
    {chain : Chain}
    (reached : Reachable args chain)
    (data : Json) :
    OnlyValidation (chain.receiveOn data) ↔
      (∀ walk ∈ chain.walks data, Stack.holds walk = true) ∧ chain.Readable data := by
  have escapes : ¬OnlyValidation (.error .recursionError : Except Error Chain) := by
    simp [Error.isValidation]
  rw [receiveOn, ← onlyValidation_receive reached.sound, ← List.all_eq_true]
  split_ifs with holds
  · rw [and_iff_right holds]
  · exact iff_of_false escapes fun both => holds both.1

end Chain

/-! ## Blocks without a seal -/

/-- A block without transactions and seal. -/
def unsealed (previousHash : Str) (index : Json) : Block where
  index := index
  previousHash := .str previousHash
  timestamp := .int 0
  transactions := []
  validator := .null
  nonce := .int 0
  merkleRoot := .str (merkleRoot [])
  proposerPubkey := .null
  validatorSig := .null

/-- Such a block on the wire. -/
def unsealedJson (previousHash : Str) (index : Json) : Json :=
  .obj
    [(Key.index, index), (Key.previousHash, .str previousHash), (Key.timestamp, .int 0),
      (Key.transactions, .arr []), (Key.validator, .null),
      (Key.merkleRoot, .str (merkleRoot [])), (Key.proposerPubkey, .null),
      (Key.validatorSig, .null)]

theorem decodeBlock_unsealedJson (previousHash : Str) (index : Json) :
    decodeBlock (unsealedJson previousHash index) = .ok (unsealed previousHash index) := by
  have decoded : decodeBlock (unsealedJson previousHash index) =
      .ok (unsealed previousHash index).postInit := rfl
  rw [decoded, Block.postInit]
  split <;> rfl

/-- The election asks the index for its bytes before any check that takes a key,
so whoever knows the head can send a block with a float for an index. -/
theorem Chain.receive_float
    {chain : Chain}
    {next : Int}
    (numbered : chain.nextIndex = some next) :
    chain.receive (unsealedJson chain.head.hash (.float (.finite next))) =
      .error .attributeError := by
  have sameIndex : (Json.float (.finite next)).eq (.int next) = true :=
    (Json.eq_int_iff _ _).mpr (.inr ⟨_, rfl, rfl⟩)
  have sameText (text : Str) : (Json.str text).eq (.str text) = true :=
    (Json.eq_str_iff _ _).mpr rfl
  have parent : fromHex chain.head.hash = some (sha256 (canonical chain.head.header)) :=
    fromHex_hex _
  simp only [receive, decodeBlock_unsealedJson, submitBlock, applyChecked, rejectIf, raiseIf,
    require, numbered, unsealed, sameIndex, sameText, checkProposer, Json.fromHex, parent,
    Json.integer, List.map_nil, Bool.true_eq_false, if_false, bind, Except.bind]

end Untyped

/-! ## Received at genesis -/

namespace EscapesSample

open Untyped

attribute [local instance] Symbolic.primitives shallowStack

def args : GenesisArgs where
  allocations := Dict.empty.set (Symbolic.wallet 1).address MAX_SUPPLY_UNITS
  initialStakes := Dict.empty.set (Symbolic.wallet 1).address 500

theorem built : succeeded (ProofOfStakeChain.init args) = true := by decide +kernel

@[irreducible] def genesis : ProofOfStakeChain := outcome (ProofOfStakeChain.init args) built

theorem init_genesis : ProofOfStakeChain.init args = .ok genesis := by
  unfold genesis
  exact eq_ok_outcome _ built

/-- The chain at its genesis block. -/
def chain : Chain := .ofTyped genesis

theorem reached : Chain.Reachable args chain := .genesis init_genesis

theorem numbered : chain.nextIndex = some 1 := by decide +kernel

/-- What is walked through is flat: the header of the head, and the validator if it comes
to that. -/
theorem holds_walks
    (index : Json) :
    ∀ walk ∈ chain.walks (unsealedJson chain.head.hash index), Stack.holds walk = true := by
  have header : Stack.holds chain.head.hashWalk = true := by decide +kernel
  have root : (Json.str (merkleRoot [])).truthy = true := by decide +kernel
  have decodes : decodeBlockWalks (unsealedJson chain.head.hash index) = [] := by
    rw [unsealedJson, decodeBlockWalks, if_pos]
    exact root
  intro walk inside
  rw [Chain.walks, decodes, decodeBlock_unsealedJson, List.nil_append, Walk.after,
    Chain.applyWalks, List.mem_cons] at inside
  rcases inside with rfl | inside
  · exact header
  · have unsealedWalks : (unsealed chain.head.hash index).txidWalks = [] := rfl
    have rejected : ∀ stakes view,
        Untyped.checkProposer stakes (unsealed chain.head.hash index) ≠ .ok view := by
      intro stakes view checked
      simp only [Untyped.checkProposer, rejectIf, bind_eq_ok, raiseIf_eq_ok] at checked
      obtain ⟨_, _, _, _, _, _, _, _, _, _, _, elected, _⟩ := checked
      exact elected rfl
    simp only [Walk.mem_after, unsealedWalks, List.nil_append, List.mem_append, rejected,
      false_and, exists_false, or_false, checkProposerWalks, List.mem_ite_nil_left] at inside
    obtain ⟨_, _, _, _, _, expected, _, formatted⟩ := inside
    have differs : (unsealed chain.head.hash index).validator.eq (.str expected) = false := rfl
    rw [if_pos differs, List.mem_singleton] at formatted
    rw [formatted]
    rfl

/-- A float for an index, and the exception is none that the callers catch. -/
theorem float_escapes :
    ¬∀ (args : GenesisArgs) (chain : Chain) (data : Json), Chain.Reachable args chain →
      OnlyValidation (chain.receiveOn data) := by
  intro claim
  have caught := claim args chain (unsealedJson chain.head.hash (.float (.finite 1))) reached
  rw [Chain.receiveOn, if_pos (List.all_eq_true.mpr (holds_walks _))] at caught
  exact absurd (caught _ (Chain.receive_float numbered)) (by simp [Error.isValidation])

/-- The same block with an integer is judged by the rules. -/
theorem validates_iff_integer :
    OnlyValidation (chain.receiveOn (unsealedJson chain.head.hash (.int 1))) := by
  apply (reached.validates_iff _).mpr
  refine ⟨holds_walks _, ?_, ?_⟩
  · intro block decoded _
    rw [decodeBlock_unsealedJson] at decoded
    cases decoded
    exact ⟨1, rfl, by decide, by decide⟩
  · intro block decoded _ view _ earlier tx later split
    rw [decodeBlock_unsealedJson] at decoded
    cases decoded
    cases earlier <;> cases split

end EscapesSample

end Mindees
