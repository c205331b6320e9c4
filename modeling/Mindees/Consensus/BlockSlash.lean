import Mindees.Core.Reader
import Mindees.Consensus.Produce
import Mindees.Consensus.SlashHistory
import Mindees.Consensus.SlashWindow

/-!
# Immunity by an earlier report

An equivocation is two blocks on one parent, but the record of slashes names the
offender and the height only.  A report of one pair is refused when a pair of the
same offender at the same height on another parent has been reported before.
-/

namespace Mindees

open Library

section

variable [Primitives]

/-! ## The blocks that a slash carries -/

/-- The two blocks that a slash carries. -/
def carriedBlocks (tx : Transaction) : Except Error (Block × Block) := do
  rejectIf (tx.recipient ≠ SLASH_SENTINEL) "not a slash"
  let data ← loadJson tx.evidence
  rejectIf (((Json.field data Key.kind).getD .null).eq (.str Key.vote) = true) "a vote fault"
  let a ← require (Json.field data Key.a) .keyError
  let blockA ← decodeBlock a
  let b ← require (Json.field data Key.b) .keyError
  let blockB ← decodeBlock b
  pure (blockA, blockB)

/-- The offender, the parent and the height of the equivocation that a slash
reports. -/
def reportedEquivocation (tx : Transaction) : Except Error (Str × Str × Int) := do
  let (blockA, blockB) ← carriedBlocks tx
  let (offender, height) ← verifyEquivocation blockA blockB
  pure (offender, blockA.previousHash, height)

/-- A slash reports an equivocation of an offender on a parent at a height. -/
def ReportsEquivocation (tx : Transaction) (offender parent : Str) (height : Int) : Prop :=
  reportedEquivocation tx = .ok (offender, parent, height)

instance (tx : Transaction) (offender parent : Str) (height : Int) :
    Decidable (ReportsEquivocation tx offender parent height) :=
  inferInstanceAs (Decidable (reportedEquivocation tx = .ok (offender, parent, height)))

variable {tx : Transaction} {b1 b2 : Block} {offender parent : Str} {height : Int}

theorem ReportsEquivocation.named
    (reports : ReportsEquivocation tx offender parent height) :
    tx.recipient = SLASH_SENTINEL := by
  simp only [ReportsEquivocation, reportedEquivocation, carriedBlocks, rejectIf, bind_eq_ok,
    raiseIf_eq_ok, exists_unit, not_not] at reports
  obtain ⟨_, ⟨named, _⟩, _⟩ := reports
  exact named

/-- A slash that reports an equivocation proves it. -/
theorem ReportsEquivocation.slashOffense_eq
    (reports : ReportsEquivocation tx offender parent height) :
    slashOffense tx.evidence = .ok (offender, .block offender height) := by
  simp only [ReportsEquivocation, reportedEquivocation, carriedBlocks, rejectIf, bind_eq_ok,
    raiseIf_eq_ok, exists_unit, require_eq_ok, pure_eq_ok, Bool.not_eq_true, Prod.exists,
    Prod.mk.injEq] at reports
  obtain ⟨b1, b2, ⟨_, data, loaded, kind, a, foundA, _, decodedA, b, foundB, _, decodedB, rfl,
    rfl⟩, _, _, verified, rfl, _, rfl⟩ := reports
  simp only [slashOffense, bind_eq_ok, loaded, kind, foundA, foundB, decodedA, decodedB,
    require_eq_ok, Except.ok.injEq, Option.some.injEq, exists_eq_left', Bool.false_eq_true,
    if_false, verified, pure_eq_ok]

/-- A slash that proves an equivocation reports it on some parent. -/
theorem exists_reports
    (proven : offenseOf tx = some (.block offender height)) :
    ∃ parent, ReportsEquivocation tx offender parent height := by
  by_cases named : tx.recipient = SLASH_SENTINEL
  · rw [offenseOf, if_pos named] at proven
    cases proof : slashOffense tx.evidence with
    | error error =>
        rw [proof] at proven
        cases proven
    | ok result =>
        rw [proof] at proven
        simp only [slashOffense, bind_eq_ok, require_eq_ok] at proof
        obtain ⟨data, loaded, a, foundA, rest⟩ := proof
        by_cases kind : ((Json.field data Key.kind).getD .null).eq (.str Key.vote) = true
        · simp only [kind, if_true, bind_eq_ok, pure_eq_ok, Prod.exists] at rest
          obtain ⟨_, _, _, _, _, _, _, _, _, rfl⟩ := rest
          cases proven
        · simp only [kind, if_false, Bool.false_eq_true, bind_eq_ok, require_eq_ok, pure_eq_ok,
            Prod.exists] at rest
          obtain ⟨b1, decodedA, b, foundB, b2, decodedB, other, index, verified, rfl⟩ := rest
          obtain ⟨rfl, rfl⟩ := Offense.block.inj (Option.some.inj proven)
          refine ⟨b1.previousHash, ?_⟩
          simp only [ReportsEquivocation, reportedEquivocation, carriedBlocks, rejectIf,
            bind_eq_ok, raiseIf_eq_ok, exists_unit, require_eq_ok, pure_eq_ok, Prod.exists,
            Prod.mk.injEq]
          exact ⟨b1, b2, ⟨by simpa using named, data, loaded, kind, a, foundA, b1, decodedA, b,
            foundB, b2, decodedB, rfl, rfl⟩, other, index, verified, rfl, rfl, rfl⟩
  · rw [offenseOf, if_neg named] at proven
    cases proven

/-! ## The report of a pair -/

/-- A slash in the next block reports a pair of blocks of an offender with
something bonded, its sender can pay, and no earlier slash reported the offender
on the same parent at the same height. -/
structure Punishable
    (chain : ProofOfStakeChain)
    (block : Block)
    (earlier : List Transaction)
    (state : LedgerState)
    (tx : Transaction)
    (b1 b2 : Block)
    (offender : Str)
    (height : Int) : Prop where
  /-- The chain has a treasury address. -/
  treasury : chain.config.treasuryAddress.isSome = true
  /-- The transactions before the slash have been applied. -/
  reached : applyTxs chain.config block chain.state.justified
    (applyBlockPre chain.config block chain.state) earlier = .ok state
  verified : verifyEquivocation b1 b2 = .ok (offender, height)
  bonded : 0 < state.bondedOf offender
  carries : carriedBlocks tx = .ok (b1, b2)
  evidence : tx.evidence ≠ []
  account : state.balances.contains tx.sender = true
  fee : tx.fee ≤ state.balances.getD tx.sender 0
  nonce : state.nonces.getD tx.sender 0 = tx.nonce
  first : ∀ old ∈ chain.history ++ earlier,
    ¬ReportsEquivocation old offender b1.previousHash height

/-- The slash is accepted and leaves the offender with nothing bonded. -/
def Punishes
    (config : Config)
    (block : Block)
    (state : LedgerState)
    (tx : Transaction)
    (offender : Str) : Prop :=
  ∃ after, applySlash config block state tx = .ok after ∧
    after.stakes.getD offender 0 = 0 ∧ after.unbondingOf offender = 0

/-- A report is punished exactly when no earlier slash of the chain reported the
offender at the same height on another parent. -/
theorem ProofOfStakeChain.Reachable.punishes_iff
    {args : GenesisArgs}
    {chain : ProofOfStakeChain}
    {block : Block}
    {earlier : List Transaction}
    {state : LedgerState}
    (reachable : ProofOfStakeChain.Reachable args chain)
    (punishable : Punishable chain block earlier state tx b1 b2 offender height) :
    Punishes chain.config block state tx offender ↔
      ∀ old ∈ chain.history ++ earlier, ∀ parent, parent ≠ b1.previousHash →
        ¬ReportsEquivocation old offender parent height := by
  have record := reachable.slashRecord.applyTxs punishable.reached
  have reports : ReportsEquivocation tx offender b1.previousHash height := by
    simp only [ReportsEquivocation, reportedEquivocation, bind_eq_ok, punishable.carries,
      Except.ok.injEq, exists_eq_left', punishable.verified, pure_eq_ok]
  have named := reports.named
  have proof := reports.slashOffense_eq
  constructor
  · rintro ⟨after, accepted, _⟩ old inside other _ earlierReport
    obtain ⟨_, _, _, _, offense, again, fresh, _⟩ := (applySlash_eq_ok _ _ _ _ _).mp accepted
    obtain ⟨_, rfl⟩ := Prod.mk.inj (Except.ok.inj (proof.symm.trans again))
    refine fresh ((record.recorded _).mpr (List.mem_filterMap.mpr ⟨old, inside, ?_⟩))
    exact offenseOf_eq_some earlierReport.named earlierReport.slashOffense_eq
  · intro elsewhere
    have fresh : Offense.block offender height ∉ state.slashed := by
      intro recorded
      obtain ⟨old, inside, proven⟩ := List.mem_filterMap.mp ((record.recorded _).mp recorded)
      obtain ⟨other, earlierReport⟩ := exists_reports proven
      by_cases sameParent : other = b1.previousHash
      · exact punishable.first old inside (sameParent ▸ earlierReport)
      · exact elsewhere old inside other sameParent earlierReport
    obtain ⟨treasury, present⟩ := Option.isSome_iff_exists.mp punishable.treasury
    obtain ⟨paid, charged⟩ : ∃ paid, payFee block state tx = .ok paid :=
      ⟨_, (payFee_eq_ok _ _ _ _).mpr ⟨punishable.account, rfl⟩⟩
    have accepted := (applySlash_eq_ok chain.config block state _ tx).mpr
      ⟨punishable.evidence, treasury, present, offender, _, proof, fresh, punishable.fee, paid,
        charged, rfl⟩
    have convicted : offenderOf tx = some offender := by rw [offenderOf, if_pos named, proof]
    exact ⟨_, accepted, applySlash_bondedOf accepted convicted named⟩

end

/-! ## Immunity by a fabricated pair -/

namespace BlockSlashSample

open ProofOfStakeChain

attribute [local instance] Symbolic.reading

/-- The validator and the attacker. -/
def keyring : List Wallet := [Symbolic.wallet 1, Symbolic.wallet 2]

def attacker : Wallet := Symbolic.wallet 2

def args : GenesisArgs where
  allocations :=
    (Dict.empty.set (Symbolic.wallet 1).address (MAX_SUPPLY_UNITS - 1000)).set
      attacker.address 1000
  initialStakes := Dict.empty.set (Symbolic.wallet 1).address 500
  treasuryAddress := some (Symbolic.wallet 3).address

/-- Two blocks that the attacker seals on one parent at height 3. -/
def pair (parent : Str) : Except Error (Block × Block) := do
  let first ← sealBlock parent 3 attacker [] 0 0 0
  let second ← sealBlock parent 3 attacker [] 1 0 0
  pure (first, second)

/-- A chain, its next block, and a slash for that block with its evidence. -/
structure Scene where
  chain : ProofOfStakeChain
  block : Block
  tx : Transaction
  b1 : Block
  b2 : Block

namespace Scene

/-- The state that the transactions of the block start from. -/
def state (scene : Scene) : LedgerState :=
  applyBlockPre scene.chain.config scene.block scene.chain.state

/-- The report meets the conditions of the law. -/
def ready (scene : Scene) : Bool :=
  scene.chain.config.treasuryAddress.isSome &&
  decide (verifyEquivocation scene.b1 scene.b2 = .ok (attacker.address, 3)) &&
  decide (0 < scene.state.bondedOf attacker.address) &&
  decide (carriedBlocks scene.tx = .ok (scene.b1, scene.b2)) &&
  decide (scene.tx.evidence ≠ []) &&
  scene.state.balances.contains scene.tx.sender &&
  decide (scene.tx.fee ≤ scene.state.balances.getD scene.tx.sender 0) &&
  decide (scene.state.nonces.getD scene.tx.sender 0 = scene.tx.nonce) &&
  decide (∀ old ∈ scene.chain.history,
    ¬ReportsEquivocation old attacker.address scene.b1.previousHash 3)

theorem punishable
    {scene : Scene}
    (ready : scene.ready = true) :
    Punishable scene.chain scene.block [] scene.state scene.tx scene.b1 scene.b2
      attacker.address 3 := by
  simp only [Scene.ready, Bool.and_eq_true, decide_eq_true_eq] at ready
  obtain ⟨⟨⟨⟨⟨⟨⟨⟨treasury, verified⟩, bonded⟩, carries⟩, evidence⟩, account⟩, fee⟩, nonce⟩, first⟩ :=
    ready
  refine ⟨treasury, rfl, verified, bonded, carries, evidence, account, fee, nonce, ?_⟩
  rw [List.append_nil]
  exact first

end Scene

/-- The attacker may report a fabricated pair of its own before it stakes.  It
then seals two blocks on the head, and the validator reports them. -/
def stage (arranged : Bool) : Except Error Scene := do
  let start ← init args
  let (fakeA, fakeB) ← pair ['f']
  let confession ← slashTx attacker fakeA fakeB 0 0 0
  let opened ← start.addBlock (if arranged then [confession] else []) (Symbolic.wallet 1)
    1 0 0
  let chain ← addRound keyring opened [.stake 1 100 0]
  let (b1, b2) ← pair chain.head.hash
  let tx ← slashTx (Symbolic.wallet 1) b1 b2 0 0 0
  let block ← sealBlock chain.head.hash 3 (Symbolic.wallet 1) [tx] 2 0 0
  pure { chain, block, tx, b1, b2 }

theorem reachable_stage
    {arranged : Bool}
    {scene : Scene}
    (staged : stage arranged = .ok scene) :
    Reachable args scene.chain := by
  simp only [stage, bind_eq_ok, pure_eq_ok, addBlock, Prod.exists] at staged
  obtain ⟨start, initialised, _, _, _, _, _, opened, ⟨_, _, submitted⟩, chain, added, _, _, _, _, _,
    _, _, rfl⟩ := staged
  exact ((Reachable.genesis initialised).block submitted).block (addRound_submits added).1

/-- The run of an attacker that arranged nothing. -/
def plain : Except Error Scene := do
  let scene ← stage false
  raiseIf (scene.ready = false ∨ scene.chain.history.any (fun tx => (offenseOf tx).isSome) = true)
    Error.valueError
  pure scene

/-- The run of an attacker that reported itself. -/
def immune : Except Error Scene := do
  let scene ← stage true
  raiseIf (scene.ready = false ∨
    succeeded (applySlash scene.chain.config scene.block scene.state scene.tx) = true)
    Error.valueError
  pure scene

theorem plain_played : succeeded plain = true := by decide +kernel

theorem immune_played : succeeded immune = true := by decide +kernel

/-- Without an arranged report the attacker loses its stake. -/
theorem punishes_iff_plain :
    ∃ scene, plain = .ok scene ∧
      Punishes scene.chain.config scene.block scene.state scene.tx attacker.address := by
  obtain ⟨scene, played⟩ := (succeeded_iff plain).mp plain_played
  refine ⟨scene, played, ?_⟩
  simp only [plain, bind_eq_ok, raiseIf_eq_ok, exists_unit, pure_eq_ok, not_or,
    Bool.not_eq_false, Bool.not_eq_true] at played
  obtain ⟨scene, staged, ⟨ready, unreported⟩, rfl⟩ := played
  refine ((reachable_stage staged).punishes_iff (Scene.punishable ready)).mpr ?_
  intro old inside parent _ reports
  rw [List.append_nil] at inside
  have silent := List.any_eq_false.mp unreported old inside
  rw [offenseOf_eq_some reports.named reports.slashOffense_eq] at silent
  exact silent rfl

/-- A pair that the attacker fabricated and reported itself while it had nothing
bonded makes the report of a real pair fail. -/
theorem fabricated_pair_grants_immunity :
    ¬∀ (args : GenesisArgs) (chain : ProofOfStakeChain) (block : Block)
      (earlier : List Transaction) (state : LedgerState) (tx : Transaction) (b1 b2 : Block)
      (offender : Str) (height : Int),
      Reachable args chain →
      Punishable chain block earlier state tx b1 b2 offender height →
      Punishes chain.config block state tx offender := by
  intro claim
  obtain ⟨_, played⟩ := (succeeded_iff immune).mp immune_played
  simp only [immune, bind_eq_ok, raiseIf_eq_ok, exists_unit, pure_eq_ok, not_or,
    Bool.not_eq_false, Bool.not_eq_true] at played
  obtain ⟨scene, staged, ⟨ready, refused⟩, _⟩ := played
  obtain ⟨after, accepted, _⟩ := claim _ _ _ _ _ _ _ _ _ _ (reachable_stage staged)
    (Scene.punishable ready)
  rw [accepted] at refused
  cases refused

end BlockSlashSample

end Mindees
