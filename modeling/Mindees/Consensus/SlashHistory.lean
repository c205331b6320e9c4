import Mindees.Consensus.History
import Mindees.Consensus.Money

/-!
# The record of slashes

The offenses on record are those that the slashes of the history prove, and no
two of them prove the same one.
-/

namespace Mindees

open Library

section

variable [Primitives]

/-- The offense that a slash proves. -/
def offenseOf (tx : Transaction) : Option Offense :=
  if tx.recipient = SLASH_SENTINEL then
    match slashOffense tx.evidence with
    | .ok (_, offense) => some offense
    | .error _ => none
  else none

theorem offenseOf_eq_some
    {tx : Transaction}
    {offender : Str}
    {offense : Offense}
    (named : tx.recipient = SLASH_SENTINEL)
    (proof : slashOffense tx.evidence = .ok (offender, offense)) :
    offenseOf tx = some offense := by
  rw [offenseOf, if_pos named, proof]

/-! ## One transaction -/

variable {config : Config} {block : Block} {justifiedParent : Finset Str}
  {before after : LedgerState} {tx : Transaction}

/-- Only slashes put an offense on record. -/
theorem Applied.slashed_eq
    (applied : Applied config block justifiedParent before tx after)
    (notSlash : tx.recipient ≠ SLASH_SENTINEL) :
    after.slashed = before.slashed := by
  cases applied with
  | stake _ moved _ =>
      obtain ⟨_, _, rfl⟩ := (applyStake_eq_ok _ _ _ _).mp moved
      rfl
  | unstake _ moved _ =>
      obtain ⟨_, _, _, _, _, rfl⟩ := (applyUnstake_eq_ok _ _ _ _ _).mp moved
      rfl
  | slash named _ => exact absurd named notSlash
  | vote _ moved =>
      obtain ⟨link, _, _, _, paid, charged, rfl⟩ := (applyVote_eq_ok _ _ _ _ _ _).mp moved
      obtain ⟨_, rfl⟩ := (payFee_eq_ok _ _ _ _).mp charged
      obtain ⟨_, _, frame⟩ := tallyLink_frame config (recordVote _ tx.sender link) link
      rw [frame]
      rfl
  | payment _ _ _ _ moved _ =>
      obtain ⟨_, rfl⟩ := (applyPayment_eq_ok _ _ _ _).mp moved
      rfl

/-- A slash proves an offense that is not on record yet, and records it. -/
theorem Applied.slashed_insert
    (applied : Applied config block justifiedParent before tx after)
    (named : tx.recipient = SLASH_SENTINEL) :
    ∃ offense, offenseOf tx = some offense ∧ offense ∉ before.slashed ∧
      after.slashed = insert offense before.slashed := by
  obtain ⟨_, _, _, offender, offense, proof, fresh, _, paid, charged, rfl⟩ :=
    (applySlash_eq_ok _ _ _ _ _).mp (applied.of_slash named)
  obtain ⟨_, rfl⟩ := (payFee_eq_ok _ _ _ _).mp charged
  exact ⟨offense, offenseOf_eq_some named proof, fresh, rfl⟩

/-! ## Histories -/

/-- What the record says about a history. -/
structure SlashRecord (history : List Transaction) (state : LedgerState) : Prop where
  recorded : ∀ offense, offense ∈ state.slashed ↔ offense ∈ history.filterMap offenseOf
  distinct : (history.filterMap offenseOf).Nodup
  convicting : ∀ tx ∈ history, tx.recipient = SLASH_SENTINEL → (offenseOf tx).isSome = true

theorem SlashRecord.extend
    {history : List Transaction}
    (record : SlashRecord history before)
    (applied : Applied config block justifiedParent before tx after) :
    SlashRecord (history ++ [tx]) after := by
  by_cases named : tx.recipient = SLASH_SENTINEL
  · obtain ⟨offense, proven, fresh, inserted⟩ := applied.slashed_insert named
    have listed : (history ++ [tx]).filterMap offenseOf =
        history.filterMap offenseOf ++ [offense] := by
      rw [List.filterMap_append, List.filterMap_cons_some proven, List.filterMap_nil]
    refine ⟨fun other => ?_, ?_, fun old inside slash => ?_⟩
    · rw [inserted, Finset.mem_insert, listed, List.mem_append, List.mem_singleton,
        record.recorded, or_comm]
    · rw [listed, List.nodup_append]
      refine ⟨record.distinct, List.nodup_singleton _, ?_⟩
      rintro other old _ last rfl
      obtain rfl := List.mem_singleton.mp last
      exact fresh ((record.recorded other).mpr old)
    · rcases List.mem_append.mp inside with earlier | last
      · exact record.convicting old earlier slash
      · rw [List.mem_singleton.mp last, proven]
        rfl
  · have unproven : offenseOf tx = none := by rw [offenseOf, if_neg named]
    have listed : (history ++ [tx]).filterMap offenseOf = history.filterMap offenseOf := by
      rw [List.filterMap_append, List.filterMap_cons_none unproven, List.filterMap_nil,
        List.append_nil]
    refine ⟨fun other => ?_, ?_, fun old inside slash => ?_⟩
    · rw [applied.slashed_eq named, listed]
      exact record.recorded other
    · rw [listed]
      exact record.distinct
    · rcases List.mem_append.mp inside with earlier | last
      · exact record.convicting old earlier slash
      · exact absurd slash (List.mem_singleton.mp last ▸ named)

@[simp] theorem applyBlockPre_slashed
    (config : Config)
    (block : Block)
    (state : LedgerState) :
    (applyBlockPre config block state).slashed = state.slashed := by
  rw [applyBlockPre_eq]
  rfl

/-- The hook before a block leaves the record alone. -/
theorem SlashRecord.opened
    {history : List Transaction}
    (record : SlashRecord history before)
    (config : Config)
    (block : Block) :
    SlashRecord history (applyBlockPre config block before) := by
  refine ⟨fun offense => ?_, record.distinct, record.convicting⟩
  rw [applyBlockPre_slashed]
  exact record.recorded offense

/-- The record of a reachable chain. -/
theorem ProofOfStakeChain.Reachable.slashRecord
    {args : GenesisArgs}
    {chain : ProofOfStakeChain}
    (reachable : ProofOfStakeChain.Reachable args chain) :
    SlashRecord chain.history chain.state := by
  refine reachable.traces SlashRecord ?_ ?_ ?_
  · intro chain initialised
    obtain ⟨_, _, _, _, _, _, _, state, _⟩ :=
      (ProofOfStakeChain.init_eq_ok args chain).mp initialised
    rw [state]
    exact ⟨fun _ => Iff.rfl, List.nodup_nil, by rintro _ ⟨⟩⟩
  · intro config block history state record
    exact record.opened config block
  · intro config block justifiedParent history before tx after record _ _ applied
    exact record.extend applied

/-- The record in the middle of a block. -/
theorem SlashRecord.applyTxs
    {history earlier : List Transaction}
    {state : LedgerState}
    (record : SlashRecord history before)
    (ran : applyTxs config block justifiedParent (applyBlockPre config block before) earlier =
      .ok state) :
    SlashRecord (history ++ earlier) state := by
  refine applyTxs_traces (fun done state => SlashRecord (history ++ done) state) ?_ ?_ ran
  · intro done tx later _ middle next holds _ _ applied
    rw [← List.append_assoc]
    exact holds.extend applied
  · rw [List.append_nil]
    exact record.opened config block

end

end Mindees
