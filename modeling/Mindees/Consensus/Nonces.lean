import Mindees.Consensus.Blockchain
import Mindees.Consensus.Supply

/-!
# No replay

Along a chain the transactions of a sender carry the nonces 0, 1, 2 and so on,
and the stored nonce of a sender counts them.
-/

namespace Mindees

open Library

/-! ## The nonce updates -/

section

variable [Primitives] {config : Config} {block : Block} {justifiedParent : Finset Str}
  {before after : LedgerState} {tx : Transaction}

omit [Primitives] in
theorem payFee_nonces
    (paid : payFee block before tx = .ok after) :
    after.nonces = before.nonces.set tx.sender (tx.nonce + 1) := by
  obtain ⟨_, rfl⟩ := (payFee_eq_ok block before after tx).mp paid
  rfl

omit [Primitives] in
theorem tallyLink_nonces
    (config : Config)
    (state : LedgerState)
    (link : Link) :
    (tallyLink config state link).nonces = state.nonces := by
  obtain ⟨_, _, frame⟩ := tallyLink_frame config state link
  rw [frame]

/-- Every transaction advances the nonce of its sender and no other. -/
theorem Applied.getD_nonces
    (applied : Applied config block justifiedParent before tx after)
    (address : Str) :
    after.nonces.getD address 0 =
      if tx.sender = address then tx.nonce + 1 else before.nonces.getD address 0 := by
  rw [← Dict.getD_set]
  cases applied with
  | stake _ moved _ =>
      obtain ⟨_, _, rfl⟩ := (applyStake_eq_ok _ _ _ _).mp moved
      rfl
  | unstake _ moved _ =>
      obtain ⟨_, _, _, _, _, rfl⟩ := (applyUnstake_eq_ok _ _ _ _ _).mp moved
      rfl
  | slash _ moved =>
      obtain ⟨_, _, _, _, _, _, _, _, paid, charged, rfl⟩ := (applySlash_eq_ok _ _ _ _ _).mp moved
      rw [← payFee_nonces charged]
      rfl
  | vote _ moved =>
      obtain ⟨link, _, _, _, paid, charged, rfl⟩ := (applyVote_eq_ok _ _ _ _ _ _).mp moved
      rw [tallyLink_nonces, ← payFee_nonces charged]
      rfl
  | payment _ _ _ _ moved _ =>
      obtain ⟨_, rfl⟩ := (applyPayment_eq_ok _ _ _ _).mp moved
      exact Dict.getD_setDefault_getD _ _ _ _

end

/-! ## Numbered histories -/

/-- Every sender has numbered its transactions from zero on, and the stored
nonces count them. -/
structure Numbered (history : List Transaction) (nonces : Dict Str Int) : Prop where
  consecutive : ∀ sender, (signedBy sender history).map Transaction.nonce =
    (List.range (signedBy sender history).length).map Nat.cast
  stored : ∀ sender, nonces.getD sender 0 = (signedBy sender history).length
  distinct : (history.map fun tx => (tx.sender, tx.nonce)).Nodup

namespace Numbered

theorem genesis (allocations : Dict Str Int) :
    Numbered [] (allocations.mapValues fun _ => 0) := by
  refine ⟨fun _ => rfl, fun sender => ?_, List.nodup_nil⟩
  rw [Dict.getD, Dict.get?_mapValues]
  cases allocations.get? sender <;> rfl

/-- A transaction with the stored nonce extends a numbered history. -/
theorem extend
    {history : List Transaction}
    {nonces later : Dict Str Int}
    {tx : Transaction}
    (numbered : Numbered history nonces)
    (nonce : nonces.getD tx.sender 0 = tx.nonce)
    (advanced : ∀ address, later.getD address 0 =
      if tx.sender = address then tx.nonce + 1 else nonces.getD address 0) :
    Numbered (history ++ [tx]) later := by
  have count := numbered.stored tx.sender
  refine ⟨fun sender => ?_, fun sender => ?_, ?_⟩
  · rw [signedBy_append, signedBy_singleton]
    by_cases same : tx.sender = sender
    · subst same
      rw [if_pos rfl, List.map_append, numbered.consecutive, List.length_append,
        List.length_singleton, List.range_succ, List.map_append, List.map_singleton,
        List.map_singleton, ← nonce, count]
    · rw [if_neg same, List.append_nil]
      exact numbered.consecutive sender
  · rw [advanced, signedBy_append, signedBy_singleton]
    by_cases same : tx.sender = sender
    · subst same
      rw [if_pos rfl, if_pos rfl, ← nonce, count, List.length_append, List.length_singleton]
      push_cast
      rfl
    · rw [if_neg same, if_neg same, List.append_nil]
      exact numbered.stored sender
  · rw [List.map_append, List.map_singleton, List.nodup_append]
    refine ⟨numbered.distinct, List.nodup_singleton _, ?_⟩
    intro pair old other fresh same
    obtain rfl := List.mem_singleton.mp fresh
    obtain ⟨earlier, inside, spelled⟩ := List.mem_map.mp (same ▸ old)
    obtain ⟨sender, repeated⟩ := Prod.mk.inj spelled
    -- an earlier nonce of the sender is below the number of its transactions
    have listed : earlier.nonce ∈ (signedBy tx.sender history).map Transaction.nonce :=
      List.mem_map_of_mem (mem_signedBy.mpr ⟨inside, sender⟩)
    rw [numbered.consecutive] at listed
    obtain ⟨position, below, found⟩ := List.mem_map.mp listed
    have bounded := List.mem_range.mp below
    have exact : (position : Int) = tx.nonce := found.trans repeated
    omega

end Numbered

section

variable [Primitives]

/-- The base chain numbers the transactions of every sender. -/
theorem Blockchain.Reachable.numbered
    {allocations : Dict Str Int}
    {timestamp : Int}
    {chain : Blockchain}
    (reachable : Blockchain.Reachable allocations timestamp chain) :
    Numbered chain.history chain.accounts.nonces := by
  refine reachable.traces (fun history accounts => Numbered history accounts.nonces)
    (.genesis allocations) ?_
  intro block history before tx after numbered _ nonce moved
  refine numbered.extend nonce fun address => ?_
  obtain ⟨_, rfl⟩ := (Blockchain.applyTx_eq_ok block before after tx).mp moved
  rw [← Dict.getD_set]
  exact Dict.getD_setDefault_getD _ _ _ _

/-- The proof-of-stake chain numbers the transactions of every sender, of all
kinds together. -/
theorem ProofOfStakeChain.Reachable.numbered
    {args : GenesisArgs}
    {chain : ProofOfStakeChain}
    (reachable : ProofOfStakeChain.Reachable args chain) :
    Numbered chain.history chain.state.nonces := by
  refine reachable.traces (fun history state => Numbered history state.nonces) ?_ ?_ ?_
  · intro chain initialised
    obtain ⟨_, _, _, _, _, _, _, state, _⟩ :=
      (ProofOfStakeChain.init_eq_ok args chain).mp initialised
    rw [state]
    exact .genesis args.allocations
  · intro config block history state numbered
    rw [applyBlockPre_nonces]
    exact numbered
  · intro config block justifiedParent history before tx after numbered _ nonce applied
    exact numbered.extend nonce applied.getD_nonces

/-- No replay, on the base chain and on the proof-of-stake chain: the nonces of a
sender, in chain order, are 0, 1, 2 and so on, the stored nonce counts them, and
no pair of a sender and a nonce occurs twice, so that no transaction does. -/
theorem no_replay :
    (∀ allocations timestamp chain, Blockchain.Reachable allocations timestamp chain →
      Numbered chain.history chain.accounts.nonces ∧ chain.history.Nodup) ∧
    ∀ args chain, ProofOfStakeChain.Reachable args chain →
      Numbered chain.history chain.state.nonces ∧ chain.history.Nodup := by
  constructor
  · intro allocations timestamp chain reachable
    exact ⟨reachable.numbered, reachable.numbered.distinct.of_map _⟩
  · intro args chain reachable
    exact ⟨reachable.numbered, reachable.numbered.distinct.of_map _⟩

end

section

attribute [local instance] Symbolic.primitives

/-- A payment and an unstake of one founder carry its nonces 0 and 1. -/
theorem no_replay_sample :
    (signedBy (Symbolic.wallet 1).address Sample.chain.history).map Transaction.nonce = [0, 1] ∧
      Sample.chain.history.Nodup := by
  obtain ⟨numbered, distinct⟩ := no_replay.2 Sample.args Sample.chain Sample.reachable
  have two : (signedBy (Symbolic.wallet 1).address Sample.chain.history).length = 2 := by
    decide +kernel
  rw [numbered.consecutive, two]
  exact ⟨rfl, distinct⟩

end

end Mindees
