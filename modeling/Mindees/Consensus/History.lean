import Mindees.Consensus.Effects

/-!
# The history of a chain

The transactions of a chain in order, and what every reachable chain can say
about all of them together.
-/

namespace Mindees

open Library

/-- The transactions that an address signs. -/
def signedBy (address : Str) (transactions : List Transaction) : List Transaction :=
  transactions.filter fun tx => tx.sender = address

@[simp] theorem signedBy_nil (address : Str) : signedBy address [] = [] := rfl

theorem signedBy_append
    (address : Str)
    (left right : List Transaction) :
    signedBy address (left ++ right) = signedBy address left ++ signedBy address right :=
  List.filter_append ..

theorem signedBy_singleton
    (address : Str)
    (tx : Transaction) :
    signedBy address [tx] = if tx.sender = address then [tx] else [] := by
  by_cases same : tx.sender = address <;> simp [signedBy, same]

theorem mem_signedBy
    {address : Str}
    {transactions : List Transaction}
    {tx : Transaction} :
    tx ∈ signedBy address transactions ↔ tx ∈ transactions ∧ tx.sender = address := by
  rw [signedBy, List.mem_filter, decide_eq_true_eq]

namespace ProofOfStakeChain

/-- The transactions of a chain, oldest first. -/
def history (chain : ProofOfStakeChain) : List Transaction :=
  chain.chain.flatMap Block.transactions

section

variable [Primitives] {args : GenesisArgs} {chain : ProofOfStakeChain}

theorem history_submitBlock
    {before after : ProofOfStakeChain}
    {block : Block}
    (submitted : before.submitBlock block = .ok after) :
    after.history = before.history ++ block.transactions := by
  rw [history, (submitted_of_submitBlock submitted).blocks, List.flatMap_append]
  simp [history]

theorem history_init
    (initialised : init args = .ok chain) :
    chain.history = [] := by
  obtain ⟨_, _, _, _, _, _, _, _, blocks⟩ := (init_eq_ok args chain).mp initialised
  rw [history, blocks]
  simp only [genesisBlock, Block.postInit]
  split <;> rfl

/-- What holds at genesis, survives the hook before each block and is extended
by every transaction, holds of the history of a reachable chain. -/
theorem Reachable.traces
    (property : List Transaction → LedgerState → Prop)
    (genesis : ∀ chain, init args = .ok chain → property [] chain.state)
    (opened : ∀ config block history state,
      property history state → property history (applyBlockPre config block state))
    (extended : ∀ config block justifiedParent history before tx after,
      property history before → tx.isValid = true →
      before.nonces.getD tx.sender 0 = tx.nonce →
      Applied config block justifiedParent before tx after → property (history ++ [tx]) after)
    (reachable : Reachable args chain) :
    property chain.history chain.state := by
  induction reachable with
  | @genesis chain initialised =>
      rw [history_init initialised]
      exact genesis chain initialised
  | @block before after block _ submitted inductionHypothesis =>
      rw [history_submitBlock submitted]
      refine applyTxs_traces (fun earlier state => property (before.history ++ earlier) state)
        ?_ ?_ (submitted_of_submitBlock submitted).ran
      · intro earlier tx later _ middle next holds valid nonce applied
        rw [← List.append_assoc]
        exact extended _ _ _ _ _ _ _ holds valid nonce applied
      · rw [List.append_nil]
        exact opened _ _ _ _ inductionHypothesis

end

end ProofOfStakeChain

end Mindees
