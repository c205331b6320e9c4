import Mindees.Consensus.History

/-!
# The base chain

The chain without stake, votes or slashes: every transaction is a payment and
anyone may produce a block.  The payments of the proof-of-stake chain are its
payments.
-/

namespace Mindees

open Library

/-- Balances and nonces. -/
structure Accounts where
  balances : Dict Str Int
  nonces : Dict Str Int

/-- A chain with the accounts of its head. -/
structure Blockchain where
  accounts : Accounts
  chain : List Block
  nonempty : chain ≠ []

namespace Blockchain

/-- The newest block. -/
def head (chain : Blockchain) : Block := chain.chain.getLast chain.nonempty

/-- The transactions of a chain, oldest first. -/
def history (chain : Blockchain) : List Transaction := chain.chain.flatMap Block.transactions

section

variable [Primitives]

/-- The chain constructor. -/
def init (allocations : Dict Str Int) (timestamp : Int := 0) : Except Error Blockchain := do
  checkAllocations allocations
  pure
    { accounts := { balances := allocations, nonces := allocations.mapValues fun _ => 0 }
      chain := [genesisBlock timestamp]
      nonempty := by simp }

omit [Primitives] in
/-- A payment. -/
def applyTx (block : Block) (accounts : Accounts) (tx : Transaction) :
    Except Error Accounts := do
  let cost := tx.amount + tx.fee
  rejectIf (accounts.balances.getD tx.sender 0 < cost)
    s!"insufficient funds for {text tx.sender}"
  let balances := credit accounts.balances tx.sender (-cost)
  let balances := credit balances tx.recipient tx.amount
  let balances := credit balances block.validator tx.fee
  let nonces := accounts.nonces.set tx.sender (tx.nonce + 1)
  let nonces := nonces.setDefault tx.recipient (nonces.getD tx.recipient 0)
  pure { balances, nonces }

/-- The checks every transaction of a block passes first, and its effect. -/
def applyNext
    (block : Block)
    (progress : List Str × Accounts)
    (tx : Transaction) : Except Error (List Str × Accounts) := do
  let (seen, accounts) := progress
  rejectIf (tx.txid ∈ seen) "duplicate transaction in block"
  rejectIf (tx.isValid = false) s!"invalid signature/shape for tx {text tx.txid}"
  let expected := accounts.nonces.getD tx.sender 0
  rejectIf (expected ≠ tx.nonce)
    s!"bad nonce for {text tx.sender}: expected {expected}, got {tx.nonce}"
  let after ← applyTx block accounts tx
  pure (tx.txid :: seen, after)

/-- Validate a block and compute the accounts to commit. -/
def apply (chain : Blockchain) (block : Block) : Except Error Accounts := do
  rejectIf (block.previousHash ≠ chain.head.hash) "previous_hash mismatch"
  rejectIf (block.index ≠ chain.head.index + 1) "non-sequential block index"
  rejectIf (block.merkleRoot ≠ merkleRoot (block.transactions.map Transaction.txid))
    "merkle root mismatch"
  let (_, after) ← block.transactions.foldlM (applyNext block) ([], chain.accounts)
  rejectIf (total after.balances ≠ MAX_SUPPLY_UNITS) "supply conservation violated"
  pure after

/-- Validate and append a block. -/
def submitBlock (chain : Blockchain) (block : Block) : Except Error Blockchain := do
  let accounts ← chain.apply block
  pure { accounts, chain := chain.chain ++ [block], nonempty := by simp }

/-- The chains that accepted blocks lead to from a genesis. -/
inductive Reachable (allocations : Dict Str Int) (timestamp : Int) : Blockchain → Prop
  | genesis {chain : Blockchain} :
      init allocations timestamp = .ok chain → Reachable allocations timestamp chain
  | block {before after : Blockchain} {block : Block} :
      Reachable allocations timestamp before → before.submitBlock block = .ok after →
      Reachable allocations timestamp after

/-! ## What a block does -/

omit [Primitives] in
theorem applyTx_eq_ok
    (block : Block)
    (accounts after : Accounts)
    (tx : Transaction) :
    applyTx block accounts tx = .ok after ↔
      tx.amount + tx.fee ≤ accounts.balances.getD tx.sender 0 ∧
      { balances :=
          credit (credit (credit accounts.balances tx.sender (-(tx.amount + tx.fee)))
            tx.recipient tx.amount) block.validator tx.fee
        nonces :=
          (accounts.nonces.set tx.sender (tx.nonce + 1)).setDefault tx.recipient
            ((accounts.nonces.set tx.sender (tx.nonce + 1)).getD tx.recipient 0) } = after := by
  simp only [applyTx, rejectIf, bind_eq_ok, raiseIf_eq_ok, pure_eq_ok, exists_unit, not_lt]

omit [Primitives] in
/-- The payments of the proof-of-stake chain are those of the base chain. -/
theorem applyPayment_eq_applyTx
    (block : Block)
    (state : LedgerState)
    (tx : Transaction) :
    applyPayment block state tx =
      (applyTx block { balances := state.balances, nonces := state.nonces } tx).map
        fun accounts =>
          { state with balances := accounts.balances, nonces := accounts.nonces } := by
  simp only [applyPayment, applyTx]
  cases rejectIf (state.balances.getD tx.sender 0 < tx.amount + tx.fee)
    s!"insufficient funds for {text tx.sender}" <;> rfl

/-- Everything that an accepted block has passed, and what it leads to. -/
theorem submitBlock_eq_ok
    (before after : Blockchain)
    (block : Block) :
    before.submitBlock block = .ok after ↔
      block.previousHash = before.head.hash ∧
      block.index = before.head.index + 1 ∧
      block.merkleRoot = merkleRoot (block.transactions.map Transaction.txid) ∧
      (∃ seen, block.transactions.foldlM (applyNext block) ([], before.accounts) =
        .ok (seen, after.accounts)) ∧
      total after.accounts.balances = MAX_SUPPLY_UNITS ∧
      after.chain = before.chain ++ [block] := by
  obtain ⟨accounts, blocks, nonempty⟩ := after
  simp only [submitBlock, apply, rejectIf, bind_eq_ok, raiseIf_eq_ok, pure_eq_ok, exists_unit,
    Prod.exists, Blockchain.mk.injEq, not_not, ne_eq]
  constructor
  · rintro ⟨_, ⟨previous, index, root, seen, _, ran, supply, rfl⟩, rfl, rfl⟩
    exact ⟨previous, index, root, ⟨seen, ran⟩, supply, rfl⟩
  · rintro ⟨previous, index, root, ⟨seen, ran⟩, supply, rfl⟩
    exact ⟨accounts, ⟨previous, index, root, seen, _, ran, supply, rfl⟩, rfl, rfl⟩

variable {allocations : Dict Str Int} {timestamp : Int} {chain : Blockchain}

/-- What holds at genesis and is extended by every payment holds of the history
of a reachable chain. -/
theorem Reachable.traces
    (property : List Transaction → Accounts → Prop)
    (genesis : property []
      { balances := allocations, nonces := allocations.mapValues fun _ => 0 })
    (extended : ∀ block history before tx after,
      property history before → tx.isValid = true →
      before.nonces.getD tx.sender 0 = tx.nonce →
      applyTx block before tx = .ok after → property (history ++ [tx]) after)
    (reachable : Reachable allocations timestamp chain) :
    property chain.history chain.accounts := by
  induction reachable with
  | genesis initialised =>
      simp only [init, bind_eq_ok, pure_eq_ok] at initialised
      obtain ⟨_, _, rfl⟩ := initialised
      have empty : (genesisBlock timestamp).transactions = [] := by
        simp only [genesisBlock, Block.postInit]
        split <;> rfl
      simp only [history, List.flatMap_cons, List.flatMap_nil, empty, List.append_nil]
      exact genesis
  | @block before after block _ submitted inductionHypothesis =>
      obtain ⟨_, _, _, ⟨seen, ran⟩, _, blocks⟩ := (submitBlock_eq_ok _ _ _).mp submitted
      have grown : after.history = before.history ++ block.transactions := by
        simp [history, blocks]
      rw [grown]
      refine foldlM_traces
        (fun earlier progress => property (before.history ++ earlier) progress.2) ?_ ?_ ran
      · intro earlier tx later _ middle next holds stepped
        simp only [applyNext, rejectIf, bind_eq_ok, raiseIf_eq_ok, pure_eq_ok, exists_unit,
          not_not, Bool.not_eq_false, ne_eq] at stepped
        obtain ⟨_, valid, nonce, reached, moved, rfl⟩ := stepped
        rw [← List.append_assoc]
        exact extended _ _ _ _ _ holds valid nonce moved
      · rw [List.append_nil]
        exact inductionHypothesis

end

end Blockchain

end Mindees
