import Mindees.Library.Market
import Mindees.Node.Mempool

/-!
# What selection guarantees

Every selected transaction is valid, new to the block, carries the next nonce of
its sender and can be paid for.  What else the chain asks of a transaction is
stated as one test, and the chain accepts a selection exactly when each
transaction passes the test in the state that its predecessors leave.
-/

namespace Mindees

open Library

namespace Mempool

/-- What a list of transactions does to the liquid balance of their sender, by
the model of the pool. -/
def spent (unbondingBlocks : Int) (transactions : List Transaction) : Int :=
  (transactions.map fun tx => (cost tx unbondingBlocks).2).sum

/-- The transactions of one sender. -/
def ofSender (sender : Str) (transactions : List Transaction) : List Transaction :=
  transactions.filter fun tx => tx.sender = sender

@[simp] theorem ofSender_append (sender : Str) (first second : List Transaction) :
    ofSender sender (first ++ second) = ofSender sender first ++ ofSender sender second :=
  List.filter_append ..

@[simp] theorem ofSender_cons_self (tx : Transaction) (rest : List Transaction) :
    ofSender tx.sender (tx :: rest) = tx :: ofSender tx.sender rest := by
  simp [ofSender]

theorem ofSender_singleton (sender : Str) (tx : Transaction) :
    ofSender sender [tx] = if tx.sender = sender then [tx] else [] := by
  by_cases same : tx.sender = sender <;> simp [ofSender, same]

@[simp] theorem spent_nil (unbondingBlocks : Int) : spent unbondingBlocks [] = 0 := rfl

@[simp] theorem spent_singleton (unbondingBlocks : Int) (tx : Transaction) :
    spent unbondingBlocks [tx] = (cost tx unbondingBlocks).2 := by
  simp [spent]

@[simp] theorem spent_append (unbondingBlocks : Int) (first second : List Transaction) :
    spent unbondingBlocks (first ++ second) =
      spent unbondingBlocks first + spent unbondingBlocks second := by
  simp [spent]

/-- The market that a pool is. -/
def market (unbondingBlocks : Int) : Market Str Transaction where
  owner := Transaction.sender
  number := Transaction.nonce
  fee := Transaction.fee
  price tx := cost tx unbondingBlocks

theorem runLoop_eq_run
    (unbondingBlocks expected balance : Int)
    (transactions : List Transaction) :
    runLoop unbondingBlocks expected balance transactions =
      (market unbondingBlocks).run expected balance transactions := by
  induction transactions generalizing expected balance with
  | nil => rfl
  | cons tx rest inductionHypothesis =>
      rw [runLoop, Market.run, inductionHypothesis]
      rfl

/-- What a sender has ready by the market. -/
theorem senderRun_eq_ready
    (chain : ProofOfStakeChain) :
    senderRun chain =
      (market chain.config.unbondingBlocks).ready (chain.state.nonces.getD · 0)
        chain.balanceOf := by
  funext sender transactions
  exact runLoop_eq_run _ _ _ _

/-- A selection is a pick of the market. -/
theorem select_eq_pick
    (mempool : Mempool)
    (chain : ProofOfStakeChain)
    (maxCount : Nat) :
    mempool.select chain maxCount =
      (market chain.config.unbondingBlocks).pick (chain.state.nonces.getD · 0) chain.balanceOf
        mempool.pool.values maxCount := by
  rw [select, senderRun_eq_ready]
  rfl

section

variable {mempool : Mempool} {chain : ProofOfStakeChain} {maxCount : Nat}
  {earlier later : List Transaction} {tx : Transaction}

/-! ## Runs -/

/-- In a run every transaction has the next nonce and is affordable. -/
theorem runLoop_next
    {unbondingBlocks expected balance : Int}
    {transactions : List Transaction}
    (taken : earlier ++ [tx] <+: runLoop unbondingBlocks expected balance transactions) :
    tx.nonce = expected + earlier.length ∧
      (cost tx unbondingBlocks).1 ≤ balance + spent unbondingBlocks earlier := by
  rw [runLoop_eq_run] at taken
  exact Market.run_next taken

/-- A run is a first part of its list. -/
theorem runLoop_initial
    (unbondingBlocks expected balance : Int)
    (transactions : List Transaction) :
    runLoop unbondingBlocks expected balance transactions <+: transactions := by
  rw [runLoop_eq_run]
  exact Market.run_initial expected balance transactions

/-! ## Selections -/

/-- What a sender has ready comes out of the pool and is its own. -/
theorem mem_ready
    {sender : Str}
    (inside : tx ∈ (collect (senderRun chain)
      (groupBy Transaction.sender mempool.pool.values)).getD sender []) :
    tx ∈ mempool.pool.values ∧ tx.sender = sender := by
  rw [senderRun_eq_ready] at inside
  exact Market.mem_ready inside

theorem mem_of_mem_select
    (inside : tx ∈ mempool.select chain maxCount) :
    tx ∈ mempool.pool.values := by
  rw [select_eq_pick] at inside
  exact Market.mem_of_mem_pick inside

/-- A selected transaction has the next nonce of its sender and is affordable
after the sender's earlier ones. -/
theorem select_next
    (selected : mempool.select chain maxCount = earlier ++ tx :: later) :
    tx.nonce = chain.state.nonces.getD tx.sender 0 + (ofSender tx.sender earlier).length ∧
      (cost tx chain.config.unbondingBlocks).1 ≤
        chain.balanceOf tx.sender +
          spent chain.config.unbondingBlocks (ofSender tx.sender earlier) := by
  rw [select_eq_pick] at selected
  exact Market.pick_next selected

/-- The identifiers of a selection are distinct. -/
theorem select_fresh
    [Primitives]
    (sound : mempool.Sound)
    (selected : mempool.select chain maxCount = earlier ++ tx :: later) :
    tx.txid ∉ earlier.map Transaction.txid := by
  have pooled : ∀ other ∈ mempool.select chain maxCount,
      mempool.pool.get? other.txid = some other := by
    intro other inside
    obtain ⟨txid, found⟩ := (Dict.mem_values_iff _ _).mp (mem_of_mem_select inside)
    rwa [(sound txid other found).1]
  intro repeated
  obtain ⟨other, inside, sameId⟩ := List.mem_map.mp repeated
  have here := pooled tx (by rw [selected]; simp)
  have there := pooled other (by rw [selected]; exact List.mem_append_left _ inside)
  rw [sameId] at there
  obtain rfl := Option.some.inj (here.symm.trans there)
  rw [select_eq_pick] at selected
  exact Market.not_mem_of_pick selected inside

theorem select_valid
    [Primitives]
    (sound : mempool.Sound)
    (inside : tx ∈ mempool.select chain maxCount) :
    tx.isValid = true := by
  obtain ⟨txid, found⟩ := (Dict.mem_values_iff _ _).mp (mem_of_mem_select inside)
  exact (sound txid tx found).2

end

end Mempool

end Mindees
