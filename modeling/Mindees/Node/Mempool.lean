import Mindees.Consensus.Supply
import Mindees.Library.Queues

/-!
# The mempool

Pending transactions by identifier, with a fee market: a full pool keeps the
transactions that pay most, and selection takes the highest fee across senders
without reordering the nonces of one sender.
-/

namespace Mindees

open Library

/-- The capacity of a block. -/
def MAX_TXS_PER_BLOCK : Nat := 5000

/-- The fee floor. -/
def MIN_FEE : Int := 0

/-- The capacity of the pool. -/
def MAX_POOL_SIZE : Nat := 50000

/-- The liquid balance a transaction needs, and what it does to it. -/
def cost (tx : Transaction) (unbondingBlocks : Int) : Int × Int :=
  if tx.recipient = SLASH_SENTINEL ∨ tx.recipient = VOTE_SENTINEL then (tx.fee, -tx.fee)
  else if tx.recipient = UNSTAKE_SENTINEL then
    if 0 < unbondingBlocks then (tx.fee, -tx.fee) else (tx.fee, tx.amount - tx.fee)
  else (tx.amount + tx.fee, -(tx.amount + tx.fee))

/-- Transactions by identifier. -/
structure Mempool where
  pool : Dict Str Transaction

namespace Mempool

/-- The empty pool. -/
def init : Mempool := ⟨Dict.empty⟩

/-- `min(values, key=fee)`: the first of the cheapest. -/
def cheapest : List Transaction → Option Transaction
  | [] => none
  | first :: rest =>
      some (rest.foldl (fun best tx => if tx.fee < best.fee then tx else best) first)

/-- The contiguous affordable transactions from a nonce on. -/
def runLoop (unbondingBlocks : Int) : (expected balance : Int) → List Transaction →
    List Transaction
  | _, _, [] => []
  | expected, balance, tx :: rest =>
      -- a nonce gap, or a transaction that cannot be paid for, ends the run
      if tx.nonce ≠ expected then []
      else if balance < (cost tx unbondingBlocks).1 then []
      else
        tx :: runLoop unbondingBlocks (expected + 1) (balance + (cost tx unbondingBlocks).2) rest

/-- What one sender has ready: its transactions by nonce, as long as they follow
each other and can be paid for. -/
def senderRun (chain : ProofOfStakeChain) (sender : Str) (transactions : List Transaction) :
    List Transaction :=
  runLoop chain.config.unbondingBlocks (chain.state.nonces.getD sender 0)
    (chain.balanceOf sender)
    (transactions.insertionSort fun left right => left.nonce ≤ right.nonce)

/-- Build a fee-ordered list for a block that respects nonces and balances. -/
def select
    (mempool : Mempool)
    (chain : ProofOfStakeChain)
    (maxCount : Nat := MAX_TXS_PER_BLOCK) : List Transaction :=
  let bySender := groupBy Transaction.sender mempool.pool.values
  let ready := collect (senderRun chain) bySender
  merge ready Transaction.fee maxCount

section

variable [Primitives]

/-- Admit a transaction; the result says whether it is new. -/
def add (mempool : Mempool) (tx : Transaction) (chain : ProofOfStakeChain) :
    Except Error (Bool × Mempool) := do
  rejectIf (tx.isValid = false) "rejected: invalid signature or shape"
  rejectIf (tx.fee < MIN_FEE) s!"rejected: fee below floor {MIN_FEE}"
  rejectIf (tx.nonce < chain.state.nonces.getD tx.sender 0) "rejected: nonce already spent"
  if mempool.pool.contains tx.txid then pure (false, mempool)
  else if MAX_POOL_SIZE ≤ mempool.pool.size then
    let evicted ← require (cheapest mempool.pool.values) .valueError
    rejectIf (tx.fee ≤ evicted.fee) "rejected: mempool full and fee does not out-bid"
    pure (true, ⟨(mempool.pool.erase evicted.txid).set tx.txid tx⟩)
  else pure (true, ⟨mempool.pool.set tx.txid tx⟩)

/-- Drop what a new block consumed. -/
def update (mempool : Mempool) (chain : ProofOfStakeChain) : Mempool where
  pool := mempool.pool.filter fun _ tx =>
    decide (chain.state.nonces.getD tx.sender 0 ≤ tx.nonce) && tx.isValid

/-- Every pooled transaction is valid and filed under its identifier. -/
def Sound (mempool : Mempool) : Prop :=
  ∀ txid tx, mempool.pool.get? txid = some tx → tx.txid = txid ∧ tx.isValid = true

theorem sound_init : init.Sound := by
  intro txid tx found
  cases found

/-- An admitted transaction is in the pool. -/
theorem contains_of_add
    {mempool after : Mempool}
    {tx : Transaction}
    {chain : ProofOfStakeChain}
    {new : Bool}
    (added : mempool.add tx chain = .ok (new, after)) :
    after.pool.contains tx.txid = true := by
  simp only [Mempool.add, rejectIf, bind_eq_ok, raiseIf_eq_ok, exists_unit] at added
  obtain ⟨_, _, _, stored⟩ := added
  split_ifs at stored with known full
  · cases stored
    exact known
  · simp only [bind_eq_ok, require_eq_ok, raiseIf_eq_ok, exists_unit, pure_eq_ok,
      Prod.mk.injEq] at stored
    obtain ⟨_, _, _, _, rfl⟩ := stored
    simp
  · cases stored
    simp

/-- Whatever is offered, the pool stays sound. -/
theorem Sound.add
    {mempool after : Mempool}
    {tx : Transaction}
    {chain : ProofOfStakeChain}
    {new : Bool}
    (sound : mempool.Sound)
    (added : mempool.add tx chain = .ok (new, after)) :
    after.Sound := by
  simp only [Mempool.add, rejectIf, bind_eq_ok, raiseIf_eq_ok, exists_unit, Bool.not_eq_false]
    at added
  obtain ⟨valid, _, _, stored⟩ := added
  -- filing one more valid transaction keeps a sound pool sound
  have file : ∀ {pool : Dict Str Transaction},
      (∀ txid other, pool.get? txid = some other → mempool.pool.get? txid = some other) →
      Sound ⟨pool.set tx.txid tx⟩ := by
    intro pool part txid other found
    rw [Dict.get?_set] at found
    split_ifs at found with same
    · cases found
      exact ⟨same, valid⟩
    · exact sound txid other (part txid other found)
  split_ifs at stored with known full
  · cases stored
    exact sound
  · simp only [bind_eq_ok, require_eq_ok, raiseIf_eq_ok, exists_unit, pure_eq_ok,
      Prod.mk.injEq] at stored
    obtain ⟨evicted, _, _, _, rfl⟩ := stored
    refine file fun txid other found => ?_
    rw [Dict.get?_erase] at found
    split_ifs at found
    exact found
  · cases stored
    exact file fun _ _ found => found

theorem Sound.update
    {mempool : Mempool}
    (sound : mempool.Sound)
    (chain : ProofOfStakeChain) :
    (mempool.update chain).Sound := by
  intro txid tx found
  rw [Mempool.update, Dict.get?_filter, Option.filter_eq_some_iff] at found
  exact sound txid tx found.1

end

end Mempool

end Mindees
