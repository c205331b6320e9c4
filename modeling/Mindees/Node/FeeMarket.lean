import Mindees.Library.Runs
import Mindees.Node.Selection

/-!
# Selection as a fee market

The market takes, at every position, the highest fee among the transactions that
could come next.  The code takes the transactions of one sender by nonce, in the
order of insertion among equal ones, and stops at the first that does not come
next; it is the market exactly when this order never hides a transaction that
pays more.
-/

namespace Mindees

open Library

namespace Mempool

/-- A transaction that its sender can make after other transactions of its own:
it has the next nonce, and the balance covers it. -/
def Next (chain : ProofOfStakeChain) (made : List Transaction) (tx : Transaction) : Prop :=
  tx.nonce = chain.state.nonces.getD tx.sender 0 + made.length ∧
    (cost tx chain.config.unbondingBlocks).1 ≤
      chain.balanceOf tx.sender + spent chain.config.unbondingBlocks made

/-- A pool transaction that can come after a selection. -/
def Available
    (mempool : Mempool)
    (chain : ProofOfStakeChain)
    (selected : List Transaction)
    (tx : Transaction) : Prop :=
  tx ∈ mempool.pool.values ∧ Next chain (ofSender tx.sender selected) tx

instance (chain : ProofOfStakeChain) (made : List Transaction) (tx : Transaction) :
    Decidable (Next chain made tx) :=
  inferInstanceAs (Decidable (_ ∧ _))

instance
    (mempool : Mempool)
    (chain : ProofOfStakeChain)
    (selected : List Transaction)
    (tx : Transaction) :
    Decidable (mempool.Available chain selected tx) :=
  inferInstanceAs (Decidable (_ ∧ _))

/-- Each selected transaction is available at its position and pays the highest
fee among those that are, and the selection ends when it is full or nothing is
available. -/
def FeeMarket (mempool : Mempool) (chain : ProofOfStakeChain) (maxCount : Nat) : Prop :=
  (∀ earlier tx later, mempool.select chain maxCount = earlier ++ tx :: later →
    mempool.Available chain earlier tx ∧
      ∀ other, mempool.Available chain earlier other → other.fee ≤ tx.fee) ∧
  ((mempool.select chain maxCount).length < maxCount →
    ∀ other, ¬mempool.Available chain (mempool.select chain maxCount) other)

/-- The pool transactions of a sender by nonce, equal nonces in the order of
insertion. -/
def queue (mempool : Mempool) (sender : Str) : List Transaction :=
  (ofSender sender mempool.pool.values).insertionSort fun left right => left.nonce ≤ right.nonce

/-- Every transaction of the list can be made after those before it. -/
def InOrder (chain : ProofOfStakeChain) (transactions : List Transaction) : Prop :=
  ∀ earlier tx later, transactions = earlier ++ tx :: later → Next chain earlier tx

/-- After any first part of a queue that is in order, if some transaction of the
queue can be made, then the following one can, and pays at least as much. -/
def Unobstructed (mempool : Mempool) (chain : ProofOfStakeChain) : Prop :=
  ∀ sender made rest, mempool.queue sender = made ++ rest → InOrder chain made →
    ∀ other ∈ mempool.queue sender, Next chain made other →
      ∃ tx later, rest = tx :: later ∧ Next chain made tx ∧ other.fee ≤ tx.fee

/-- The pools that admissions lead to, each against some chain. -/
inductive Built [Primitives] : Mempool → Prop
  | init : Built init
  | add {mempool after : Mempool} {tx : Transaction} {chain : ProofOfStakeChain} {new : Bool} :
      Built mempool → mempool.add tx chain = .ok (new, after) → Built after

theorem Built.sound [Primitives] {mempool : Mempool} (built : mempool.Built) :
    mempool.Sound := by
  induction built with
  | init => exact sound_init
  | add _ added inductionHypothesis => exact inductionHypothesis.add added

section

variable {mempool : Mempool} {chain : ProofOfStakeChain} {maxCount : Nat} {sender : Str}
  {earlier later : List Transaction} {tx other : Transaction}

theorem mem_queue_iff :
    tx ∈ mempool.queue sender ↔ tx ∈ mempool.pool.values ∧ tx.sender = sender := by
  rw [queue, List.mem_insertionSort, ofSender, List.mem_filter, decide_eq_true_iff]

/-! ## The run of a sender -/

/-- What a sender has ready. -/
def ready (mempool : Mempool) (chain : ProofOfStakeChain) (sender : Str) : List Transaction :=
  runLoop chain.config.unbondingBlocks (chain.state.nonces.getD sender 0)
    (chain.balanceOf sender) (mempool.queue sender)

/-- A first part of a list in which every transaction continues the run is a
first part of the run. -/
theorem prefix_runLoop
    {unbondingBlocks expected balance : Int}
    {made transactions : List Transaction}
    (inside : made <+: transactions)
    (continues : ∀ earlier tx later, made = earlier ++ tx :: later →
      tx.nonce = expected + earlier.length ∧
        (cost tx unbondingBlocks).1 ≤ balance + spent unbondingBlocks earlier) :
    made <+: runLoop unbondingBlocks expected balance transactions := by
  induction transactions generalizing made expected balance with
  | nil =>
      rw [List.prefix_nil.mp inside]
      exact List.nil_prefix
  | cons first rest inductionHypothesis =>
      cases made with
      | nil => exact List.nil_prefix
      | cons tx made =>
          obtain ⟨rfl, onward⟩ := List.cons_prefix_cons.mp inside
          obtain ⟨nonce, affordable⟩ := continues [] tx made rfl
          rw [List.length_nil, Nat.cast_zero, add_zero] at nonce
          rw [spent_nil, add_zero] at affordable
          rw [runLoop, if_neg (not_not.mpr nonce), if_neg (not_lt.mpr affordable)]
          refine List.cons_prefix_cons.mpr ⟨rfl, inductionHypothesis onward ?_⟩
          intro earlier other later split
          obtain ⟨next, covered⟩ := continues (tx :: earlier) other later (by rw [split]; rfl)
          rw [List.length_cons] at next
          rw [spent, List.map_cons, List.sum_cons, ← spent] at covered
          push_cast at next
          exact ⟨by omega, by omega⟩

/-- What is ready is the longest first part of the queue that is in order. -/
theorem prefix_ready_iff
    {made : List Transaction} :
    made <+: mempool.ready chain sender ↔
      made <+: mempool.queue sender ∧ InOrder chain made := by
  have own : ∀ earlier tx later, made <+: mempool.queue sender →
      made = earlier ++ tx :: later → tx.sender = sender := by
    intro earlier tx later inside split
    exact (mem_queue_iff.mp (inside.subset (by rw [split]; simp))).2
  constructor
  · intro taken
    have inside := taken.trans (runLoop_initial _ _ _ _)
    refine ⟨inside, fun earlier tx later split => ?_⟩
    obtain rfl := own earlier tx later inside split
    refine runLoop_next (List.IsPrefix.trans ?_ taken)
    rw [split]
    exact ⟨later, by simp⟩
  · rintro ⟨inside, inOrder⟩
    refine prefix_runLoop inside fun earlier tx later split => ?_
    obtain rfl := own earlier tx later inside split
    exact inOrder earlier tx later split

/-- The queues that are merged are what the senders have ready. -/
theorem getD_ready
    (mempool : Mempool)
    (chain : ProofOfStakeChain)
    (sender : Str) :
    (collect (senderRun chain) (groupBy Transaction.sender mempool.pool.values)).getD sender [] =
      mempool.ready chain sender := by
  rw [getD_collect]
  have group := getD_groupBy Transaction.sender mempool.pool.values sender
  rw [Dict.getD] at group
  rw [ready, queue, ofSender, ← group]
  cases (groupBy Transaction.sender mempool.pool.values).get? sender <;> rfl

/-! ## Selections and runs -/

theorem ready_owned (mempool : Mempool) (chain : ProofOfStakeChain) (sender : Str) :
    ∀ tx ∈ (collect (senderRun chain)
      (groupBy Transaction.sender mempool.pool.values)).getD sender [], tx.sender = sender := by
  intro tx inside
  exact (mem_ready inside).2

theorem ready_nonneg
    [Primitives]
    (sound : mempool.Sound)
    (chain : ProofOfStakeChain)
    (sender : Str) :
    ∀ tx ∈ (collect (senderRun chain)
      (groupBy Transaction.sender mempool.pool.values)).getD sender [], 0 ≤ tx.fee := by
  intro tx inside
  obtain ⟨txid, found⟩ := (Dict.mem_values_iff _ _).mp (mem_ready inside).1
  exact (Transaction.isValid.units (sound txid tx found).2).2.1

/-- What is selected of a sender is a first part of what it has ready. -/
theorem ofSender_select_ready
    (selected : mempool.select chain maxCount = earlier ++ later) :
    ofSender sender earlier <+: mempool.ready chain sender := by
  have merged := filter_merge Transaction.fee (mempool.ready_owned chain) maxCount sender
  rw [getD_ready] at merged
  refine List.IsPrefix.trans ?_ merged
  change _ <+: ofSender sender (mempool.select chain maxCount)
  rw [selected, ofSender_append]
  exact List.prefix_append _ _

/-- A selected transaction pays at least what any sender has ready next. -/
theorem fee_le_of_ready
    [Primitives]
    (sound : mempool.Sound)
    (selected : mempool.select chain maxCount = earlier ++ tx :: later)
    (waiting : (mempool.ready chain sender)[(ofSender sender earlier).length]? = some other) :
    other.fee ≤ tx.fee := by
  rw [← getD_ready] at waiting
  exact merge_best (mempool.ready_owned chain) (ready_nonneg sound chain) selected waiting

/-- A selection that is not full has all that the senders have ready. -/
theorem ofSender_select_of_room
    [Primitives]
    (sound : mempool.Sound)
    (room : (mempool.select chain maxCount).length < maxCount)
    (sender : Str) :
    ofSender sender (mempool.select chain maxCount) = mempool.ready chain sender := by
  rw [← getD_ready]
  exact filter_merge_of_room (mempool.ready_owned chain) (ready_nonneg sound chain) room sender

/-- A selection has no more transactions than the pool. -/
theorem length_select_le
    [Primitives]
    (sound : mempool.Sound)
    (chain : ProofOfStakeChain)
    (maxCount : Nat) :
    (mempool.select chain maxCount).length ≤ mempool.pool.size := by
  have nodup : (mempool.select chain maxCount).Nodup := by
    refine nodup_of_splits fun earlier tx later selected repeated => ?_
    exact select_fresh sound selected (List.mem_map.mpr ⟨tx, repeated, rfl⟩)
  have few := (nodup.subperm fun tx inside => mem_of_mem_select inside).length_le
  rwa [Dict.values, List.length_map] at few

/-! ## The market -/

/-- A transaction that is alone in the pool and next for its sender is selected. -/
theorem select_alone
    [Primitives]
    (sound : mempool.Sound)
    (alone : mempool.pool.values = [tx])
    (next : Next chain [] tx)
    (room : 1 < maxCount) :
    mempool.select chain maxCount = [tx] := by
  have size : mempool.pool.size = 1 := by
    have listed := congrArg List.length alone
    rwa [Dict.values, List.length_map] at listed
  have few := size ▸ length_select_le sound chain maxCount
  have queued : mempool.queue tx.sender = [tx] := by
    rw [queue, alone, ofSender_singleton, if_pos rfl]
    rfl
  have inOrder : InOrder chain [tx] := by
    intro earlier other later split
    obtain ⟨rfl, rest⟩ | ⟨_, rfl, rest⟩ := List.cons_eq_append_iff.mp split
    · cases rest
      exact next
    · simp at rest
  have ready : [tx] <+: mempool.ready chain tx.sender :=
    prefix_ready_iff.mpr ⟨by rw [queued], inOrder⟩
  rw [← ofSender_select_of_room sound (few.trans_lt room)] at ready
  have kept : [tx].Sublist (mempool.select chain maxCount) :=
    ready.sublist.trans List.filter_sublist
  exact (kept.eq_of_length_le few).symm

/-- In an unobstructed pool something at least as good as an available
transaction is ready. -/
theorem Unobstructed.ready
    (unobstructed : mempool.Unobstructed chain)
    (selected : mempool.select chain maxCount = earlier ++ later)
    (available : mempool.Available chain earlier other) :
    ∃ tx, (mempool.ready chain other.sender)[(ofSender other.sender earlier).length]? = some tx ∧
      other.fee ≤ tx.fee := by
  obtain ⟨inside, inOrder⟩ := prefix_ready_iff.mp (ofSender_select_ready selected)
  obtain ⟨rest, split⟩ := inside
  obtain ⟨tx, more, rfl, next, pays⟩ := unobstructed other.sender _ rest split.symm inOrder other
    (mem_queue_iff.mpr ⟨available.1, rfl⟩) available.2
  refine ⟨tx, ?_, pays⟩
  have longer : ofSender other.sender earlier ++ [tx] <+: mempool.ready chain other.sender := by
    refine prefix_ready_iff.mpr ⟨⟨more, by rw [← split]; simp⟩, ?_⟩
    exact (forall_split_concat (fun before tx _ => Next chain before tx) _ tx).mpr ⟨inOrder, next⟩
  obtain ⟨_, taken⟩ := longer
  rw [← taken]
  simp

theorem Unobstructed.feeMarket
    [Primitives]
    (unobstructed : mempool.Unobstructed chain)
    (sound : mempool.Sound)
    (maxCount : Nat) :
    mempool.FeeMarket chain maxCount := by
  constructor
  · intro earlier tx later selected
    refine ⟨⟨mem_of_mem_select (by rw [selected]; simp), select_next selected⟩, ?_⟩
    intro other available
    obtain ⟨best, waiting, pays⟩ := unobstructed.ready selected available
    exact pays.trans (fee_le_of_ready sound selected waiting)
  · intro room other available
    obtain ⟨best, waiting, _⟩ := unobstructed.ready (List.append_nil _).symm available
    rw [ofSender_select_of_room sound room, List.getElem?_length] at waiting
    cases waiting

/-- A selection with room for the whole pool shows every obstruction. -/
theorem FeeMarket.unobstructed
    [Primitives]
    (sound : mempool.Sound)
    (enough : mempool.pool.size < maxCount)
    (market : mempool.FeeMarket chain maxCount) :
    mempool.Unobstructed chain := by
  intro sender made rest split inOrder other inside next
  have room := (length_select_le sound chain maxCount).trans_lt enough
  have taken : made <+: mempool.ready chain sender :=
    prefix_ready_iff.mpr ⟨⟨rest, split.symm⟩, inOrder⟩
  obtain ⟨pooled, rfl⟩ := mem_queue_iff.mp inside
  obtain ⟨more, whole⟩ := taken
  have selected := ofSender_select_of_room sound room other.sender
  rw [← whole] at selected
  cases more with
  | nil =>
      rw [List.append_nil] at selected
      refine absurd ⟨pooled, ?_⟩ (market.2 room other)
      rw [selected]
      exact next
  | cons tx more =>
      -- the position at which the selection goes on with this sender
      obtain ⟨first, second, parts, before, after⟩ := List.filter_eq_append_iff.mp selected
      obtain ⟨between, later, rfl, others, own, _⟩ := List.filter_eq_cons_iff.mp after
      rw [← List.append_assoc] at parts
      have same : ofSender other.sender (first ++ between) = made := by
        rw [ofSender_append, ofSender, before, ofSender, List.filter_eq_nil_iff.mpr others,
          List.append_nil]
      obtain ⟨available, best⟩ := market.1 _ tx later parts
      obtain ⟨tail, ends⟩ := runLoop_initial chain.config.unbondingBlocks
        (chain.state.nonces.getD other.sender 0) (chain.balanceOf other.sender)
        (mempool.queue other.sender)
      refine ⟨tx, more ++ tail, ?_, ?_, best other ⟨pooled, ?_⟩⟩
      · change mempool.ready chain other.sender ++ tail = _ at ends
        rw [← whole, split, List.append_assoc] at ends
        exact (List.append_cancel_left ends).symm
      · have nextOwn := available.2
        rwa [of_decide_eq_true own, same] at nextOwn
      · rw [same]
        exact next

/-- Selection is the fee market at every capacity exactly when the order of the
queues hides nothing. -/
theorem Built.feeMarket_iff
    [Primitives]
    (built : mempool.Built)
    (chain : ProofOfStakeChain) :
    (∀ maxCount, mempool.FeeMarket chain maxCount) ↔ mempool.Unobstructed chain := by
  constructor
  · intro market
    exact (market (mempool.pool.size + 1)).unobstructed built.sound (Nat.lt_succ_self _)
  · intro unobstructed maxCount
    exact unobstructed.feeMarket built.sound maxCount

end

end Mempool

/-! ## A reused nonce -/

namespace FeeMarketSample

open ProofOfStakeChain Mempool

attribute [local instance] Symbolic.primitives

/-- A chain, a pool and a transaction of the pool. -/
structure Scene where
  chain : ProofOfStakeChain
  mempool : Mempool
  tx : Transaction

/-- One sender offers two transactions with its next nonce and one with the
nonce after it. -/
def stage : Except Error Scene := do
  let chain ← init Sample.args
  let sender := Symbolic.wallet 1
  let first ← paymentTx sender (Symbolic.wallet 2).address 10 5 0 0
  let again ← paymentTx sender (Symbolic.wallet 2).address 20 1 0 0
  let tx ← paymentTx sender (Symbolic.wallet 2).address 30 3 1 0
  let (_, one) ← Mempool.init.add first chain
  let (_, two) ← one.add again chain
  let (_, mempool) ← two.add tx chain
  raiseIf (MAX_TXS_PER_BLOCK ≤ (mempool.select chain).length ∨
    ¬mempool.Available chain (mempool.select chain) tx) Error.valueError
  pure { chain, mempool, tx }

theorem staged : succeeded stage = true := by decide +kernel

/-- The last transaction is available, but selection stops before it. -/
theorem blocked :
    ∃ chain mempool, Reachable Sample.args chain ∧ Built mempool ∧
      ¬mempool.FeeMarket chain MAX_TXS_PER_BLOCK := by
  obtain ⟨scene, ran⟩ := (succeeded_iff stage).mp staged
  simp only [stage, bind_eq_ok, raiseIf_eq_ok, exists_unit, pure_eq_ok, not_or, not_le, not_not,
    Prod.exists] at ran
  obtain ⟨chain, initialised, _, _, _, _, tx, _, _, _, first, _, _, second, _, mempool, third,
    ⟨room, available⟩, _⟩ := ran
  refine ⟨chain, mempool, .genesis initialised, ((Built.init.add first).add second).add third, ?_⟩
  intro market
  exact market.2 room tx available

/-- The reused nonce obstructs the pool. -/
theorem feeMarket_iff_blocked :
    ∃ chain mempool, Built mempool ∧ ¬mempool.Unobstructed chain := by
  obtain ⟨chain, mempool, _, built, stopped⟩ := blocked
  refine ⟨chain, mempool, built, fun unobstructed => stopped ?_⟩
  exact (built.feeMarket_iff chain).mpr unobstructed MAX_TXS_PER_BLOCK

/-- Selection is not always the fee market. -/
theorem selection_not_market :
    ¬∀ (args : GenesisArgs) (chain : ProofOfStakeChain) (mempool : Mempool) (maxCount : Nat),
      Reachable args chain → Built mempool → mempool.FeeMarket chain maxCount := by
  intro claim
  obtain ⟨chain, mempool, reachable, built, stopped⟩ := blocked
  exact stopped (claim _ chain mempool _ reachable built)

end FeeMarketSample

end Mindees
