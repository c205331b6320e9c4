import Mindees.Core.Codec
import Mindees.Consensus.Produce
import Mindees.Library.Retention
import Mindees.Node.Mempool

/-!
# A bounded pool keeps the best bids

A full pool replaces its cheapest transaction by one that pays more.  Over any
sequence of admissions the pool ends with the transactions that pay most, as
many as it has room for.
-/

namespace Mindees

open Library

namespace Mempool

/-- The pooled transactions. -/
def transactions (mempool : Mempool) : Finset Transaction := mempool.pool.values.toFinset

section

variable [Primitives]

/-- A transaction offered when the chain is in some state. -/
abbrev Bid := Transaction × ProofOfStakeChain

/-- Offer a transaction.  A rejected one leaves the pool as it was. -/
def offer (mempool : Mempool) (bid : Bid) : Mempool :=
  match mempool.add bid.1 bid.2 with
  | .ok (_, after) => after
  | .error _ => mempool

/-- The pool after a sequence of offers. -/
def offerAll (bids : List Bid) : Mempool := bids.foldl offer init

/-- The transaction passes the checks of its shape, its fee and its nonce. -/
def isEligible (bid : Bid) : Bool :=
  bid.1.isValid && decide (MIN_FEE ≤ bid.1.fee) &&
    decide (bid.2.state.nonces.getD bid.1.sender 0 ≤ bid.1.nonce)

/-- The distinct transactions that passed the checks. -/
def eligible (bids : List Bid) : Finset Transaction :=
  ((bids.filter isEligible).map Prod.fst).toFinset

theorem eligible_concat (bids : List Bid) (bid : Bid) :
    eligible (bids ++ [bid]) =
      if isEligible bid = true then insert bid.1 (eligible bids) else eligible bids := by
  rw [eligible, List.filter_append, List.map_append, List.toFinset_append, ← eligible]
  cases passed : isEligible bid with
  | false => simp [passed]
  | true =>
      rw [if_pos rfl, List.filter_cons_of_pos passed, List.filter_nil, List.map_singleton,
        Finset.union_comm]
      rfl

end

/-! ## The cheapest transaction -/

/-- What a scan for the cheapest returns is one of its transactions and pays no
more than any of them. -/
theorem foldl_cheapest (first : Transaction) (rest : List Transaction) :
    let best := rest.foldl (fun best tx => if tx.fee < best.fee then tx else best) first
    best ∈ first :: rest ∧ ∀ tx ∈ first :: rest, best.fee ≤ tx.fee := by
  induction rest generalizing first with
  | nil => simp
  | cons second rest inductionHypothesis =>
      rw [List.foldl_cons]
      split_ifs with cheaper
      · obtain ⟨inside, least⟩ := inductionHypothesis second
        refine ⟨List.mem_cons_of_mem first inside, ?_⟩
        intro tx member
        rcases List.mem_cons.mp member with rfl | later
        · exact (least second List.mem_cons_self).trans cheaper.le
        · exact least tx later
      · obtain ⟨inside, least⟩ := inductionHypothesis first
        refine ⟨?_, ?_⟩
        · rcases List.mem_cons.mp inside with same | later
          · rw [same]
            exact List.mem_cons_self
          · exact List.mem_cons_of_mem first (List.mem_cons_of_mem second later)
        · intro tx member
          rcases List.mem_cons.mp member with rfl | later
          · exact least tx List.mem_cons_self
          · rcases List.mem_cons.mp later with rfl | further
            · exact (least first List.mem_cons_self).trans (not_lt.mp cheaper)
            · exact least tx (List.mem_cons_of_mem first further)

theorem cheapest_spec
    {transactions : List Transaction}
    {tx : Transaction}
    (found : cheapest transactions = some tx) :
    tx ∈ transactions ∧ ∀ other ∈ transactions, tx.fee ≤ other.fee := by
  cases transactions with
  | nil => cases found
  | cons first rest =>
      cases found
      exact foldl_cheapest first rest

theorem exists_cheapest
    {mempool : Mempool}
    (full : MAX_POOL_SIZE ≤ mempool.pool.size) :
    ∃ tx, cheapest mempool.pool.values = some tx := by
  cases listed : mempool.pool.values with
  | nil =>
      rw [Dict.values, List.map_eq_nil_iff] at listed
      rw [Dict.size, listed, List.length_nil, MAX_POOL_SIZE] at full
      omega
  | cons first rest => exact ⟨_, rfl⟩

section

variable [Primitives] {mempool : Mempool}

/-! ## The pool as a set -/

theorem Sound.mem_transactions
    (sound : mempool.Sound)
    (tx : Transaction) :
    tx ∈ mempool.transactions ↔ mempool.pool.get? tx.txid = some tx := by
  rw [transactions, List.mem_toFinset, Dict.mem_values_iff]
  constructor
  · rintro ⟨txid, found⟩
    rw [(sound txid tx found).1]
    exact found
  · intro found
    exact ⟨tx.txid, found⟩

theorem Sound.card_transactions
    (sound : mempool.Sound) :
    mempool.transactions.card = mempool.pool.size := by
  have distinct : mempool.pool.values.Nodup := by
    apply List.Nodup.of_map Transaction.txid
    have keys : mempool.pool.values.map Transaction.txid = mempool.pool.keys := by
      rw [Dict.values, Dict.keys, List.map_map]
      apply List.map_congr_left
      rintro ⟨txid, tx⟩ inside
      exact (sound txid tx ((Dict.mem_entries_iff _ _ _).mp inside)).1
    rw [keys]
    exact mempool.pool.nodupKeys
  rw [transactions, List.toFinset_card_of_nodup distinct, Dict.values, List.length_map,
    Dict.size]

/-- Filing a transaction that is not there adds it to the set. -/
theorem transactions_set
    {pool : Dict Str Transaction}
    {tx : Transaction}
    (sound : Sound ⟨pool⟩)
    (filed : Sound ⟨pool.set tx.txid tx⟩)
    (fresh : pool.contains tx.txid = false) :
    transactions ⟨pool.set tx.txid tx⟩ = insert tx (transactions ⟨pool⟩) := by
  ext other
  rw [Finset.mem_insert, filed.mem_transactions, sound.mem_transactions, Dict.get?_set]
  have absent : pool.get? tx.txid = none := by
    rw [Dict.contains, Option.isSome_eq_false_iff, Option.isNone_iff_eq_none] at fresh
    exact fresh
  split_ifs with same
  · rw [Option.some_inj, ← same, absent]
    simp [eq_comm]
  · have apart : other ≠ tx := fun equal => same (by rw [equal])
    simp [apart]

/-- Dropping a transaction takes it out of the set. -/
theorem transactions_erase
    {pool : Dict Str Transaction}
    {tx : Transaction}
    (sound : Sound ⟨pool⟩)
    (rest : Sound ⟨pool.erase tx.txid⟩)
    (held : pool.get? tx.txid = some tx) :
    transactions ⟨pool.erase tx.txid⟩ = (transactions ⟨pool⟩).erase tx := by
  ext other
  rw [Finset.mem_erase, rest.mem_transactions, sound.mem_transactions, Dict.get?_erase]
  split_ifs with same
  · rw [← same, held, Option.some_inj]
    simp [eq_comm]
  · have apart : other ≠ tx := fun equal => same (by rw [equal])
    simp [apart]

/-! ## One offer -/

/-- An admission from a sound pool leads to a sound pool. -/
theorem Sound.offer
    (sound : mempool.Sound)
    (bid : Bid) :
    (mempool.offer bid).Sound := by
  rw [Mempool.offer]
  cases added : mempool.add bid.1 bid.2 with
  | error raised => exact sound
  | ok result => exact sound.add added

/-- What does not pass the checks changes nothing. -/
theorem offer_of_not_eligible
    {bid : Bid}
    (refused : isEligible bid = false) :
    mempool.offer bid = mempool := by
  rw [offer]
  cases added : mempool.add bid.1 bid.2 with
  | error raised => rfl
  | ok result =>
      simp only [add, rejectIf, bind_eq_ok, raiseIf_eq_ok, exists_unit, Bool.not_eq_false,
        not_lt] at added
      obtain ⟨valid, floor, nonce, _⟩ := added
      simp [isEligible, valid, floor, nonce] at refused

/-- What passes them is known, filed, exchanged for a cheapest one, or pays too
little for a full pool. -/
theorem add_of_eligible
    (mempool : Mempool)
    {bid : Bid}
    (passed : isEligible bid = true) :
    mempool.add bid.1 bid.2 =
      if mempool.pool.contains bid.1.txid then .ok (false, mempool)
      else if MAX_POOL_SIZE ≤ mempool.pool.size then
        match cheapest mempool.pool.values with
        | none => .error .valueError
        | some evicted =>
            if bid.1.fee ≤ evicted.fee then
              .error (.validation "rejected: mempool full and fee does not out-bid")
            else .ok (true, ⟨(mempool.pool.erase evicted.txid).set bid.1.txid bid.1⟩)
      else .ok (true, ⟨mempool.pool.set bid.1.txid bid.1⟩) := by
  simp only [isEligible, Bool.and_eq_true, decide_eq_true_eq] at passed
  obtain ⟨⟨valid, floor⟩, nonce⟩ := passed
  simp only [add, rejectIf, raiseIf, valid, not_lt.mpr floor, not_lt.mpr nonce, Bool.true_eq_false,
    if_false]
  by_cases known : mempool.pool.contains bid.1.txid = true
  · simp only [known, if_true]
    rfl
  · by_cases full : MAX_POOL_SIZE ≤ mempool.pool.size
    · cases found : cheapest mempool.pool.values with
      | none =>
          simp only [known, full, if_true]
          rfl
      | some evicted =>
          simp only [known, full, if_true]
          change (rejectIf (bid.1.fee ≤ evicted.fee)
            "rejected: mempool full and fee does not out-bid" >>= fun _ => pure _) = _
          by_cases poor : bid.1.fee ≤ evicted.fee
          · simp only [rejectIf, raiseIf, poor, if_true]
            rfl
          · simp only [rejectIf, raiseIf, poor, if_false]
            rfl
    · simp only [known, full, if_false]
      rfl

/-- One eligible offer keeps the best bids. -/
theorem keepsBest_offer
    {offered : Finset Transaction}
    {bid : Bid}
    (sound : mempool.Sound)
    (keeps : KeepsBest MAX_POOL_SIZE Transaction.fee offered mempool.transactions)
    (passed : isEligible bid = true)
    (distinct : ∀ other ∈ offered, other.txid = bid.1.txid → other = bid.1) :
    KeepsBest MAX_POOL_SIZE Transaction.fee (insert bid.1 offered)
      (mempool.offer bid).transactions := by
  have filed := sound.offer bid
  have branches := mempool.add_of_eligible passed
  have size := sound.card_transactions
  rw [offer] at filed ⊢
  by_cases known : mempool.pool.contains bid.1.txid = true
  · -- the transaction under this identifier is the one offered
    rw [if_pos known] at branches
    rw [branches]
    obtain ⟨other, found⟩ := (Dict.contains_iff _ _).mp known
    have sameId := (sound _ _ found).1
    have held : other ∈ mempool.transactions := by
      rw [sound.mem_transactions, sameId]
      exact found
    rw [← distinct other (keeps.part held) sameId]
    exact keeps.known held
  · have absent : bid.1 ∉ mempool.transactions := by
      intro held
      rw [sound.mem_transactions] at held
      exact known ((Dict.contains_iff _ _).mpr ⟨bid.1, held⟩)
    have fresh := Bool.eq_false_of_not_eq_true known
    rw [if_neg known] at branches
    by_cases full : MAX_POOL_SIZE ≤ mempool.pool.size
    · rw [if_pos full] at branches
      obtain ⟨evicted, found⟩ := exists_cheapest full
      obtain ⟨inside, least⟩ := cheapest_spec found
      have members : ∀ other, other ∈ mempool.transactions ↔ other ∈ mempool.pool.values :=
        fun other => List.mem_toFinset
      simp only [found] at branches
      by_cases poor : bid.1.fee ≤ evicted.fee
      · rw [if_pos poor] at branches
        rw [branches]
        refine keeps.refuse (by omega) fun held member => poor.trans ?_
        exact least held ((members held).mp member)
      · rw [if_neg poor] at branches
        have held := (members evicted).mpr inside
        have remaining : Sound ⟨mempool.pool.erase evicted.txid⟩ := by
          intro txid tx kept
          rw [Dict.get?_erase] at kept
          split_ifs at kept
          exact sound txid tx kept
        have out : (mempool.pool.erase evicted.txid).contains bid.1.txid = false := by
          rw [Dict.contains, Dict.get?_erase]
          split_ifs
          · rfl
          · exact fresh
        rw [branches] at filed ⊢
        rw [transactions_set remaining filed out,
          transactions_erase sound remaining ((sound.mem_transactions evicted).mp held)]
        refine keeps.exchange (by omega) held ?_ (not_le.mp poor) absent
        intro other member
        exact least other ((members other).mp member)
    · rw [if_neg full] at branches
      rw [branches] at filed ⊢
      rw [transactions_set sound filed fresh]
      exact keeps.add_of_room (by omega) absent

/-! ## Every sequence of offers -/

theorem offerAll_keepsBest
    {bids : List Bid}
    (free : CollisionFree {input | ∃ bid ∈ bids, canonical bid.1.encodeTx = input}) :
    KeepsBest MAX_POOL_SIZE Transaction.fee (eligible bids) (offerAll bids).transactions ∧
      (offerAll bids).Sound := by
  induction bids using List.reverseRecOn with
  | nil => exact ⟨KeepsBest.empty _ _, sound_init⟩
  | append_singleton bids bid inductionHypothesis =>
      have earlier : {input | ∃ bid ∈ bids, canonical bid.1.encodeTx = input} ⊆
          {input | ∃ other ∈ bids ++ [bid], canonical other.1.encodeTx = input} := by
        rintro input ⟨other, inside, hashed⟩
        exact ⟨other, List.mem_append_left _ inside, hashed⟩
      obtain ⟨keeps, sound⟩ := inductionHypothesis (free.mono earlier)
      have last : offerAll (bids ++ [bid]) = (offerAll bids).offer bid := by
        rw [offerAll, List.foldl_concat, offerAll]
      rw [last]
      refine ⟨?_, sound.offer bid⟩
      cases passed : isEligible bid with
      | false =>
          rw [offer_of_not_eligible passed, eligible_concat, passed]
          exact keeps
      | true =>
          rw [eligible_concat, if_pos passed]
          refine keepsBest_offer sound keeps passed fun other inside sameId => ?_
          have offered : ∃ bid ∈ bids, bid.1 = other := by
            obtain ⟨source, member, rfl⟩ := List.mem_map.mp (List.mem_toFinset.mp inside)
            exact ⟨source, List.mem_of_mem_filter member, rfl⟩
          obtain ⟨source, member, rfl⟩ := offered
          exact free.txid ⟨source, List.mem_append_left _ member, rfl⟩
            ⟨bid, List.mem_append_right _ List.mem_cons_self, rfl⟩ sameId

/-- Over any sequence of offers the pool keeps as many of the transactions that
passed the checks as it has room for, and every one it does not hold pays no more
than any it holds. -/
theorem offerAll_best_bids
    (bids : List Bid)
    (free : CollisionFree {input | ∃ bid ∈ bids, canonical bid.1.encodeTx = input}) :
    (offerAll bids).pool.size = min (eligible bids).card MAX_POOL_SIZE ∧
      (∀ tx ∈ (offerAll bids).pool.values, tx ∈ eligible bids) ∧
      ∀ tx ∈ eligible bids, tx ∉ (offerAll bids).pool.values →
        ∀ held ∈ (offerAll bids).pool.values, tx.fee ≤ held.fee := by
  obtain ⟨keeps, sound⟩ := offerAll_keepsBest free
  refine ⟨?_, ?_, ?_⟩
  · rw [← sound.card_transactions]
    exact keeps.size
  · intro tx inside
    exact keeps.part (List.mem_toFinset.mpr inside)
  · intro tx passed outside held inside
    apply keeps.best tx passed
    · exact fun member => outside (List.mem_toFinset.mp member)
    · exact List.mem_toFinset.mpr inside

end

/-! ## Two offers, one of them repeated -/

namespace BestBidsSample

open ProofOfStakeChain

attribute [local instance] Symbolic.primitives

/-- Two transactions of one sender, offered to the same chain. -/
structure Scene where
  chain : ProofOfStakeChain
  first : Transaction
  second : Transaction

def stage : Except Error Scene := do
  let chain ← ProofOfStakeChain.init Sample.args
  let sender := Symbolic.wallet 1
  let first ← paymentTx sender (Symbolic.wallet 2).address 10 5 0 0
  let second ← paymentTx sender (Symbolic.wallet 2).address 20 1 1 0
  raiseIf (first.txid = second.txid ∨
    (eligible [(first, chain), (second, chain), (first, chain)]).card ≠ 2) Error.valueError
  pure { chain, first, second }

theorem staged : succeeded stage = true := by decide +kernel

/-- The pool ends with both transactions. -/
theorem offerAll_best_bids_pair :
    ∃ scene, stage = .ok scene ∧
      (offerAll [(scene.first, scene.chain), (scene.second, scene.chain),
        (scene.first, scene.chain)]).pool.size = min 2 MAX_POOL_SIZE := by
  obtain ⟨scene, ran⟩ := (succeeded_iff stage).mp staged
  refine ⟨scene, ran, ?_⟩
  simp only [stage, bind_eq_ok, raiseIf_eq_ok, exists_unit, pure_eq_ok, not_or, not_not] at ran
  obtain ⟨chain, _, first, _, second, _, ⟨distinct, count⟩, rfl⟩ := ran
  have free : CollisionFree {input | ∃ bid ∈ [(first, chain), (second, chain), (first, chain)],
      canonical bid.1.encodeTx = input} := by
    have apart : sha256 (canonical first.encodeTx) ≠ sha256 (canonical second.encodeTx) :=
      fun same => distinct (congrArg hex same)
    apply (CollisionFree.pair apart).mono
    rintro input ⟨bid, inside, rfl⟩
    simp only [List.mem_cons, List.not_mem_nil, or_false] at inside
    rcases inside with rfl | rfl | rfl
    · exact Set.mem_insert _ _
    · exact Set.mem_insert_of_mem _ rfl
    · exact Set.mem_insert _ _
  rw [(offerAll_best_bids _ free).1, count]

end BestBidsSample

end Mempool

end Mindees
