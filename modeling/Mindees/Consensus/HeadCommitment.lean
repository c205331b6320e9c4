import Mindees.Library.Merkle
import Mindees.Core.Codec
import Mindees.Consensus.Nonces
import Mindees.Consensus.NoTheft
import Mindees.ForkChoice.Seals

/-!
# What a head hash commits to

As long as the hash function does not collide on what two chains hash, equal
head hashes mean equal headers, equal transactions and equal state.
-/

namespace Mindees

open Library

/-! ## Transactions are longer than two digests -/

namespace Json

/-- A member is longer than its key by two quotes and a colon. -/
theorem length_memberText
    (floatText : PyFloat → Str)
    (entry : Str × Json) :
    entry.1.length + 3 ≤ (memberText floatText entry).length := by
  have key := length_le_flatMap_escape entry.1
  simp only [memberText, quote, List.length_append, List.length_cons, List.length_nil]
  omega

theorem sum_length_le_commaJoin (texts : List Str) :
    (texts.map List.length).sum ≤ (commaJoin texts).length := by
  fun_induction commaJoin texts with
  | case1 => exact Nat.le_refl _
  | case2 text => simp
  | case3 text rest _ inductionHypothesis =>
      rw [List.map_cons, List.sum_cons, List.length_append, List.length_cons]
      omega

/-- The text of an object is longer than its keys with quotes and colons. -/
theorem length_dumps_obj
    (floatText : PyFloat → Str)
    (fields : List (Str × Json)) :
    (fields.map fun entry => entry.1.length + 3).sum < (dumps floatText (obj fields)).length := by
  have sorted : (sortMembers fields).Perm fields := List.perm_insertionSort _ _
  have joined := sum_length_le_commaJoin ((sortMembers fields).map (memberText floatText))
  have members : ((sortMembers fields).map fun entry => entry.1.length + 3).sum ≤
      (((sortMembers fields).map (memberText floatText)).map List.length).sum := by
    rw [List.map_map]
    exact List.sum_le_sum fun entry _ => length_memberText floatText entry
  have keys := (sorted.map fun entry => entry.1.length + 3).sum_eq
  rw [dumps_obj, List.length_cons, List.length_append]
  omega

end Json

section

variable [Primitives]

theorem Transaction.length_canonical_encodeTx (tx : Transaction) :
    64 < (canonical tx.encodeTx).length := by
  have long := Json.length_dumps_obj Primitives.floatText
    [(Key.sender, .str tx.sender), (Key.recipient, .str tx.recipient),
      (Key.amount, .int tx.amount), (Key.fee, .int tx.fee), (Key.nonce, .int tx.nonce),
      (Key.publicKey, .str tx.publicKey), (Key.signature, .str tx.signature),
      (Key.evidence, .str tx.evidence)]
  have keys : ([(Key.sender, Json.str tx.sender), (Key.recipient, .str tx.recipient),
      (Key.amount, .int tx.amount), (Key.fee, .int tx.fee), (Key.nonce, .int tx.nonce),
      (Key.publicKey, .str tx.publicKey), (Key.signature, .str tx.signature),
      (Key.evidence, .str tx.evidence)].map fun entry => entry.1.length + 3).sum = 80 := rfl
  rw [keys] at long
  rw [canonical, encodeAscii, List.length_map, encodeTx]
  exact Nat.lt_trans (by decide) long

/-! ## The Merkle root -/

theorem merkleLayer_eq_level (layer : List Bytes) :
    merkleLayer layer = Merkle.level sha256 layer := by
  fun_induction merkleLayer layer with
  | case1 => rfl
  | case2 => rfl
  | case3 left right rest inductionHypothesis =>
      rw [inductionHypothesis, Merkle.level, Merkle.level, Merkle.joined, List.map_cons]

/-- What the climb to the root hashes. -/
def merkleLoopInputs : (fuel : Nat) → List Bytes → List Bytes
  | 0, _ => []
  | fuel + 1, layer =>
      if 1 < layer.length then Merkle.joined layer ++ merkleLoopInputs fuel (merkleLayer layer)
      else []

/-- The loop climbs a number of levels. -/
theorem merkleLoop_eq_climb
    (fuel : Nat)
    (layer : List Bytes) :
    ∃ steps, merkleLoop fuel layer = Merkle.climb sha256 steps layer ∧
      merkleLoopInputs fuel layer = Merkle.hashed sha256 steps layer := by
  induction fuel generalizing layer with
  | zero => exact ⟨0, rfl, rfl⟩
  | succ fuel inductionHypothesis =>
      unfold merkleLoop merkleLoopInputs
      split
      · obtain ⟨steps, climbed, hashed⟩ := inductionHypothesis (merkleLayer layer)
        refine ⟨steps + 1, ?_, ?_⟩
        · rw [climbed, merkleLayer_eq_level, Merkle.climb]
        · rw [hashed, merkleLayer_eq_level, Merkle.hashed]
      · exact ⟨0, rfl, rfl⟩

theorem length_merkleLayer (layer : List Bytes) :
    (merkleLayer layer).length = (layer.length + 1) / 2 := by
  fun_induction merkleLayer layer with
  | case1 => rfl
  | case2 => simp only [List.length_cons, List.length_nil]
  | case3 left right rest inductionHypothesis =>
      simp only [List.length_cons, inductionHypothesis]
      omega

/-- The loop ends with one node. -/
theorem merkleLoop_eq_singleton
    {fuel : Nat}
    {layer : List Bytes}
    (nonempty : layer ≠ [])
    (enough : layer.length ≤ fuel) :
    ∃ root, merkleLoop fuel layer = [root] := by
  induction fuel generalizing layer with
  | zero => exact absurd (List.length_eq_zero_iff.mp (Nat.le_zero.mp enough)) nonempty
  | succ fuel inductionHypothesis =>
      have positive := List.length_pos_iff.mpr nonempty
      unfold merkleLoop
      split
      · rename_i several
        have shorter := length_merkleLayer layer
        refine inductionHypothesis ?_ ?_
        · rw [← List.length_pos_iff, shorter]
          omega
        · omega
      · rename_i single
        exact List.length_eq_one_iff.mp (by omega)

/-- The leaves of the tree: the digests behind the identifiers. -/
def leafDigests (transactions : List Transaction) : List Bytes :=
  transactions.map fun tx => sha256 (canonical tx.encodeTx)

/-- What the root of a list of transactions hashes, the identifiers included. -/
def merkleInputs (transactions : List Transaction) : List Bytes :=
  if transactions = [] then [[]]
  else
    transactions.map (fun tx => canonical tx.encodeTx) ++
      merkleLoopInputs transactions.length (leafDigests transactions)

theorem merkleRoot_txids (transactions : List Transaction) :
    merkleRoot (transactions.map Transaction.txid) =
      if transactions = [] then hex (sha256 [])
      else hex ((merkleLoop transactions.length (leafDigests transactions)).headD []) := by
  have leaves : (transactions.map Transaction.txid).map (fun txid => (fromHex txid).getD []) =
      leafDigests transactions := by
    rw [List.map_map, leafDigests]
    refine List.map_congr_left fun tx _ => ?_
    simp only [Function.comp_apply, Transaction.txid, fromHex_hex, Option.getD_some]
  simp only [merkleRoot, List.map_eq_nil_iff, leaves, leafDigests, List.length_map]

section

variable {width : Nat} {inputs : Set Bytes} {transactions left right : List Transaction}

theorem mem_merkleInputs
    {tx : Transaction}
    (inside : tx ∈ transactions) :
    canonical tx.encodeTx ∈ merkleInputs transactions := by
  rw [merkleInputs, if_neg (List.ne_nil_of_mem inside)]
  exact List.mem_append_left _ (List.mem_map_of_mem inside)

theorem leaves_leafDigests
    (narrow : width ≤ 32)
    (covered : ∀ text ∈ merkleInputs transactions, text ∈ inputs) :
    Merkle.Leaves sha256 width inputs (leafDigests transactions) := by
  intro leaf inside
  obtain ⟨tx, member, rfl⟩ := List.mem_map.mp inside
  have long := tx.length_canonical_encodeTx
  exact ⟨_, covered _ (mem_merkleInputs member), by omega, rfl⟩

/-- Without a collision the leaves determine the transactions. -/
theorem CollisionFree.leafDigests_inj
    (free : CollisionFree inputs)
    (leftCovered : ∀ text ∈ merkleInputs left, text ∈ inputs)
    (rightCovered : ∀ text ∈ merkleInputs right, text ∈ inputs) :
    ∀ tx ∈ left, ∀ other ∈ right,
      sha256 (canonical tx.encodeTx) = sha256 (canonical other.encodeTx) → tx = other := by
  intro tx inside other otherInside same
  exact Transaction.canonical_encodeTx_inj (free (leftCovered _ (mem_merkleInputs inside))
    (rightCovered _ (mem_merkleInputs otherInside)) same)

theorem CollisionFree.nodup_leafDigests
    (free : CollisionFree inputs)
    (distinct : transactions.Nodup)
    (covered : ∀ text ∈ merkleInputs transactions, text ∈ inputs) :
    (leafDigests transactions).Nodup :=
  (List.nodup_map_iff_inj_on distinct).mpr (free.leafDigests_inj covered covered)

/-- The climb to the root of a list that is not empty. -/
theorem exists_climb
    (nonempty : transactions ≠ [])
    (covered : ∀ text ∈ merkleInputs transactions, text ∈ inputs) :
    ∃ root steps,
      merkleRoot (transactions.map Transaction.txid) = hex root ∧
      Merkle.climb sha256 steps (leafDigests transactions) = [root] ∧
      ∀ text ∈ Merkle.hashed sha256 steps (leafDigests transactions), text ∈ inputs := by
  have leaves : leafDigests transactions ≠ [] := by
    rw [leafDigests, ne_eq, List.map_eq_nil_iff]
    exact nonempty
  have enough : (leafDigests transactions).length ≤ transactions.length := by
    rw [leafDigests, List.length_map]
  obtain ⟨root, ended⟩ := merkleLoop_eq_singleton leaves enough
  obtain ⟨steps, climbed, hashed⟩ :=
    merkleLoop_eq_climb transactions.length (leafDigests transactions)
  refine ⟨root, steps, ?_, climbed.symm.trans ended, fun text inside => covered text ?_⟩
  · rw [merkleRoot_txids, if_neg nonempty, ended, List.headD_cons]
  · rw [merkleInputs, if_neg nonempty, hashed]
    exact List.mem_append_right _ inside

/-- Only the empty list has the root of the empty list. -/
theorem merkleRoot_ne_of_nil
    (digests : Merkle.Digests sha256 width)
    (narrow : width ≤ 32)
    (free : CollisionFree inputs)
    (nonempty : transactions ≠ [])
    (covered : ∀ text ∈ merkleInputs transactions, text ∈ inputs)
    (emptyCovered : [] ∈ inputs) :
    merkleRoot (transactions.map Transaction.txid) ≠ merkleRoot [] := by
  intro same
  obtain ⟨root, steps, rooted, climbed, hashed⟩ := exists_climb nonempty covered
  rw [rooted, merkleRoot, if_pos rfl] at same
  have top : root ∈ Merkle.climb sha256 steps (leafDigests transactions) := by
    rw [climbed]
    exact List.mem_cons_self
  obtain ⟨text, textHashed, nontrivial, digest⟩ :=
    (leaves_leafDigests narrow covered).preimage_climb digests hashed root top
  have equal : text = [] := free textHashed emptyCovered (digest.symm.trans (hex_injective same))
  exact nontrivial equal

/-- The root determines distinct transactions. -/
theorem merkleRoot_inj
    (digests : Merkle.Digests sha256 width)
    (narrow : width ≤ 32)
    (free : CollisionFree inputs)
    (leftDistinct : left.Nodup)
    (rightDistinct : right.Nodup)
    (leftCovered : ∀ text ∈ merkleInputs left, text ∈ inputs)
    (rightCovered : ∀ text ∈ merkleInputs right, text ∈ inputs)
    (same : merkleRoot (left.map Transaction.txid) = merkleRoot (right.map Transaction.txid)) :
    left = right := by
  have emptyHashed : ∀ {transactions : List Transaction}, transactions = [] →
      [] ∈ merkleInputs transactions := by
    rintro _ rfl
    exact List.mem_cons_self
  by_cases leftEmpty : left = []
  · by_cases rightEmpty : right = []
    · rw [leftEmpty, rightEmpty]
    · refine absurd same.symm ?_
      rw [leftEmpty]
      exact merkleRoot_ne_of_nil digests narrow free rightEmpty rightCovered
        (leftCovered _ (emptyHashed leftEmpty))
  · by_cases rightEmpty : right = []
    · refine absurd same ?_
      rw [rightEmpty]
      exact merkleRoot_ne_of_nil digests narrow free leftEmpty leftCovered
        (rightCovered _ (emptyHashed rightEmpty))
    · obtain ⟨root, leftSteps, leftRoot, leftClimb, leftHashed⟩ :=
        exists_climb leftEmpty leftCovered
      obtain ⟨other, rightSteps, rightRoot, rightClimb, rightHashed⟩ :=
        exists_climb rightEmpty rightCovered
      have roots : root = other := hex_injective (leftRoot.symm.trans (same.trans rightRoot))
      have tops := leftClimb.trans ((congrArg List.singleton roots).trans rightClimb.symm)
      have leaves : leafDigests left = leafDigests right :=
        Merkle.leaves_inj digests free (leaves_leafDigests narrow leftCovered)
          (leaves_leafDigests narrow rightCovered) (by simpa [leafDigests] using leftEmpty)
          (by simpa [leafDigests] using rightEmpty) (free.nodup_leafDigests leftDistinct leftCovered)
          (free.nodup_leafDigests rightDistinct rightCovered) leftHashed rightHashed tops
      exact Merkle.eq_of_map_eq (free.leafDigests_inj leftCovered rightCovered) leaves

end

/-! ## Chains -/

/-- What a block hashes. -/
def Block.hashedInputs (block : Block) : List Bytes :=
  canonical block.header :: merkleInputs block.transactions

namespace ProofOfStakeChain

/-- What the blocks of a chain hash. -/
def hashedInputs (chain : ProofOfStakeChain) : List Bytes :=
  chain.chain.flatMap Block.hashedInputs

variable {args : GenesisArgs} {before other after otherAfter left right : ProofOfStakeChain}
  {block variant : Block} {width : Nat} {inputs : Set Bytes}

theorem hashedInputs_submitBlock
    (submitted : before.submitBlock block = .ok after) :
    after.hashedInputs = before.hashedInputs ++ block.hashedInputs := by
  rw [hashedInputs, (submitted_of_submitBlock submitted).blocks, List.flatMap_append]
  simp [hashedInputs]

/-- The transactions of an accepted block are distinct. -/
theorem Reachable.nodup_transactions
    (reachable : Reachable args before)
    (submitted : before.submitBlock block = .ok after) :
    block.transactions.Nodup := by
  have distinct := (reachable.block submitted).numbered.distinct.of_map _
  rw [history_submitBlock submitted] at distinct
  exact (List.nodup_append.mp distinct).2.1

theorem merkleRoot_submitBlock
    (submitted : before.submitBlock block = .ok after) :
    block.merkleRoot = merkleRoot (block.transactions.map Transaction.txid) := by
  obtain ⟨applied, _, _⟩ := (submitBlock_eq_ok _ _ _).mp submitted
  obtain ⟨checked, _⟩ := (apply_eq_ok _ _ _).mp applied
  exact ((applyChecked_eq_ok _ _ _).mp checked).2.2.1

/-- Accepted blocks with one hash are equal up to their seals. -/
theorem unsealed_eq_of_hash
    (digests : Merkle.Digests sha256 width)
    (narrow : width ≤ 32)
    (free : CollisionFree inputs)
    (reachable : Reachable args before)
    (otherReachable : Reachable args other)
    (submitted : before.submitBlock block = .ok after)
    (otherSubmitted : other.submitBlock variant = .ok otherAfter)
    (covered : ∀ text ∈ block.hashedInputs, text ∈ inputs)
    (otherCovered : ∀ text ∈ variant.hashedInputs, text ∈ inputs)
    (same : block.hash = variant.hash) :
    block.unsealed = variant.unsealed := by
  have fields := free.header (covered _ List.mem_cons_self) (otherCovered _ List.mem_cons_self) same
  obtain ⟨index, previous, timestamp, root, validator, nonce⟩ := fields
  have roots := root
  rw [merkleRoot_submitBlock submitted, merkleRoot_submitBlock otherSubmitted] at roots
  have transactions : block.transactions = variant.transactions :=
    merkleRoot_inj digests narrow free (reachable.nodup_transactions submitted)
      (otherReachable.nodup_transactions otherSubmitted)
      (fun text inside => covered text (List.mem_cons_of_mem _ inside))
      (fun text inside => otherCovered text (List.mem_cons_of_mem _ inside)) roots
  cases block
  cases variant
  simp only [Block.unsealed, Block.mk.injEq, and_true] at *
  exact ⟨index, previous, timestamp, transactions, validator, nonce, root⟩

/-- Equal head hashes mean equal chains up to seals. -/
theorem Reachable.bare_eq_of_head_hash
    (leftReachable : Reachable args left)
    (digests : Merkle.Digests sha256 width)
    (narrow : width ≤ 32)
    (free : CollisionFree inputs)
    (rightReachable : Reachable args right)
    (leftCovered : ∀ text ∈ left.hashedInputs, text ∈ inputs)
    (rightCovered : ∀ text ∈ right.hashedInputs, text ∈ inputs)
    (same : left.head.hash = right.head.hash) :
    left.bare = right.bare := by
  -- a header tells how many blocks came before it
  have apart : ∀ {start before after : ProofOfStakeChain} {block : Block},
      init args = .ok start → Reachable args before → before.submitBlock block = .ok after →
      start.head.index ≠ after.head.index := by
    intro start before after block initialised reachable submitted equal
    have accepted := submitted_of_submitBlock submitted
    have length := reachable.length_eq
    have positive := List.length_pos_of_ne_nil before.nonempty
    rw [index_init initialised, accepted.newest, accepted.index] at equal
    omega
  have heads : ∀ {chain : ProofOfStakeChain}, (∀ text ∈ chain.hashedInputs, text ∈ inputs) →
      canonical chain.head.header ∈ inputs := by
    intro chain covered
    refine covered _ (List.mem_flatMap.mpr ⟨chain.head, ?_, List.mem_cons_self⟩)
    exact List.getLast_mem chain.nonempty
  induction leftReachable generalizing right with
  | genesis leftInitialised =>
      obtain ⟨index, _⟩ := free.header (heads leftCovered) (heads rightCovered) same
      cases rightReachable with
      | genesis rightInitialised =>
          rw [Except.ok.inj (leftInitialised.symm.trans rightInitialised)]
      | block reachable submitted => exact absurd index (apart leftInitialised reachable submitted)
  | @block before after block reachable submitted inductionHypothesis =>
      obtain ⟨index, previous, _⟩ := free.header (heads leftCovered) (heads rightCovered) same
      cases rightReachable with
      | genesis rightInitialised =>
          exact absurd index.symm (apart rightInitialised reachable submitted)
      | @block other _ variant otherReachable otherSubmitted =>
          have accepted := submitted_of_submitBlock submitted
          have otherAccepted := submitted_of_submitBlock otherSubmitted
          rw [hashedInputs_submitBlock submitted] at leftCovered
          rw [hashedInputs_submitBlock otherSubmitted] at rightCovered
          rw [accepted.newest, otherAccepted.newest] at same previous
          rw [accepted.previous, otherAccepted.previous] at previous
          have parents : before.bare = other.bare :=
            inductionHypothesis otherReachable
              (fun text inside => leftCovered text (List.mem_append_left _ inside))
              (fun text inside => rightCovered text (List.mem_append_left _ inside)) previous
          have blocks : block.unsealed = variant.unsealed :=
            unsealed_eq_of_hash digests narrow free reachable otherReachable submitted
              otherSubmitted (fun text inside => leftCovered text (List.mem_append_right _ inside))
              (fun text inside => rightCovered text (List.mem_append_right _ inside)) same
          exact bare_submitBlock parents blocks submitted otherSubmitted

/-- Equal head hashes mean equal headers, equal transactions and equal state.
The seals of the blocks are the only thing that can differ.  The hash function
must not collide on what the two chains hash, and its digests have one width. -/
theorem state_eq_of_head_hash
    (digests : Merkle.Digests sha256 width)
    (narrow : width ≤ 32)
    (leftReachable : Reachable args left)
    (rightReachable : Reachable args right)
    (free : CollisionFree {text | text ∈ left.hashedInputs ∨ text ∈ right.hashedInputs})
    (same : left.head.hash = right.head.hash) :
    left.chain.map Block.unsealed = right.chain.map Block.unsealed ∧
      left.state = right.state ∧ left.config = right.config := by
  have bare : left.bare = right.bare :=
    leftReachable.bare_eq_of_head_hash digests narrow free rightReachable
      (fun _ inside => .inl inside) (fun _ inside => .inr inside) same
  exact ⟨blocks_eq_of_bare bare, state_eq_of_bare bare, config_eq_of_bare bare⟩

end ProofOfStakeChain

end

/-! ## One block in two seals -/

namespace HeadCommitmentSample

open ProofOfStakeChain NoTheftSample

attribute [local instance] Symbolic.primitives

/-- The newest block with a blank behind its signature. -/
def resealed : Block := { next.head with validatorSig := next.head.validatorSig ++ [' '] }

theorem resealed_accepted : succeeded (before.submitBlock resealed) = true := by decide +kernel

/-- The chain that received the other seal. -/
@[irreducible] def twin : ProofOfStakeChain :=
  outcome (before.submitBlock resealed) resealed_accepted

theorem resealed_submitted : before.submitBlock resealed = .ok twin := by
  unfold twin
  exact eq_ok_outcome _ resealed_accepted

theorem same_inputs : twin.hashedInputs = next.hashedInputs := by
  rw [hashedInputs_submitBlock resealed_submitted, hashedInputs_submitBlock next_submitted]
  rfl

theorem nothing_collides :
    CollisionFree {text | text ∈ next.hashedInputs ∨ text ∈ twin.hashedInputs} := by
  have distinct : (next.hashedInputs.map sha256).Nodup := by decide +kernel
  rw [same_inputs]
  intro text inside other otherInside same
  exact List.inj_on_of_nodup_map distinct (or_self_iff.mp inside) (or_self_iff.mp otherInside) same

/-- The two chains differ in a seal and in nothing else. -/
theorem state_eq_of_head_hash_twin :
    next.chain ≠ twin.chain ∧ next.state = twin.state := by
  have digests : Merkle.Digests Symbolic.primitives.sha256 4 := ⟨by decide, fun _ => rfl⟩
  have head : next.head.hash = twin.head.hash := by
    rw [head_submitBlock resealed_submitted]
    rfl
  have equal := state_eq_of_head_hash digests (by decide) (before_reachable.block next_submitted)
    (before_reachable.block resealed_submitted) nothing_collides head
  exact ⟨by decide +kernel, equal.2.1⟩

end HeadCommitmentSample

end Mindees
