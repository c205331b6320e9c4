import Mindees.Consensus.Blockchain
import Mindees.Consensus.HeadCommitment

/-!
# What a Merkle root commits to

Two lists of distinct transaction identifiers with one root are one list,
whatever their lengths.  The check for duplicates keeps the identifiers of an
accepted block distinct, so one header goes with one list of transactions.
-/

namespace Mindees

open Library

section

variable [Primitives]

/-- Some chain accepts the block, the base chain or the proof-of-stake chain. -/
def Accepted (block : Block) : Prop :=
  (∃ before after : Blockchain, before.submitBlock block = .ok after) ∨
    ∃ before after : ProofOfStakeChain, before.submitBlock block = .ok after

variable {width : Nat} {left right : List Transaction} {block variant : Block}

/-- The base chain takes no transaction twice in a block. -/
theorem Blockchain.nodup_txids_submitBlock
    {before after : Blockchain}
    (submitted : before.submitBlock block = .ok after) :
    (block.transactions.map Transaction.txid).Nodup := by
  obtain ⟨_, _, _, ⟨seen, ran⟩, _, _⟩ := (Blockchain.submitBlock_eq_ok _ _ _).mp submitted
  have guarded : ∀ (progress : List Str × Accounts) (tx : Transaction) (next),
      Blockchain.applyNext block progress tx = .ok next →
      tx.txid ∉ progress.1 ∧ next.1 = tx.txid :: progress.1 := by
    intro progress tx next stepped
    obtain ⟨taken, accounts⟩ := progress
    simp only [Blockchain.applyNext, rejectIf, bind_eq_ok, raiseIf_eq_ok, pure_eq_ok,
      exists_unit] at stepped
    obtain ⟨fresh, _, _, _, _, rfl⟩ := stepped
    exact ⟨fresh, rfl⟩
  exact foldlM_distinct guarded rfl ran

/-- The proof-of-stake chain takes no transaction twice in a block. -/
theorem ProofOfStakeChain.nodup_txids_submitBlock
    {before after : ProofOfStakeChain}
    (submitted : before.submitBlock block = .ok after) :
    (block.transactions.map Transaction.txid).Nodup := by
  have accepted := submitted_of_submitBlock submitted
  obtain ⟨seen, ran⟩ := (applyTxs_eq_ok _ _ _ _ _ _).mp accepted.ran
  have guarded : ∀ (progress : List Str × LedgerState) (tx : Transaction) (next),
      applyNext before.config block before.state.justified progress tx = .ok next →
      tx.txid ∉ progress.1 ∧ next.1 = tx.txid :: progress.1 := by
    intro progress tx next stepped
    obtain ⟨fresh, _, _, noted, _⟩ := (applyNext_eq_ok _ _ _ _ _ _).mp stepped
    exact ⟨fresh, noted⟩
  exact foldlM_distinct guarded rfl ran

theorem Accepted.nodup_txids
    (accepted : Accepted block) :
    (block.transactions.map Transaction.txid).Nodup := by
  rcases accepted with ⟨before, after, submitted⟩ | ⟨before, after, submitted⟩
  · exact Blockchain.nodup_txids_submitBlock submitted
  · exact ProofOfStakeChain.nodup_txids_submitBlock submitted

theorem Accepted.merkleRoot_eq
    (accepted : Accepted block) :
    block.merkleRoot = merkleRoot (block.transactions.map Transaction.txid) := by
  rcases accepted with ⟨before, after, submitted⟩ | ⟨before, after, submitted⟩
  · exact ((Blockchain.submitBlock_eq_ok _ _ _).mp submitted).2.2.1
  · exact ProofOfStakeChain.merkleRoot_submitBlock submitted

/-- The root of distinct identifiers commits to them, and the header of an accepted block to
its transactions.  The hash function must not collide on what the two roots hash. -/
theorem merkleRoot_commits
    (digests : Merkle.Digests sha256 width)
    (narrow : width ≤ 32)
    (free : CollisionFree {text | text ∈ merkleInputs left ∨ text ∈ merkleInputs right}) :
    ((left.map Transaction.txid).Nodup → (right.map Transaction.txid).Nodup →
      merkleRoot (left.map Transaction.txid) = merkleRoot (right.map Transaction.txid) →
      left.map Transaction.txid = right.map Transaction.txid) ∧
    ∀ block variant : Block, block.transactions = left → variant.transactions = right →
      Accepted block → Accepted variant → block.header = variant.header → left = right := by
  have commits : (left.map Transaction.txid).Nodup → (right.map Transaction.txid).Nodup →
      merkleRoot (left.map Transaction.txid) = merkleRoot (right.map Transaction.txid) →
      left = right := by
    intro leftDistinct rightDistinct same
    exact merkleRoot_inj digests narrow free leftDistinct.of_map rightDistinct.of_map
      (fun text inside => .inl inside) (fun text inside => .inr inside) same
  refine ⟨fun leftDistinct rightDistinct same => ?_, ?_⟩
  · rw [commits leftDistinct rightDistinct same]
  · rintro block variant rfl rfl accepted otherAccepted same
    apply commits accepted.nodup_txids otherAccepted.nodup_txids
    rw [← accepted.merkleRoot_eq, ← otherAccepted.merkleRoot_eq]
    simp only [Block.header, Json.obj.injEq, List.cons.injEq, Prod.mk.injEq,
      Json.str.injEq, true_and] at same
    exact same.2.2.2.1

end

namespace TransactionRootSample

open ProofOfStakeChain NoTheftSample HeadCommitmentSample

attribute [local instance] Symbolic.primitives

/-- A block and its reseal carry one list of transactions, as their header tells. -/
theorem merkleRoot_commits_resealed :
    next.head.header = resealed.header ∧ next.head.transactions = resealed.transactions := by
  have digests : Merkle.Digests Symbolic.primitives.sha256 4 := ⟨by decide, fun _ => rfl⟩
  have hashed : ∀ text ∈ merkleInputs next.head.transactions, text ∈ next.hashedInputs := by
    intro text inside
    rw [hashedInputs_submitBlock next_submitted]
    exact List.mem_append_right _ (List.mem_cons_of_mem _ inside)
  have free : CollisionFree {text | text ∈ merkleInputs next.head.transactions ∨
      text ∈ merkleInputs resealed.transactions} := by
    apply nothing_collides.mono
    rintro text (inside | inside) <;> exact Or.inl (hashed text inside)
  have commits := (merkleRoot_commits digests (by decide) free).2 next.head resealed rfl rfl
    (Or.inr ⟨_, _, next_submitted⟩) (Or.inr ⟨_, _, resealed_submitted⟩)
  exact ⟨rfl, commits rfl⟩

end TransactionRootSample

end Mindees
