import Mindees.Consensus.Untyped
import Mindees.ForkChoice.BlockTree

/-!
# The block tree, with blocks of any JSON kind

The same tree as for blocks of the declared types, with every operation that the kind of
a field can make fail.
-/

namespace Mindees

open Library

namespace Untyped

section

variable [Primitives]

/-- `stake_of(address)`. -/
def Chain.stakeOf (chain : Chain) (address : Json) : Except Error Int :=
  match address with
  | .str address => .ok (chain.state.ledger.stakes.getD address 0)
  | other => if other.hashKey.isSome then .ok 0 else .error .typeError

end

/-- The tree of a node. -/
structure BlockTree where
  genesisArgs : GenesisArgs
  /-- The chain of the head, state included. -/
  canonical : Chain
  genesisHash : Str
  headHash : Str
  /-- The checkpoint an operator trusts. -/
  wsCheckpoint : Option Checkpoint
  finalizedHash : Str
  finalizedHeight : Int
  /-- The stored blocks by hash, genesis left out. -/
  blocks : Dict Str Block
  parent : Dict Str Str
  weight : Dict Str Int
  height : Dict Str Int

namespace BlockTree

variable [Primitives]

/-- The tree constructor. -/
def init (args : GenesisArgs) (checkpoint : Option Checkpoint := none) :
    Except Error BlockTree := do
  let genesis ← ProofOfStakeChain.init args
  let canonical := Chain.ofTyped genesis
  let genesisHash := canonical.head.hash
  pure
    { genesisArgs := args
      canonical
      genesisHash
      headHash := genesisHash
      wsCheckpoint := checkpoint
      finalizedHash := genesisHash
      finalizedHeight := 0
      blocks := Dict.empty
      parent := Dict.empty
      weight := Dict.empty.set genesisHash 0
      height := Dict.empty.set genesisHash 0 }

/-- `hash in weight`, for any value that a block can hold as the hash of its parent. -/
def knows (tree : BlockTree) (hash : Json) : Except Error Bool :=
  match hash with
  | .str hash => .ok (tree.weight.contains hash)
  | other => if other.hashKey.isSome then .ok false else .error .typeError

omit [Primitives] in
/-- A value that is looked up can be a key. -/
theorem hashKey_of_knows
    {tree : BlockTree}
    {hash : Json}
    {known : Bool}
    (looked : tree.knows hash = .ok known) :
    ∃ key, hash.hashKey = some key := by
  cases hash with
  | arr items => cases looked
  | obj fields => cases looked
  | null | bool _ | int _ | float _ | str _ => exact ⟨_, rfl⟩

omit [Primitives] in
theorem knows_of_hashKey
    (tree : BlockTree)
    {hash : Json}
    {key : Json.HashKey}
    (hashable : hash.hashKey = some key) :
    ∃ known, tree.knows hash = .ok known := by
  cases hash with
  | arr items => cases hashable
  | obj fields => cases hashable
  | null | bool _ | int _ | float _ | str _ => exact ⟨_, rfl⟩

/-! ## Walks -/

/-- Replay the blocks with the given hashes. -/
def replay (blocks : Dict Str Block) (chain : Chain) (path : List Str) : Except Error Chain :=
  path.foldlM
    (fun chain hash => do
      let block ← require (blocks.get? hash) .keyError
      chain.submitBlock block)
    chain

/-- Replay a fresh chain from genesis up to a block. -/
def chainAt (tree : BlockTree) (hash : Str) : Except Error Chain := do
  let path ← Mindees.BlockTree.pathLoop tree.parent tree.genesisHash (tree.parent.size + 1) hash
  let chain ← ProofOfStakeChain.init tree.genesisArgs
  replay tree.blocks (.ofTyped chain) path

/-- Walk down to the finalized height and compare. -/
def descendsLoop (tree : BlockTree) : (fuel : Nat) → Str → Except Error Bool
  | fuel, current =>
      if tree.finalizedHeight < tree.height.getD current 0 then
        match fuel with
        | 0 => .error .diverges
        | fuel + 1 =>
            match tree.parent.get? current with
            | some previous => descendsLoop tree fuel previous
            | none => .ok false
      else .ok (current = tree.finalizedHash)

/-- The block is the finalized checkpoint or descends from it. -/
def descendsFromFinalized (tree : BlockTree) (hash : Str) : Except Error Bool :=
  descendsLoop tree (tree.parent.size + 1) hash

/-! ## Choosing the head -/

/-- More weight, or as much and a smaller hash. -/
def better (tree : BlockTree) (a b : Str) : Except Error Bool := do
  let weightA ← require (tree.weight.get? a) .keyError
  let weightB ← require (tree.weight.get? b) .keyError
  pure (if weightA ≠ weightB then weightB < weightA else a < b)

/-- One step of the scan for the best leaf. -/
def considerLeaf (tree : BlockTree) (best hash : Str) : Except Error Str := do
  let descends ← tree.descendsFromFinalized hash
  if descends then
    let wins ← tree.better hash best
    pure (if wins then hash else best)
  else pure best

/-- Choose the best leaf that descends from the finalized checkpoint, and rebuild the
canonical chain when it is a new one. -/
def updateHead (tree : BlockTree) : Except Error Unit × BlockTree :=
  match tree.weight.keys.foldlM tree.considerLeaf tree.finalizedHash with
  | .error error => (.error error, tree)
  | .ok best =>
      if best ≠ tree.headHash then
        let moved := { tree with headHash := best }
        match tree.chainAt best with
        | .error error => (.error error, moved)
        | .ok canonical => (.ok (), { moved with canonical })
      else (.ok (), tree)

/-! ## Adding a block -/

/-- A block that passed the checks of the tree and of its branch. -/
structure Admission where
  /-- The hash of the parent, which has turned out to be a text. -/
  previousHash : Str
  newHeight : Int
  /-- The chain of the branch, the block included. -/
  validated : Chain
  /-- The weight of the branch. -/
  newWeight : Int

/-- The checks before the branch is looked at: known parent, finality and the trusted
checkpoint.  Returns the hash of the parent and the height of the block. -/
def guard (tree : BlockTree) (block : Block) : Except Error (Str × Int) := do
  let known ← tree.knows block.previousHash
  rejectIf (known = false) "unknown parent (orphan block)"
  let previousHash := match block.previousHash with
    | .str hash => hash
    | _ => []
  let parentHeight ← require (tree.height.get? previousHash) .keyError
  let newHeight := parentHeight + 1
  rejectIf (newHeight ≤ tree.finalizedHeight ∧ block.hash ≠ tree.finalizedHash)
    "block conflicts with the finalized prefix"
  if tree.finalizedHeight < newHeight then
    let descends ← tree.descendsFromFinalized previousHash
    rejectIf (descends = false) "block does not descend from the finalized checkpoint"
  rejectIf (∃ checkpoint ∈ tree.wsCheckpoint,
      newHeight = checkpoint.2 ∧ block.hash ≠ checkpoint.1)
    "block conflicts with the weak-subjectivity checkpoint"
  pure (previousHash, newHeight)

/-- The chain to validate a block on: the canonical one without a replay when the parent is
its head. -/
def parentState (tree : BlockTree) (previousHash : Str) : Except Error Chain :=
  if previousHash = tree.headHash then .ok tree.canonical else tree.chainAt previousHash

/-- All checks of a new block; none of them changes the tree. -/
def examine (tree : BlockTree) (block : Block) : Except Error Admission := do
  let (previousHash, newHeight) ← tree.guard block
  let before ← tree.parentState previousHash
  let proposerStake ← before.stakeOf block.validator
  let validated ← before.submitBlock block
  let parentWeight ← require (tree.weight.get? previousHash) .keyError
  pure { previousHash, newHeight, validated, newWeight := parentWeight + proposerStake }

/-- Keep an admitted block. -/
def store (tree : BlockTree) (block : Block) (admission : Admission) : BlockTree :=
  { tree with
    canonical :=
      if admission.previousHash = tree.headHash then admission.validated else tree.canonical
    blocks := tree.blocks.set block.hash block
    parent := tree.parent.set block.hash admission.previousHash
    height := tree.height.set block.hash admission.newHeight
    weight := tree.weight.set block.hash admission.newWeight }

/-- The finalized hash stands at its height on a chain, or the chain is too short to tell. -/
def frontierOn (tree : BlockTree) (chain : Chain) : Bool :=
  match chain.chain[tree.finalizedHeight.toNat]? with
  | some block => block.hash = tree.finalizedHash
  | none => true

/-- Move the finality frontier to the checkpoint that a branch finalized. -/
def advanceFrontier (tree : BlockTree) (validated : Chain) : Except Error BlockTree := do
  let (hash, height) := validated.state.ledger.finalized
  if tree.finalizedHeight < height then
    raiseIf (tree.frontierOn validated = false)
      (Error.conflictingFinality
        s!"conflicting finality: branch finalized {text hash}@{height} but {text tree.finalizedHash}@{tree.finalizedHeight} is already final")
    pure { tree with finalizedHash := hash, finalizedHeight := height }
  else pure tree

/-- Validate a block, store it, and reorganise if needed.  The result says whether the block
is new; the tree is the one the call leaves behind, whether it returns or raises. -/
def addBlock (tree : BlockTree) (block : Block) : Except Error Bool × BlockTree :=
  if tree.weight.contains block.hash then (.ok false, tree)
  else
    match tree.examine block with
    | .error error => (.error error, tree)
    | .ok admission =>
        let stored := tree.store block admission
        match stored.advanceFrontier admission.validated with
        | .error error => (.error error, stored)
        | .ok advanced =>
            if admission.previousHash = tree.headHash then
              (.ok true, { advanced with headHash := block.hash })
            else
              match advanced.updateHead with
              | (.error error, moved) => (.error error, moved)
              | (.ok (), moved) => (.ok true, moved)

/-! ## What is stored stays -/

theorem updateHead_blocks
    (tree : BlockTree) :
    tree.updateHead.2.blocks = tree.blocks ∧ tree.updateHead.2.weight = tree.weight := by
  unfold updateHead
  dsimp only
  split
  · exact ⟨rfl, rfl⟩
  · split_ifs
    · split <;> exact ⟨rfl, rfl⟩
    · exact ⟨rfl, rfl⟩

theorem advanceFrontier_blocks
    {tree advanced : BlockTree}
    {validated : Chain}
    (moved : tree.advanceFrontier validated = .ok advanced) :
    advanced.blocks = tree.blocks ∧ advanced.weight = tree.weight := by
  unfold advanceFrontier at moved
  dsimp only at moved
  split_ifs at moved
  · simp only [bind_eq_ok, raiseIf_eq_ok, pure_eq_ok] at moved
    obtain ⟨_, _, rfl⟩ := moved
    exact ⟨rfl, rfl⟩
  · cases moved
    exact ⟨rfl, rfl⟩

/-- A call leaves the stored blocks as they are, or stores a block that was not known. -/
theorem addBlock_cases
    (tree : BlockTree)
    (block : Block) :
    (tree.addBlock block).1 ≠ .ok true ∧ (tree.addBlock block).2.blocks = tree.blocks ∧
        (tree.addBlock block).2.weight = tree.weight ∨
      ∃ weight, tree.weight.contains block.hash = false ∧
        (tree.addBlock block).2.blocks = tree.blocks.set block.hash block ∧
        (tree.addBlock block).2.weight = tree.weight.set block.hash weight := by
  unfold addBlock
  split_ifs with known
  · exact .inl ⟨by simp, rfl, rfl⟩
  · split
    · exact .inl ⟨by simp, rfl, rfl⟩
    · rename_i admission _
      refine .inr ⟨admission.newWeight, eq_false_of_ne_true known, ?_⟩
      dsimp only
      split
      · exact ⟨rfl, rfl⟩
      · rename_i advanced moved
        obtain ⟨blocks, weight⟩ := advanceFrontier_blocks moved
        split_ifs
        · exact ⟨blocks, weight⟩
        · obtain ⟨sameBlocks, sameWeight⟩ := advanced.updateHead_blocks
          split
          · rename_i outcome
            rw [outcome] at sameBlocks sameWeight
            exact ⟨sameBlocks.trans blocks, sameWeight.trans weight⟩
          · rename_i outcome
            rw [outcome] at sameBlocks sameWeight
            exact ⟨sameBlocks.trans blocks, sameWeight.trans weight⟩

/-- What is known is stored, but for genesis. -/
def Kept (tree : BlockTree) (hash : Str) (block : Block) : Prop :=
  tree.blocks.get? hash = some block ∧ tree.weight.contains hash = true

theorem Kept.addBlock
    {tree : BlockTree}
    {hash : Str}
    {block : Block}
    (kept : tree.Kept hash block)
    (other : Block) :
    (tree.addBlock other).2.Kept hash block := by
  rcases tree.addBlock_cases other with ⟨_, blocks, weight⟩ | ⟨added, new, blocks, weight⟩
  · rwa [Kept, blocks, weight]
  · have apart : other.hash ≠ hash := by
      rintro rfl
      rw [kept.2] at new
      cases new
    rw [Kept, blocks, weight, Dict.get?_set, if_neg apart, Dict.contains_set, kept.2, Bool.or_true]
    exact ⟨kept.1, rfl⟩

theorem kept_of_accepted
    {tree : BlockTree}
    {block : Block}
    (accepted : (tree.addBlock block).1 = .ok true) :
    (tree.addBlock block).2.Kept block.hash block := by
  rcases tree.addBlock_cases block with ⟨refused, _⟩ | ⟨added, _, blocks, weight⟩
  · exact absurd accepted refused
  · rw [Kept, blocks, weight, Dict.get?_set, if_pos rfl, Dict.contains_set]
    simp

/-- An accepted block is new, its parent is known, and it is valid on some chain. -/
theorem of_accepted
    {tree : BlockTree}
    {block : Block}
    (accepted : (tree.addBlock block).1 = .ok true) :
    tree.weight.contains block.hash = false ∧ tree.knows block.previousHash = .ok true ∧
      ∃ before after : Chain, before.submitBlock block = .ok after := by
  unfold addBlock at accepted
  split_ifs at accepted with known
  · simp at accepted
  · refine ⟨eq_false_of_ne_true known, ?_⟩
    split at accepted
    · cases accepted
    · rename_i admission examined
      simp only [examine, guard, rejectIf, bind_eq_ok, raiseIf_eq_ok, exists_unit] at examined
      obtain ⟨_, ⟨known, knows, there, _⟩, before, _, _, _, after, submitted, _⟩ := examined
      rw [knows, eq_true_of_ne_false there]
      exact ⟨rfl, before, after, submitted⟩

/-- A block that fails a check leaves the tree alone. -/
theorem addBlock_of_refused
    {tree : BlockTree}
    {block : Block}
    (refused : succeeded (tree.examine block) = false) :
    (tree.addBlock block).1 ≠ .ok true ∧ (tree.addBlock block).2 = tree := by
  unfold addBlock
  cases examined : tree.examine block with
  | ok admission =>
      rw [examined] at refused
      cases refused
  | error error => split_ifs <;> exact ⟨by simp, rfl⟩

end BlockTree

end Untyped

end Mindees
