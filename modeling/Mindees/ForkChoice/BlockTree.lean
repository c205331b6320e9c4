import Mindees.Library.Best
import Mindees.Consensus.Genesis

/-!
# The block tree

Every accepted block is kept, keyed by its hash.  The heaviest branch wins among
the blocks that descend from the finalized checkpoint, ties break on the smaller
hash, and a block that extends the head is applied to the canonical chain without
replaying its branch.
-/

namespace Mindees

open Library

/-- The tree of a node. -/
structure BlockTree where
  genesisArgs : GenesisArgs
  /-- The chain of the head, state included. -/
  canonical : ProofOfStakeChain
  genesisHash : Str
  headHash : Str
  /-- The checkpoint an operator trusts. -/
  wsCheckpoint : Option Checkpoint
  finalizedHash : Str
  finalizedHeight : Int
  /-- The stored blocks by hash, genesis left out. -/
  blocks : Dict Str Block
  parent : Dict Str Str
  weight : Dict Str Int
  height : Dict Str Int

namespace BlockTree

variable [Primitives]

/-- The tree constructor. -/
def init (args : GenesisArgs) (checkpoint : Option Checkpoint := none) :
    Except Error BlockTree := do
  let canonical ← ProofOfStakeChain.init args
  let genesisHash := canonical.head.hash
  pure
    { genesisArgs := args
      canonical
      genesisHash
      headHash := genesisHash
      wsCheckpoint := checkpoint
      finalizedHash := genesisHash
      finalizedHeight := 0
      blocks := Dict.empty
      parent := Dict.empty
      weight := Dict.empty.set genesisHash 0
      height := Dict.empty.set genesisHash 0 }

/-! ## Walks

A walk along the parents that is longer than the number of stored blocks meets a
block twice and never ends. -/

/-- The hashes from genesis to a block, genesis left out. -/
def pathLoop (parent : Dict Str Str) (genesisHash : Str) :
    (fuel : Nat) → Str → Except Error (List Str)
  | fuel, hash =>
      if hash = genesisHash then .ok []
      else
        match fuel with
        | 0 => .error .diverges
        | fuel + 1 => do
            let previous ← require (parent.get? hash) (.validation s!"unknown block {text hash}")
            let path ← pathLoop parent genesisHash fuel previous
            pure (path ++ [hash])

/-- Replay the blocks with the given hashes. -/
def replay (blocks : Dict Str Block) (chain : ProofOfStakeChain) (path : List Str) :
    Except Error ProofOfStakeChain :=
  path.foldlM
    (fun chain hash => do
      let block ← require (blocks.get? hash) .keyError
      chain.submitBlock block)
    chain

/-- Replay a fresh chain from genesis up to a block. -/
def chainAt (tree : BlockTree) (hash : Str) : Except Error ProofOfStakeChain := do
  let path ← pathLoop tree.parent tree.genesisHash (tree.parent.size + 1) hash
  let chain ← ProofOfStakeChain.init tree.genesisArgs
  replay tree.blocks chain path

/-- Walk down to the finalized height and compare. -/
def descendsLoop (tree : BlockTree) : (fuel : Nat) → Str → Except Error Bool
  | fuel, current =>
      if tree.finalizedHeight < tree.height.getD current 0 then
        match fuel with
        | 0 => .error .diverges
        | fuel + 1 =>
            match tree.parent.get? current with
            | some previous => descendsLoop tree fuel previous
            | none => .ok false
      else .ok (current = tree.finalizedHash)

/-- The block is the finalized checkpoint or descends from it. -/
def descendsFromFinalized (tree : BlockTree) (hash : Str) : Except Error Bool :=
  descendsLoop tree (tree.parent.size + 1) hash

/-! ## Choosing the head -/

/-- More weight, or as much and a smaller hash. -/
def better (tree : BlockTree) (a b : Str) : Except Error Bool := do
  let weightA ← require (tree.weight.get? a) .keyError
  let weightB ← require (tree.weight.get? b) .keyError
  pure (if weightA ≠ weightB then weightB < weightA else a < b)

/-- One step of the scan for the best leaf. -/
def considerLeaf (tree : BlockTree) (best hash : Str) : Except Error Str := do
  let descends ← tree.descendsFromFinalized hash
  if descends then
    let wins ← tree.better hash best
    pure (if wins then hash else best)
  else pure best

/-- Choose the best leaf that descends from the finalized checkpoint, and
rebuild the canonical chain when it is a new one.  The second part of the
result is the tree that an exception leaves behind. -/
def updateHead (tree : BlockTree) : Except Error Unit × BlockTree :=
  match tree.weight.keys.foldlM tree.considerLeaf tree.finalizedHash with
  | .error error => (.error error, tree)
  | .ok best =>
      if best ≠ tree.headHash then
        let moved := { tree with headHash := best }
        match tree.chainAt best with
        | .error error => (.error error, moved)
        | .ok canonical => (.ok (), { moved with canonical })
      else (.ok (), tree)

/-! ## Adding a block -/

/-- A block that passed the checks of the tree and of its branch. -/
structure Admission where
  newHeight : Int
  /-- The chain of the branch, the block included. -/
  validated : ProofOfStakeChain
  /-- The weight of the branch. -/
  newWeight : Int

/-- The checks before the branch is looked at: known parent, finality and the
trusted checkpoint. -/
def guard (tree : BlockTree) (block : Block) : Except Error Int := do
  rejectIf (tree.weight.contains block.previousHash = false) "unknown parent (orphan block)"
  let parentHeight ← require (tree.height.get? block.previousHash) .keyError
  let newHeight := parentHeight + 1
  rejectIf (newHeight ≤ tree.finalizedHeight ∧ block.hash ≠ tree.finalizedHash)
    "block conflicts with the finalized prefix"
  if tree.finalizedHeight < newHeight then
    let descends ← tree.descendsFromFinalized block.previousHash
    rejectIf (descends = false) "block does not descend from the finalized checkpoint"
  rejectIf (∃ checkpoint ∈ tree.wsCheckpoint,
      newHeight = checkpoint.2 ∧ block.hash ≠ checkpoint.1)
    "block conflicts with the weak-subjectivity checkpoint"
  pure newHeight

/-- The block extends the canonical head. -/
def extendsHead (tree : BlockTree) (block : Block) : Bool := block.previousHash = tree.headHash

/-- The chain to validate a block on: the canonical one without a replay when
the block extends its head. -/
def parentState (tree : BlockTree) (block : Block) : Except Error ProofOfStakeChain :=
  if tree.extendsHead block then .ok tree.canonical else tree.chainAt block.previousHash

/-- All checks of a new block; none of them changes the tree. -/
def examine (tree : BlockTree) (block : Block) : Except Error Admission := do
  let newHeight ← tree.guard block
  let before ← tree.parentState block
  let proposerStake := before.stakeOf block.validator
  let validated ← before.submitBlock block
  let parentWeight ← require (tree.weight.get? block.previousHash) .keyError
  pure { newHeight, validated, newWeight := parentWeight + proposerStake }

/-- Keep an admitted block.  A block on the head has been applied to the
canonical chain by now. -/
def store (tree : BlockTree) (block : Block) (admission : Admission) : BlockTree :=
  { tree with
    canonical := if tree.extendsHead block then admission.validated else tree.canonical
    blocks := tree.blocks.set block.hash block
    parent := tree.parent.set block.hash block.previousHash
    height := tree.height.set block.hash admission.newHeight
    weight := tree.weight.set block.hash admission.newWeight }

@[simp] theorem store_blocks (tree : BlockTree) (block : Block) (admission : Admission) :
    (tree.store block admission).blocks = tree.blocks.set block.hash block := rfl

@[simp] theorem store_parent (tree : BlockTree) (block : Block) (admission : Admission) :
    (tree.store block admission).parent =
      tree.parent.set block.hash block.previousHash := rfl

@[simp] theorem store_height (tree : BlockTree) (block : Block) (admission : Admission) :
    (tree.store block admission).height =
      tree.height.set block.hash admission.newHeight := rfl

@[simp] theorem store_weight (tree : BlockTree) (block : Block) (admission : Admission) :
    (tree.store block admission).weight =
      tree.weight.set block.hash admission.newWeight := rfl

/-- The finalized hash stands at its height on a chain, or the chain is too
short to tell. -/
def frontierOn (tree : BlockTree) (chain : ProofOfStakeChain) : Bool :=
  match chain.chain[tree.finalizedHeight.toNat]? with
  | some block => block.hash = tree.finalizedHash
  | none => true

/-- Move the finality frontier to the checkpoint that a branch finalized. -/
def advanceFrontier (tree : BlockTree) (validated : ProofOfStakeChain) :
    Except Error BlockTree := do
  let (hash, height) := validated.finalizedCheckpoint
  if tree.finalizedHeight < height then
    raiseIf (tree.frontierOn validated = false)
      (Error.conflictingFinality
        s!"conflicting finality: branch finalized {text hash}@{height} but {text tree.finalizedHash}@{tree.finalizedHeight} is already final")
    pure { tree with finalizedHash := hash, finalizedHeight := height }
  else pure tree

/-- Validate a block, store it, and reorganise if needed.  The result says
whether the block is new; the tree is the one the call leaves behind, whether it
returns or raises. -/
def addBlock (tree : BlockTree) (block : Block) : Except Error Bool × BlockTree :=
  if tree.weight.contains block.hash then (.ok false, tree)
  else
    match tree.examine block with
    | .error error => (.error error, tree)
    | .ok admission =>
        let stored := tree.store block admission
        match stored.advanceFrontier admission.validated with
        | .error error => (.error error, stored)
        | .ok advanced =>
            if tree.extendsHead block then
              (.ok true, { advanced with headHash := block.hash })
            else
              match advanced.updateHead with
              | (.error error, moved) => (.error error, moved)
              | (.ok (), moved) => (.ok true, moved)

/-- The trees that calls lead to, accepted or not. -/
inductive Reachable (args : GenesisArgs) (checkpoint : Option Checkpoint) : BlockTree → Prop
  | init {tree : BlockTree} :
      BlockTree.init args checkpoint = .ok tree → Reachable args checkpoint tree
  | add {tree : BlockTree} (block : Block) :
      Reachable args checkpoint tree → Reachable args checkpoint (tree.addBlock block).2

end BlockTree

end Mindees
