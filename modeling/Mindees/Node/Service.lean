import Mindees.ForkChoice.HeadChoice
import Mindees.Node.Acceptance

/-!
# The node

A node keeps the block tree, the pool and the durable blocks, and produces a
block when its validator is elected.
-/

namespace Mindees

open Library

section

variable [Primitives]

/-- A node. -/
structure NodeService where
  tree : BlockTree
  mempool : Mempool
  validator : Option Wallet
  /-- Produce a block after every submitted transaction if it is our turn. -/
  autoproduce : Bool
  /-- The blocks on disk, in the order they were appended. -/
  store : List Block

/-- What `receive_block` reports. -/
structure Receipt where
  accepted : Bool
  height : Int
  head : Str
  finalizedHeight : Int

namespace NodeService

/-- Rebuild the tree from the persisted blocks. -/
def init
    (args : GenesisArgs)
    (persisted : List Block)
    (validator : Option Wallet := none)
    (autoproduce : Bool := false)
    (checkpoint : Option Checkpoint := none) : Except Error NodeService := do
  let genesis ← BlockTree.init args checkpoint
  let tree ← persisted.foldlM
    (fun tree block => do
      let _ ← (tree.addBlock block).1
      pure (tree.addBlock block).2)
    genesis
  pure { tree, mempool := .init, validator, autoproduce, store := persisted }

/-- The canonical chain. -/
def chain (service : NodeService) : ProofOfStakeChain := service.tree.canonical

/-- The validator of this node is elected. -/
def isOurTurn (service : NodeService) : Except Error Bool :=
  match service.validator with
  | none => .ok false
  | some wallet => do
      let elected ← service.chain.nextValidator
      pure (elected = wallet.address)

/-- The selection of the pool, sealed on the current head. -/
def nextBlock
    (service : NodeService)
    (wallet : Wallet)
    (timestamp : Int)
    (randomness : Nat) : Except Error Block :=
  sealBlock service.tree.canonical.head.hash (service.tree.canonical.head.index + 1) wallet
    (service.mempool.select service.chain) timestamp 0 randomness

/-- Keep an accepted block on disk and drop what it consumed from the pool. -/
def commit (service : NodeService) (tree : BlockTree) (block : Block) : NodeService :=
  { service with
    tree
    store := service.store ++ [block]
    mempool := service.mempool.update tree.canonical }

/-- Produce the next block.  The timestamp is the caller's or the clock's. -/
def produceBlock (service : NodeService) (timestamp : Int) (randomness : Nat) :
    Except Error Json × NodeService :=
  match service.validator, service.isOurTurn with
  | none, _ => (.error (.validation "node is not configured as a validator"), service)
  | some _, .error error => (.error error, service)
  | some _, .ok false =>
      match service.chain.nextValidator with
      | .error error => (.error error, service)
      | .ok elected =>
          (.error (.validation s!"not this node's turn (elected {text elected})"), service)
  | some wallet, .ok true =>
      match service.nextBlock wallet timestamp randomness with
      | .error error => (.error error, service)
      | .ok block =>
          match service.tree.addBlock block with
          | (.error error, tree) => (.error error, { service with tree })
          | (.ok _, tree) => (.ok block.encodeBlock, service.commit tree block)

/-- Admit a transaction, and produce a block at once if the node is set to. -/
def submitTx (service : NodeService) (data : Json) (timestamp : Int) (randomness : Nat) :
    Except Error (Str × Option Json) × NodeService :=
  let admitted := do
    let tx ← decodeTx data
    let (_, mempool) ← service.mempool.add tx service.chain
    pure (tx, mempool)
  match admitted with
  | .error error => (.error error, service)
  | .ok (tx, mempool) =>
      let service := { service with mempool }
      if service.autoproduce then
        match service.isOurTurn with
        | .error error => (.error error, service)
        | .ok false => (.ok (tx.txid, none), service)
        | .ok true =>
            match service.produceBlock timestamp randomness with
            | (.error error, after) => (.error error, after)
            | (.ok mined, after) => (.ok (tx.txid, some mined), after)
      else (.ok (tx.txid, none), service)

/-- Accept a block gossiped from a peer. -/
def receiveBlock (service : NodeService) (data : Json) : Except Error Receipt × NodeService :=
  match decodeBlock data with
  | .error error => (.error error, service)
  | .ok block =>
      match service.tree.addBlock block with
      | (.error error, tree) => (.error error, { service with tree })
      | (.ok accepted, tree) =>
          (.ok
            { accepted
              height := tree.canonical.head.index
              head := tree.canonical.head.hash
              finalizedHeight := tree.finalizedHeight },
            if accepted then service.commit tree block else { service with tree })

/-- The states that calls and gossip lead a node to. -/
inductive Reachable (args : GenesisArgs) (checkpoint : Option Checkpoint) : NodeService → Prop
  | init {persisted : List Block} {validator : Option Wallet} {autoproduce : Bool}
      {service : NodeService} :
      NodeService.init args persisted validator autoproduce checkpoint = .ok service →
      Reachable args checkpoint service
  | gossipTx {service : NodeService} {tx : Transaction} {new : Bool} {mempool : Mempool} :
      Reachable args checkpoint service →
      service.mempool.add tx service.chain = .ok (new, mempool) →
      Reachable args checkpoint { service with mempool }
  | submitTx {service : NodeService} (data : Json) (timestamp : Int) (randomness : Nat) :
      Reachable args checkpoint service →
      Reachable args checkpoint (service.submitTx data timestamp randomness).2
  | receiveBlock {service : NodeService} (data : Json) :
      Reachable args checkpoint service →
      Reachable args checkpoint (service.receiveBlock data).2
  | produceBlock {service : NodeService} (timestamp : Int) (randomness : Nat) :
      Reachable args checkpoint service →
      Reachable args checkpoint (service.produceBlock timestamp randomness).2

/-- Receiving a block leaves the key of the node alone. -/
theorem validator_receiveBlock
    (service : NodeService)
    (data : Json) :
    (service.receiveBlock data).2.validator = service.validator := by
  unfold receiveBlock
  split
  · rfl
  · split
    · rfl
    · split <;> rfl

/-- Producing a block leaves the key of the node alone. -/
theorem validator_produceBlock
    (service : NodeService)
    (timestamp : Int)
    (randomness : Nat) :
    (service.produceBlock timestamp randomness).2.validator = service.validator := by
  unfold produceBlock
  split
  · rfl
  · rfl
  · split <;> rfl
  · split
    · rfl
    · split <;> rfl

/-! ## What every call keeps -/

/-- The tree is reachable by added blocks and the pool is sound. -/
structure Consistent
    (args : GenesisArgs)
    (checkpoint : Option Checkpoint)
    (service : NodeService) : Prop where
  tree : BlockTree.Reachable args checkpoint service.tree
  mempool : service.mempool.Sound

namespace Consistent

variable {args : GenesisArgs} {checkpoint : Option Checkpoint} {service : NodeService}

theorem addBlock
    (consistent : service.Consistent args checkpoint)
    (block : Block) :
    Consistent args checkpoint { service with tree := (service.tree.addBlock block).2 } :=
  ⟨consistent.tree.add block, consistent.mempool⟩

theorem commit
    (consistent : service.Consistent args checkpoint)
    (block : Block) :
    Consistent args checkpoint (service.commit (service.tree.addBlock block).2 block) :=
  ⟨consistent.tree.add block, consistent.mempool.update _⟩

theorem add
    {tx : Transaction}
    {new : Bool}
    {mempool : Mempool}
    (consistent : service.Consistent args checkpoint)
    (added : service.mempool.add tx service.chain = .ok (new, mempool)) :
    Consistent args checkpoint { service with mempool } :=
  ⟨consistent.tree, consistent.mempool.add added⟩

theorem produceBlock
    (consistent : service.Consistent args checkpoint)
    (timestamp : Int)
    (randomness : Nat) :
    Consistent args checkpoint (service.produceBlock timestamp randomness).2 := by
  unfold NodeService.produceBlock
  split
  · exact consistent
  · exact consistent
  · split <;> exact consistent
  · split
    · exact consistent
    · rename_i block _
      have added := consistent.addBlock block
      have committed := consistent.commit block
      split
      · rename_i result
        rw [result] at added
        exact added
      · rename_i result
        rw [result] at committed
        exact committed

theorem receiveBlock
    (consistent : service.Consistent args checkpoint)
    (data : Json) :
    Consistent args checkpoint (service.receiveBlock data).2 := by
  unfold NodeService.receiveBlock
  split
  · exact consistent
  · rename_i block _
    have added := consistent.addBlock block
    have committed := consistent.commit block
    split
    · rename_i result
      rw [result] at added
      exact added
    · rename_i result
      rw [result] at added committed
      split
      · exact committed
      · exact added

theorem submitTx
    (consistent : service.Consistent args checkpoint)
    (data : Json)
    (timestamp : Int)
    (randomness : Nat) :
    Consistent args checkpoint (service.submitTx data timestamp randomness).2 := by
  unfold NodeService.submitTx
  dsimp only
  split
  · exact consistent
  · rename_i tx mempool admitted
    simp only [bind_eq_ok, pure_eq_ok, Prod.exists, Prod.mk.injEq] at admitted
    obtain ⟨_, _, new, _, added, rfl, rfl⟩ := admitted
    have grown := consistent.add added
    split
    · split
      · exact grown
      · exact grown
      · have produced := grown.produceBlock timestamp randomness
        split
        · rename_i result
          rw [result] at produced
          exact produced
        · rename_i result
          rw [result] at produced
          exact produced
    · exact grown

end Consistent

/-- Every reachable node is consistent. -/
theorem Reachable.consistent
    {args : GenesisArgs}
    {checkpoint : Option Checkpoint}
    {service : NodeService}
    (reachable : Reachable args checkpoint service) :
    service.Consistent args checkpoint := by
  induction reachable with
  | init initialised =>
      simp only [NodeService.init, bind_eq_ok, pure_eq_ok] at initialised
      obtain ⟨genesis, start, tree, replayed, rfl⟩ := initialised
      refine ⟨?_, Mempool.sound_init⟩
      refine foldlM_invariant (BlockTree.Reachable args checkpoint) ?_ (.init start) replayed
      intro block _ before after reached stepped
      simp only [bind_eq_ok, pure_eq_ok] at stepped
      obtain ⟨_, _, rfl⟩ := stepped
      exact reached.add block
  | gossipTx _ added inductionHypothesis => exact inductionHypothesis.add added
  | submitTx data timestamp randomness _ inductionHypothesis =>
      exact inductionHypothesis.submitTx data timestamp randomness
  | receiveBlock data _ inductionHypothesis => exact inductionHypothesis.receiveBlock data
  | produceBlock timestamp randomness _ inductionHypothesis =>
      exact inductionHypothesis.produceBlock timestamp randomness

end NodeService

end

end Mindees
