import Mindees.Node.Service

/-!
# Gossip

The peer layer around a node.  It handles a message once, and keeps a block
whose parent is unknown until the parent arrives.  What it sends to its peers
changes no state and is left out.
-/

namespace Mindees

open Library

/-- The bound on remembered messages. -/
def SEEN_CAP : Nat := 100000

/-- The bound on parents that are waited for. -/
def MAX_ORPHANS : Nat := 5000

namespace Key

def type : Str := ['t', 'y', 'p', 'e']
def data : Str := ['d', 'a', 't', 'a']
def tx : Str := ['t', 'x']

end Key

section

variable [Primitives]

/-- The identifier of a sealed block, signature and key included. -/
def blockWireId (block : Block) : Str :=
  hex (sha256
    ((block.hash ++ block.validatorSig ++ block.proposerPubkey).flatMap String.utf8EncodeChar))

end

/-- A node on the network. -/
structure P2PNode where
  service : NodeService
  seenTx : Dict Str Unit
  seenBlock : Dict Str Unit
  /-- The blocks that wait for a parent, by the hash of the parent. -/
  orphans : Dict Str (List Json)
  /-- The checkpoint heights this node has voted for. -/
  votedTargets : Finset Int

namespace P2PNode

/-- A node that has heard nothing yet. -/
def init (service : NodeService) : P2PNode where
  service
  seenTx := Dict.empty
  seenBlock := Dict.empty
  orphans := Dict.empty
  votedTargets := ∅

/-- Remember a key, and forget the oldest one beyond the bound; the result says
whether the key is new. -/
def remember (seen : Dict Str Unit) (key : Str) : Bool × Dict Str Unit :=
  if seen.contains key then (false, seen)
  else
    let seen := seen.set key ()
    match seen.keys with
    | oldest :: _ => (true, if SEEN_CAP < seen.size then seen.erase oldest else seen)
    | [] => (true, seen)

section

variable [Primitives]

/-- A local client submits a transaction. -/
def submitTx (node : P2PNode) (tx : Transaction) : Except Error Unit × P2PNode :=
  match node.service.mempool.add tx node.service.chain with
  | .error error => (.error error, node)
  | .ok (_, mempool) =>
      (.ok (),
        { node with
          service := { node.service with mempool }
          seenTx := (remember node.seenTx tx.txid).2 })

/-- A validator produces the next block. -/
def produceAndGossip (node : P2PNode) (timestamp : Int) (randomness : Nat) :
    Except Error Json × P2PNode :=
  let (produced, service) := node.service.produceBlock timestamp randomness
  let node := { node with service }
  match produced with
  | .error error => (.error error, node)
  | .ok data =>
      match decodeBlock data with
      | .error error => (.error error, node)
      | .ok block => (.ok data, { node with seenBlock := (remember node.seenBlock block.hash).2 })

/-- Produce the next block if this node is elected. -/
def tick (node : P2PNode) (timestamp : Int) (randomness : Nat) :
    Except Error (Option Json) × P2PNode :=
  match node.service.validator with
  | none => (.ok none, node)
  | some wallet =>
      match node.service.chain.nextValidator with
      | .error error => (if error.isValidation then .ok none else .error error, node)
      | .ok elected =>
          if elected ≠ wallet.address then (.ok none, node)
          else
            let (produced, node) := node.produceAndGossip timestamp randomness
            (produced.map some, node)

/-- Hand a block to the service. -/
def receiveBlock (node : P2PNode) (data : Json) : Except Error Receipt × P2PNode :=
  let (received, service) := node.service.receiveBlock data
  (received, { node with service })

/-- Hand over the blocks that waited for one parent, and after each accepted one
those that waited for it. -/
def drainLoop (drain : P2PNode → Str → Except Error Unit × P2PNode) :
    List Json → P2PNode → Except Error Unit × P2PNode
  | [], node => (.ok (), node)
  | data :: rest, node =>
      match decodeBlock data with
      | .error error => (.error error, node)
      | .ok child =>
          match node.receiveBlock data with
          | (.error error, node) =>
              if error.isValidation then drainLoop drain rest node else (.error error, node)
          | (.ok receipt, node) =>
              if receipt.accepted then
                match drain node child.hash with
                | (.error error, node) => (.error error, node)
                | (.ok _, node) => drainLoop drain rest node
              else drainLoop drain rest node

/-- Release the blocks that waited for a parent.  A release inside a release takes more of
the interpreter's stack; the fuel is the room that is left for them. -/
def drainOrphans : (fuel : Nat) → P2PNode → Str → Except Error Unit × P2PNode
  | fuel, node, parent =>
      match node.orphans.get? parent with
      | none => (.ok (), node)
      | some waiting =>
          match fuel with
          | 0 => (.error .recursionError, node)
          | fuel + 1 =>
              drainLoop (drainOrphans fuel) waiting
                { node with orphans := node.orphans.erase parent }

/-- Hand a block over, or keep it until its parent is known. -/
def applyOrBuffer (node : P2PNode) (block : Block) (data : Json) :
    Except Error Unit × P2PNode :=
  if node.service.tree.weight.contains block.previousHash = false then
    if node.orphans.size < MAX_ORPHANS then
      (.ok (),
        { node with
          orphans := node.orphans.set block.previousHash
            (node.orphans.getD block.previousHash [] ++ [data]) })
    else (.ok (), node)
  else
    match node.receiveBlock data with
    | (.error error, node) => (if error.isValidation then .ok () else .error error, node)
    | (.ok receipt, node) =>
        if receipt.accepted then node.drainOrphans Primitives.nesting block.hash
        else (.ok (), node)

/-- Handle a message.  Greetings and requests for blocks change nothing here. -/
def onMessage (node : P2PNode) (msg : List (Str × Json)) : Except Error Unit × P2PNode :=
  let data := (Json.field msg Key.data).getD .null
  match Json.field msg Key.type with
  | some (.str kind) =>
      if kind = Key.tx then
        match decodeTx data with
        | .error error => (.error error, node)
        | .ok tx =>
            let (new, seenTx) := remember node.seenTx tx.txid
            let node := { node with seenTx }
            if new = false then (.ok (), node)
            else
              match node.service.mempool.add tx node.service.chain with
              | .error error => (if error.isValidation then .ok () else .error error, node)
              | .ok (_, mempool) =>
                  (.ok (), { node with service := { node.service with mempool } })
      else if kind = Key.block then
        match decodeBlock data with
        | .error error => (.error error, node)
        | .ok block =>
            let (new, seenBlock) := remember node.seenBlock (blockWireId block)
            let node := { node with seenBlock }
            if new = false then (.ok (), node) else node.applyOrBuffer block data
      else (.ok (), node)
  | _ => (.ok (), node)

/-! ## The nesting of released blocks -/

/-- Releasing waiting blocks raises no measure of the buffer that no nested release raises. -/
theorem drainLoop_le
    {μ : Type*}
    [Preorder μ]
    {measure : Dict Str (List Json) → μ}
    {drain : P2PNode → Str → Except Error Unit × P2PNode}
    (nested : ∀ node parent, measure (drain node parent).2.orphans ≤ measure node.orphans)
    (waiting : List Json)
    (node : P2PNode) :
    measure (drainLoop drain waiting node).2.orphans ≤ measure node.orphans := by
  induction waiting generalizing node with
  | nil => exact le_rfl
  | cons data rest inductionHypothesis =>
      have same : (node.receiveBlock data).2.orphans = node.orphans := rfl
      unfold drainLoop
      split
      · exact le_rfl
      · rename_i child _
        rw [← same]
        generalize node.receiveBlock data = outcome
        obtain ⟨result, after⟩ := outcome
        have drained := nested after child.hash
        cases result with
        | error error =>
            dsimp only
            split
            · exact inductionHypothesis after
            · exact le_rfl
        | ok receipt =>
            dsimp only
            split
            · generalize drain after child.hash = outcome at drained ⊢
              obtain ⟨result, last⟩ := outcome
              cases result with
              | error error => exact drained
              | ok _ => exact (inductionHypothesis last).trans drained
            · exact inductionHypothesis after

/-- A release raises no measure of the buffer that a popped key does not raise. -/
theorem drainOrphans_le
    {μ : Type*}
    [Preorder μ]
    {measure : Dict Str (List Json) → μ}
    (popped : ∀ orphans parent, measure (orphans.erase parent) ≤ measure orphans)
    (fuel : Nat)
    (node : P2PNode)
    (parent : Str) :
    measure (drainOrphans fuel node parent).2.orphans ≤ measure node.orphans := by
  induction fuel generalizing node parent with
  | zero =>
      unfold drainOrphans
      split <;> exact le_rfl
  | succ fuel inductionHypothesis =>
      unfold drainOrphans
      split
      · exact le_rfl
      · exact (drainLoop_le inductionHypothesis _ _).trans (popped _ _)

/-- The blocks that wait for a parent, those that wait for them and so on form a chain for
which the stack has no room. -/
def nests : (room : Nat) → Dict Str (List Json) → (parent : Str) → Bool
  | 0, orphans, parent => orphans.contains parent
  | room + 1, orphans, parent =>
      (orphans.getD parent []).any fun data =>
        match decodeBlock data with
        | .error _ => false
        | .ok child => nests room (orphans.erase parent) child.hash

theorem nests_succ
    {room : Nat}
    {orphans : Dict Str (List Json)}
    {parent : Str} :
    nests (room + 1) orphans parent = true ↔ ∃ data ∈ orphans.getD parent [],
      ∃ child, decodeBlock data = .ok child ∧
        nests room (orphans.erase parent) child.hash = true := by
  rw [nests, List.any_eq_true]
  refine exists_congr fun data => and_congr_right fun _ => ?_
  cases decodeBlock data <;> simp

/-- Every nested release has popped one more key. -/
theorem lt_size_of_nests
    {room : Nat}
    {orphans : Dict Str (List Json)}
    {parent : Str}
    (deep : nests room orphans parent = true) :
    room < orphans.size := by
  have smaller : orphans.contains parent = true →
      (orphans.erase parent).size < orphans.size := by
    intro waits
    obtain ⟨waiting, found⟩ := (Dict.contains_iff _ _).mp waits
    exact orphans.size_erase_lt found
  induction room generalizing orphans parent with
  | zero => exact Nat.zero_lt_of_lt (smaller deep)
  | succ room inductionHypothesis =>
      obtain ⟨data, inside, child, _, deeper⟩ := nests_succ.mp deep
      have waits : orphans.contains parent = true := by
        cases found : orphans.get? parent with
        | none =>
            rw [Dict.getD, found] at inside
            exact absurd inside List.not_mem_nil
        | some waiting => exact (Dict.contains_iff _ _).mpr ⟨waiting, found⟩
      have below := inductionHypothesis deeper fun there => by
        obtain ⟨waiting, found⟩ := (Dict.contains_iff _ _).mp there
        exact Dict.size_erase_lt _ found
      have popped := smaller waits
      omega

/-- Fewer blocks that wait nest no deeper. -/
theorem nests_mono
    {room : Nat}
    {fewer orphans : Dict Str (List Json)}
    {parent : Str}
    (part : ∀ key, fewer.get? key = none ∨ fewer.get? key = orphans.get? key)
    (deep : nests room fewer parent = true) :
    nests room orphans parent = true := by
  induction room generalizing fewer orphans parent with
  | zero =>
      obtain ⟨waiting, found⟩ := (Dict.contains_iff _ _).mp deep
      rcases part parent with gone | same
      · rw [gone] at found
        cases found
      · exact (Dict.contains_iff _ _).mpr ⟨waiting, same ▸ found⟩
  | succ room inductionHypothesis =>
      obtain ⟨data, inside, child, decoded, deeper⟩ := nests_succ.mp deep
      refine nests_succ.mpr ⟨data, ?_, child, decoded, inductionHypothesis ?_ deeper⟩
      · rcases part parent with gone | same
        · rw [Dict.getD, gone] at inside
          exact absurd inside List.not_mem_nil
        · rwa [Dict.getD, ← same]
      · intro key
        rw [Dict.get?_erase, Dict.get?_erase]
        split_ifs
        · exact .inl rfl
        · exact part key

theorem nests_erase
    {room : Nat}
    {orphans : Dict Str (List Json)}
    {key parent : Str}
    (deep : nests room (orphans.erase key) parent = true) :
    nests room orphans parent = true := by
  refine nests_mono (fun other => ?_) deep
  rw [Dict.get?_erase]
  split_ifs
  · exact .inl rfl
  · exact .inr rfl

/-- A release leaves nothing nested deeper than it was. -/
theorem nests_drainOrphans
    {room fuel : Nat}
    {node : P2PNode}
    {parent key : Str}
    (shallow : nests room node.orphans key = false) :
    nests room (drainOrphans fuel node parent).2.orphans key = false := by
  rw [← Bool.not_eq_true] at shallow ⊢
  have popped : ∀ (orphans : Dict Str (List Json)) other,
      (nests room (orphans.erase other) key = true) ≤ (nests room orphans key = true) :=
    fun orphans other => nests_erase
  exact fun deep => shallow
    (@drainOrphans_le _ Prop _ (fun orphans => nests room orphans key = true) popped fuel node
      parent deep)

/-! ## What every call keeps -/

/-- A property that handing over a block keeps, whatever waits for a parent. -/
structure KeptByBlocks (property : P2PNode → Prop) : Prop where
  receiveBlock : ∀ {node : P2PNode} (data : Json),
    property node → property (node.receiveBlock data).2
  waiting : ∀ {node : P2PNode} (orphans : Dict Str (List Json)),
    property node → property { node with orphans }

namespace KeptByBlocks

variable {property : P2PNode → Prop}

/-- Releasing waiting blocks keeps the property if every nested release does. -/
theorem drainLoop
    {drain : P2PNode → Str → Except Error Unit × P2PNode}
    (kept : KeptByBlocks property)
    (nested : ∀ node parent, property node → property (drain node parent).2)
    (waiting : List Json)
    (node : P2PNode)
    (holds : property node) :
    property (P2PNode.drainLoop drain waiting node).2 := by
  induction waiting generalizing node with
  | nil => exact holds
  | cons data rest inductionHypothesis =>
      have received := kept.receiveBlock data holds
      unfold P2PNode.drainLoop
      split
      · exact holds
      · rename_i child _
        generalize node.receiveBlock data = outcome at received ⊢
        obtain ⟨result, after⟩ := outcome
        have drained := nested after child.hash received
        cases result with
        | error error =>
            dsimp only
            split
            · exact inductionHypothesis after received
            · exact received
        | ok receipt =>
            dsimp only
            split
            · generalize drain after child.hash = outcome at drained ⊢
              obtain ⟨result, last⟩ := outcome
              cases result with
              | error error => exact drained
              | ok _ => exact inductionHypothesis last drained
            · exact inductionHypothesis after received

theorem drainOrphans
    (kept : KeptByBlocks property)
    (fuel : Nat)
    (node : P2PNode)
    (parent : Str)
    (holds : property node) :
    property (P2PNode.drainOrphans fuel node parent).2 := by
  induction fuel generalizing node parent with
  | zero =>
      unfold P2PNode.drainOrphans
      split <;> exact holds
  | succ fuel inductionHypothesis =>
      unfold P2PNode.drainOrphans
      split
      · exact holds
      · have popped := kept.waiting (node.orphans.erase parent) holds
        exact kept.drainLoop inductionHypothesis _ _ popped

theorem applyOrBuffer
    {node : P2PNode}
    (kept : KeptByBlocks property)
    (block : Block)
    (data : Json)
    (holds : property node) :
    property (node.applyOrBuffer block data).2 := by
  have received := kept.receiveBlock data holds
  unfold P2PNode.applyOrBuffer
  split
  · split
    · exact kept.waiting _ holds
    · exact holds
  · generalize node.receiveBlock data = outcome at received ⊢
    obtain ⟨result, after⟩ := outcome
    cases result with
    | error error => exact received
    | ok receipt =>
        dsimp only
        split
        · exact kept.drainOrphans _ _ _ received
        · exact received

end KeptByBlocks

/-- A property of a node that pooled transactions, received blocks, produced
blocks and the bookkeeping of messages keep. -/
structure Kept (property : P2PNode → Prop) : Prop where
  gossipTx : ∀ {node : P2PNode} {tx : Transaction} {new : Bool} {mempool : Mempool},
    property node → node.service.mempool.add tx node.service.chain = .ok (new, mempool) →
    property { node with service := { node.service with mempool } }
  receiveBlock : ∀ {node : P2PNode} (data : Json),
    property node → property (node.receiveBlock data).2
  produceBlock : ∀ {node : P2PNode} (timestamp : Int) (randomness : Nat),
    property node →
    property { node with service := (node.service.produceBlock timestamp randomness).2 }
  heard : ∀ {node : P2PNode} (seenTx seenBlock : Dict Str Unit) (orphans : Dict Str (List Json)),
    property node → property { node with seenTx, seenBlock, orphans }

namespace Kept

variable {property : P2PNode → Prop} {node : P2PNode}

theorem keptByBlocks (kept : Kept property) : KeptByBlocks property where
  receiveBlock := kept.receiveBlock
  waiting {node} orphans holds := kept.heard node.seenTx node.seenBlock orphans holds

theorem submitTx
    (kept : Kept property)
    (tx : Transaction)
    (holds : property node) :
    property (node.submitTx tx).2 := by
  unfold P2PNode.submitTx
  split
  · exact holds
  · rename_i added
    have pooled := kept.gossipTx holds added
    exact kept.heard _ _ _ pooled

theorem produceAndGossip
    (kept : Kept property)
    (timestamp : Int)
    (randomness : Nat)
    (holds : property node) :
    property (node.produceAndGossip timestamp randomness).2 := by
  have produced := kept.produceBlock timestamp randomness holds
  unfold P2PNode.produceAndGossip
  dsimp only
  split
  · exact produced
  · split
    · exact produced
    · exact kept.heard _ _ _ produced

theorem tick
    (kept : Kept property)
    (timestamp : Int)
    (randomness : Nat)
    (holds : property node) :
    property (node.tick timestamp randomness).2 := by
  have produced := kept.produceAndGossip timestamp randomness holds
  unfold P2PNode.tick
  split
  · exact holds
  · split
    · exact holds
    · split
      · exact holds
      · exact produced

/-- No message breaks a property that the calls behind it keep. -/
theorem onMessage
    (kept : Kept property)
    (msg : List (Str × Json))
    (holds : property node) :
    property (node.onMessage msg).2 := by
  unfold P2PNode.onMessage
  dsimp only
  split
  · split
    · split
      · exact holds
      · rename_i tx _
        have noted := kept.heard (remember node.seenTx tx.txid).2 node.seenBlock node.orphans holds
        split
        · exact noted
        · split
          · exact noted
          · rename_i added
            exact kept.gossipTx noted added
    · split
      · split
        · exact holds
        · rename_i block _
          have noted := kept.heard node.seenTx (remember node.seenBlock (blockWireId block)).2
            node.orphans holds
          split
          · exact noted
          · exact kept.keptByBlocks.applyOrBuffer _ _ noted
      · exact holds
  · exact holds

end Kept

/-- The key of a node never changes. -/
theorem kept_validator (validator : Option Wallet) :
    Kept fun node => node.service.validator = validator where
  gossipTx holds _ := holds
  receiveBlock {node} data holds := (node.service.validator_receiveBlock data).trans holds
  produceBlock {node} timestamp randomness holds :=
    (node.service.validator_produceBlock timestamp randomness).trans holds
  heard _ _ _ holds := holds

end

end P2PNode

end Mindees
