import Mindees.ForkChoice.Untyped
import Mindees.Node.BlockMessages

/-!
# Gossip of blocks of any JSON kind

The peer layer as in `P2PNode`, for messages whose fields hold whatever JSON values the
sender chose.  What a broadcast does while a message is handled comes with the message.
-/

namespace Mindees

open Library

namespace Untyped

/-! ## The pool -/

/-- A transaction with what its validity settled. -/
structure Pooled where
  tx : Transaction
  fields : Checked

/-- Transactions by identifier. -/
structure Mempool where
  pool : Dict Str Pooled

namespace Mempool

/-- The empty pool. -/
def init : Mempool := ⟨Dict.empty⟩

/-- `min(values, key=fee)`: the first of the cheapest. -/
def cheapest : List Pooled → Option Pooled
  | [] => none
  | first :: rest =>
      some (rest.foldl
        (fun best other => if other.fields.fee < best.fields.fee then other else best)
        first)

section

variable [Primitives]

/-- Admit a transaction; the result says whether it is new. -/
def add (mempool : Mempool) (tx : Transaction) (chain : Chain) : Except Error (Bool × Mempool) := do
  let valid ← tx.isValid
  let fields ← require valid (.validation "rejected: invalid signature or shape")
  rejectIf (fields.fee < MIN_FEE) s!"rejected: fee below floor {MIN_FEE}"
  rejectIf (fields.nonce < chain.state.ledger.nonces.getD fields.sender 0)
    "rejected: nonce already spent"
  if mempool.pool.contains tx.txid then pure (false, mempool)
  else if MAX_POOL_SIZE ≤ mempool.pool.size then
    let evicted ← require (cheapest mempool.pool.values) .valueError
    rejectIf (fields.fee ≤ evicted.fields.fee) "rejected: mempool full and fee does not out-bid"
    pure (true, ⟨(mempool.pool.erase evicted.tx.txid).set tx.txid ⟨tx, fields⟩⟩)
  else pure (true, ⟨mempool.pool.set tx.txid ⟨tx, fields⟩⟩)

end

/-- Drop what a new block consumed.  The validity of a transaction does not change. -/
def update (mempool : Mempool) (chain : Chain) : Mempool where
  pool := mempool.pool.filter fun _ pooled =>
    decide (chain.state.ledger.nonces.getD pooled.fields.sender 0 ≤ pooled.fields.nonce)

end Mempool

/-! ## The node -/

/-- A node, as far as messages change it. -/
structure NodeService where
  tree : BlockTree
  mempool : Mempool
  /-- The blocks on disk, in the order they were appended. -/
  store : List Block

variable [Primitives]

/-- Accept a block gossiped from a peer; the result says whether it is new. -/
def NodeService.receiveBlock (service : NodeService) (data : Json) :
    Except Error Bool × NodeService :=
  match decodeBlock data with
  | .error error => (.error error, service)
  | .ok block =>
      match service.tree.addBlock block with
      | (.error error, tree) => (.error error, { service with tree })
      | (.ok accepted, tree) =>
          (.ok accepted,
            if accepted then
              { tree
                store := service.store ++ [block]
                mempool := service.mempool.update tree.canonical }
            else { service with tree })

/-- The identifier of a sealed block, signature and key included. -/
def blockWireId (block : Block) : Except Error Str :=
  match block.validatorSig, block.proposerPubkey with
  | .str signature, .str publicKey =>
      .ok (hex (sha256 ((block.hash ++ signature ++ publicKey).flatMap String.utf8EncodeChar)))
  | _, _ => .error .typeError

/-! ## The peer layer -/

/-- A node on the network. -/
structure P2PNode where
  service : NodeService
  seenTx : Dict Str Unit
  seenBlock : Dict Str Unit
  /-- The blocks that wait for a parent, by the hash that they name. -/
  orphans : Dict Json.HashKey (List Json)

/-- A message that arrives, and what sending to all peers does while it is handled. -/
structure Delivery where
  msg : List (Str × Json)
  broadcast : Except Error Unit

namespace P2PNode

/-- A node that has heard nothing yet. -/
def init (service : NodeService) : P2PNode where
  service
  seenTx := Dict.empty
  seenBlock := Dict.empty
  orphans := Dict.empty

/-- Hand a block to the service. -/
def receiveBlock (node : P2PNode) (data : Json) : Except Error Bool × P2PNode :=
  let (received, service) := node.service.receiveBlock data
  (received, { node with service })

/-- Hand over the blocks that waited for one parent, and after each accepted one those that
waited for it. -/
def drainLoop
    (broadcast : Except Error Unit)
    (drain : P2PNode → Str → Except Error Unit × P2PNode) :
    List Json → P2PNode → Except Error Unit × P2PNode
  | [], node => (.ok (), node)
  | data :: rest, node =>
      match decodeBlock data with
      | .error error => (.error error, node)
      | .ok child =>
          match node.receiveBlock data with
          | (.error error, node) =>
              if error.isValidation then drainLoop broadcast drain rest node
              else (.error error, node)
          | (.ok accepted, node) =>
              if accepted then
                match broadcast with
                | .error error => (.error error, node)
                | .ok _ =>
                    match drain node child.hash with
                    | (.error error, node) => (.error error, node)
                    | (.ok _, node) => drainLoop broadcast drain rest node
              else drainLoop broadcast drain rest node

/-- Release the blocks that waited for a parent. -/
def drainOrphans (broadcast : Except Error Unit) :
    (fuel : Nat) → P2PNode → Str → Except Error Unit × P2PNode
  | fuel, node, parent =>
      match node.orphans.get? (.str parent) with
      | none => (.ok (), node)
      | some waiting =>
          match fuel with
          | 0 => (.error .recursionError, node)
          | fuel + 1 =>
              drainLoop broadcast (drainOrphans broadcast fuel) waiting
                { node with orphans := node.orphans.erase (.str parent) }

/-- Keep a block until its parent is known. -/
def buffer (node : P2PNode) (parent : Json.HashKey) (data : Json) : P2PNode :=
  if node.orphans.size < MAX_ORPHANS then
    { node with orphans := node.orphans.set parent (node.orphans.getD parent [] ++ [data]) }
  else node

/-- Hand a block over, or keep it until its parent is known. -/
def applyOrBuffer (broadcast : Except Error Unit) (node : P2PNode) (block : Block) (data : Json) :
    Except Error Unit × P2PNode :=
  match block.previousHash.hashKey with
  | none => (.error .typeError, node)
  | some parent =>
      if node.service.tree.knows block.previousHash ≠ .ok true then
        (broadcast, node.buffer parent data)
      else
        match node.receiveBlock data with
        | (.error error, node) => (if error.isValidation then .ok () else .error error, node)
        | (.ok accepted, node) =>
            if accepted then
              match broadcast with
              | .error error => (.error error, node)
              | .ok _ => drainOrphans broadcast Primitives.nesting node block.hash
            else (.ok (), node)

/-- A message with a block. -/
def onBlock (node : P2PNode) (delivery : Delivery) : Except Error Unit × P2PNode :=
  match decodeBlock (carried delivery.msg) with
  | .error error => (.error error, node)
  | .ok block =>
      match blockWireId block with
      | .error error => (.error error, node)
      | .ok id =>
          let (new, seenBlock) := Mindees.P2PNode.remember node.seenBlock id
          let node := { node with seenBlock }
          if new = false then (.ok (), node)
          else applyOrBuffer delivery.broadcast node block (carried delivery.msg)

/-- A message with a transaction. -/
def onTx (node : P2PNode) (delivery : Delivery) : Except Error Unit × P2PNode :=
  match decodeTx (carried delivery.msg) with
  | .error error => (.error error, node)
  | .ok tx =>
      let (new, seenTx) := Mindees.P2PNode.remember node.seenTx tx.txid
      let node := { node with seenTx }
      if new = false then (.ok (), node)
      else
        match node.service.mempool.add tx node.service.tree.canonical with
        | .error error => (if error.isValidation then .ok () else .error error, node)
        | .ok (_, mempool) =>
            (delivery.broadcast, { node with service := { node.service with mempool } })

/-- Handle a message.  Greetings and requests for blocks change nothing here. -/
def onMessage (node : P2PNode) (delivery : Delivery) : Except Error Unit × P2PNode :=
  match Json.field delivery.msg Key.type with
  | some (.str kind) =>
      if kind = Key.tx then node.onTx delivery
      else if kind = Key.block then node.onBlock delivery
      else (.ok (), node)
  | _ => (.ok (), node)

/-- Handle messages one after the other.  A message that raises does not stop the next one. -/
def hear (node : P2PNode) (deliveries : List Delivery) : P2PNode :=
  deliveries.foldl (fun node delivery => (node.onMessage delivery).2) node

@[simp] theorem hear_nil (node : P2PNode) : node.hear [] = node := rfl

@[simp] theorem hear_cons
    (node : P2PNode)
    (delivery : Delivery)
    (rest : List Delivery) :
    node.hear (delivery :: rest) = (node.onMessage delivery).2.hear rest := rfl

theorem hear_append
    (node : P2PNode)
    (earlier later : List Delivery) :
    node.hear (earlier ++ later) = (node.hear earlier).hear later :=
  List.foldl_append

/-! ## What releases keep -/

/-- A property that handing over a block and popping a parent keep. -/
structure KeptByReleases (property : P2PNode → Prop) : Prop where
  receiveBlock : ∀ {node : P2PNode} (data : Json),
    property node → property (node.receiveBlock data).2
  pop : ∀ {node : P2PNode} (parent : Json.HashKey),
    property node → property { node with orphans := node.orphans.erase parent }

namespace KeptByReleases

variable {property : P2PNode → Prop} {broadcast : Except Error Unit}

theorem drainLoop
    {drain : P2PNode → Str → Except Error Unit × P2PNode}
    (kept : KeptByReleases property)
    (nested : ∀ node parent, property node → property (drain node parent).2)
    (waiting : List Json)
    (node : P2PNode)
    (holds : property node) :
    property (P2PNode.drainLoop broadcast drain waiting node).2 := by
  induction waiting generalizing node with
  | nil => exact holds
  | cons data rest inductionHypothesis =>
      have received := kept.receiveBlock data holds
      unfold P2PNode.drainLoop
      split
      · exact holds
      · rename_i child _
        generalize node.receiveBlock data = outcome at received ⊢
        obtain ⟨result, after⟩ := outcome
        have drained := nested after child.hash received
        cases result with
        | error error =>
            dsimp only
            split
            · exact inductionHypothesis after received
            · exact received
        | ok accepted =>
            dsimp only
            split
            · cases broadcast with
              | error error => exact received
              | ok _ =>
                  dsimp only
                  generalize drain after child.hash = outcome at drained ⊢
                  obtain ⟨result, last⟩ := outcome
                  cases result with
                  | error error => exact drained
                  | ok _ => exact inductionHypothesis last drained
            · exact inductionHypothesis after received

theorem drainOrphans
    (kept : KeptByReleases property)
    (fuel : Nat)
    (node : P2PNode)
    (parent : Str)
    (holds : property node) :
    property (P2PNode.drainOrphans broadcast fuel node parent).2 := by
  induction fuel generalizing node parent with
  | zero =>
      unfold P2PNode.drainOrphans
      split <;> exact holds
  | succ fuel inductionHypothesis =>
      unfold P2PNode.drainOrphans
      split
      · exact holds
      · exact kept.drainLoop inductionHypothesis _ _ (kept.pop _ holds)

/-- What is handed over, or waits with its parent, keeps the property if the buffer does. -/
theorem applyOrBuffer
    {node : P2PNode}
    {block : Block}
    {data : Json}
    (kept : KeptByReleases property)
    (buffers : ∀ parent, node.service.tree.knows block.previousHash ≠ .ok true →
      block.previousHash.hashKey = some parent → property (node.buffer parent data))
    (holds : property node) :
    property (P2PNode.applyOrBuffer broadcast node block data).2 := by
  have received := kept.receiveBlock data holds
  unfold P2PNode.applyOrBuffer
  split
  · exact holds
  · rename_i parent hashable
    split_ifs with unknown
    · exact buffers parent unknown hashable
    · generalize node.receiveBlock data = outcome at received ⊢
      obtain ⟨result, after⟩ := outcome
      cases result with
      | error error => exact received
      | ok accepted =>
          dsimp only
          split
          · cases broadcast with
            | error error => exact received
            | ok _ => exact kept.drainOrphans _ _ _ received
          · exact received

end KeptByReleases


/-! ## What a message does -/

variable {node : P2PNode} {delivery : Delivery} {block : Block} {id : Str} {data : Json}
  {broadcast : Except Error Unit}

theorem onMessage_block
    (node : P2PNode)
    (isBlock : IsBlock delivery.msg) :
    node.onMessage delivery = node.onBlock delivery := by
  have apart : Key.block ≠ Key.tx := by decide
  rw [IsBlock] at isBlock
  simp only [onMessage, isBlock, if_neg apart, if_true]

/-- A block with an identifier is remembered, and handled if it is new. -/
theorem onBlock_eq
    (node : P2PNode)
    (decoded : decodeBlock (carried delivery.msg) = .ok block)
    (identified : blockWireId block = .ok id) :
    node.onBlock delivery =
      if node.seenBlock.contains id = true then (.ok (), node)
      else
        applyOrBuffer delivery.broadcast
          { node with seenBlock := (Mindees.P2PNode.remember node.seenBlock id).2 } block
          (carried delivery.msg) := by
  simp only [onBlock, decoded, identified]
  cases seen : node.seenBlock.contains id with
  | true =>
      have old : Mindees.P2PNode.remember node.seenBlock id = (false, node.seenBlock) := by
        rw [Mindees.P2PNode.remember, if_pos seen]
      rw [old]
      rfl
  | false =>
      have new : (Mindees.P2PNode.remember node.seenBlock id).1 = true := by
        rw [Mindees.P2PNode.remember, if_neg (by rw [seen]; exact Bool.false_ne_true)]
        dsimp only
        split <;> rfl
      rw [new]
      rfl

/-- Handing over and releasing blocks leaves the cache alone. -/
theorem keptByReleases_seenBlock (seen : Dict Str Unit) :
    KeptByReleases fun node => node.seenBlock = seen where
  receiveBlock _ holds := holds
  pop _ holds := holds

/-- After a message with a block its identifier is in the cache. -/
theorem seenBlock_onMessage
    (node : P2PNode)
    (isBlock : IsBlock delivery.msg)
    (decoded : decodeBlock (carried delivery.msg) = .ok block)
    (identified : blockWireId block = .ok id) :
    (node.onMessage delivery).2.seenBlock = (Mindees.P2PNode.remember node.seenBlock id).2 := by
  rw [onMessage_block node isBlock, onBlock_eq node decoded identified]
  split_ifs with seen
  · rw [Mindees.P2PNode.remember, if_pos seen]
  · refine (keptByReleases_seenBlock _).applyOrBuffer (fun parent _ _ => ?_) rfl
    rw [buffer]
    split_ifs <;> rfl

/-- A stored block stays stored. -/
theorem keptByReleases_tree
    (hash : Str)
    (block : Block) :
    KeptByReleases fun node => node.service.tree.Kept hash block where
  receiveBlock {node} data holds := by
    unfold receiveBlock NodeService.receiveBlock
    dsimp only
    split
    · exact holds
    · rename_i other _
      have kept := holds.addBlock other
      split
      · rename_i outcome
        rw [outcome] at kept
        exact kept
      · rename_i outcome
        rw [outcome] at kept
        split_ifs <;> exact kept
  pop _ holds := holds

/-- A new block that the tree accepts is stored. -/
theorem kept_applyOrBuffer
    (broadcast : Except Error Unit)
    (node : P2PNode)
    (decoded : decodeBlock data = .ok block)
    (acceptable : (node.service.tree.addBlock block).1 = .ok true) :
    (applyOrBuffer broadcast node block data).2.service.tree.Kept block.hash block := by
  obtain ⟨_, known, _⟩ := BlockTree.of_accepted acceptable
  have stored := BlockTree.kept_of_accepted acceptable
  obtain ⟨parent, hashable⟩ := BlockTree.hashKey_of_knows known
  have accepted : (node.receiveBlock data).1 = .ok true ∧
      (node.receiveBlock data).2.service.tree.Kept block.hash block := by
    unfold receiveBlock NodeService.receiveBlock
    simp only [decoded]
    generalize node.service.tree.addBlock block = outcome at acceptable stored ⊢
    obtain ⟨result, tree⟩ := outcome
    obtain rfl : result = .ok true := acceptable
    exact ⟨rfl, stored⟩
  unfold applyOrBuffer
  simp only [hashable, known, ne_eq, not_true_eq_false, if_false]
  generalize node.receiveBlock data = outcome at accepted ⊢
  obtain ⟨result, after⟩ := outcome
  obtain ⟨rfl, kept⟩ := accepted
  dsimp only
  rw [if_pos rfl]
  cases broadcast with
  | error error => exact kept
  | ok _ => exact (keptByReleases_tree block.hash block).drainOrphans _ _ _ kept

/-- A block that the tree does not accept waits for an unknown parent, or what waits stays as
it is and the tree becomes what the refusal leaves. -/
theorem applyOrBuffer_of_refused
    (broadcast : Except Error Unit)
    (node : P2PNode)
    (decoded : decodeBlock data = .ok block)
    (refused : (node.service.tree.addBlock block).1 ≠ .ok true) :
    (applyOrBuffer broadcast node block data).2.orphans = node.orphans ∧
        ((applyOrBuffer broadcast node block data).2.service.tree = node.service.tree ∨
          (applyOrBuffer broadcast node block data).2.service.tree =
            (node.service.tree.addBlock block).2) ∨
      ∃ parent, node.service.tree.knows block.previousHash = .ok false ∧
        block.previousHash.hashKey = some parent ∧
        (applyOrBuffer broadcast node block data).2 = node.buffer parent data := by
  have received : (node.receiveBlock data).1 ≠ .ok true ∧
      (node.receiveBlock data).2.orphans = node.orphans ∧
      (node.receiveBlock data).2.service.tree = (node.service.tree.addBlock block).2 := by
    refine ⟨?_, rfl, ?_⟩ <;> unfold receiveBlock NodeService.receiveBlock <;>
      simp only [decoded] <;> generalize node.service.tree.addBlock block = outcome at refused ⊢ <;>
      obtain ⟨result, tree⟩ := outcome
    · cases result with
      | error error => simp
      | ok accepted => exact refused
    · cases result with
      | error error => rfl
      | ok accepted => cases accepted <;> rfl
  unfold applyOrBuffer
  cases hashable : block.previousHash.hashKey with
  | none => exact .inl ⟨rfl, .inl rfl⟩
  | some parent =>
      obtain ⟨known, looked⟩ := node.service.tree.knows_of_hashKey hashable
      dsimp only
      rw [looked]
      cases known with
      | false => exact .inr ⟨parent, rfl, rfl, by rw [if_pos (by simp)]⟩
      | true =>
          rw [if_neg (by simp)]
          generalize node.receiveBlock data = outcome at received ⊢
          obtain ⟨result, after⟩ := outcome
          obtain ⟨refused, same, unchanged⟩ := received
          cases result with
          | error error => exact .inl ⟨same, .inr unchanged⟩
          | ok accepted =>
              cases accepted with
              | true => exact absurd rfl refused
              | false => exact .inl ⟨same, .inr unchanged⟩

/-- Only blocks wait. -/
theorem orphans_onMessage
    (node : P2PNode)
    (noBlock : ¬IsBlock delivery.msg) :
    (node.onMessage delivery).2.orphans = node.orphans := by
  unfold onMessage
  split
  · rename_i kind type
    have other : kind ≠ Key.block := by
      rintro rfl
      exact noBlock type
    rw [if_neg other]
    split_ifs
    · unfold onTx
      split
      · rfl
      · dsimp only
        split_ifs
        · rfl
        · split <;> rfl
    · rfl
  · rfl

end P2PNode

end Untyped

end Mindees
