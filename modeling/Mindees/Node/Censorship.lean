import Mindees.Consensus.Embedding
import Mindees.Node.Untyped
import Mindees.Node.Voting

/-!
# Forged block messages

A node remembers the identifier of a block message before it looks at the block.
The identifier covers the hash, the signature and the key of the block, but not
its transactions, so a forged message with the identifier of a real one hides
the real one.
-/

namespace Mindees

open Library

namespace Untyped

namespace P2PNode

variable [Primitives]

/-- The identifiers of the blocks that messages carry, whatever kinds their fields are of. -/
def wireIds (deliveries : List Delivery) : List Str :=
  deliveries.filterMap fun delivery =>
    match decodeBlock (carried delivery.msg) with
    | .ok block => (blockWireId block).toOption
    | .error _ => none

/-- Remember identifiers one after the other. -/
def rememberAll (seen : Dict Str Unit) (ids : List Str) : Dict Str Unit :=
  ids.foldl (fun seen id => (Mindees.P2PNode.remember seen id).2) seen

/-- Block messages that leave the tree of the node as it is. -/
structure Rejects (node : P2PNode) (deliveries : List Delivery) : Prop where
  areBlocks : ∀ delivery ∈ deliveries, IsBlock delivery.msg
  unchanged : ∀ earlier delivery later, deliveries = earlier ++ delivery :: later →
    ((node.hear earlier).onMessage delivery).2.service.tree = (node.hear earlier).service.tree

variable {node : P2PNode} {deliveries : List Delivery} {delivery : Delivery} {block : Block}
  {id : Str}

theorem Rejects.tree_eq
    (rejects : node.Rejects deliveries) :
    (node.hear deliveries).service.tree = node.service.tree := by
  have kept : ∀ {earlier}, earlier <+: deliveries →
      (node.hear earlier).service.tree = node.service.tree := by
    intro earlier inside
    induction earlier using List.reverseRecOn with
    | nil => rfl
    | append_singleton earlier delivery inductionHypothesis =>
        obtain ⟨later, rfl⟩ := inside
        rw [List.append_assoc] at rejects
        have before := inductionHypothesis (by simp)
        rw [hear_append]
        exact (rejects.unchanged earlier delivery later rfl).trans before
  exact kept List.prefix_rfl

/-- A block message changes the cache by the identifier of its block. -/
theorem seenBlock_eq
    (node : P2PNode)
    (isBlock : IsBlock delivery.msg) :
    (node.onMessage delivery).2.seenBlock = rememberAll node.seenBlock (wireIds [delivery]) := by
  cases decoded : decodeBlock (carried delivery.msg) with
  | error error => simp [onMessage_block node isBlock, onBlock, wireIds, decoded, rememberAll]
  | ok block =>
      cases identified : blockWireId block with
      | error error =>
          simp [onMessage_block node isBlock, onBlock, wireIds, decoded, identified, rememberAll,
            Except.toOption]
      | ok id =>
          have ids : wireIds [delivery] = [id] := by
            simp [wireIds, decoded, identified, Except.toOption]
          rw [node.seenBlock_onMessage isBlock decoded identified, ids, rememberAll,
            List.foldl_cons, List.foldl_nil]

theorem wireIds_cons
    (delivery : Delivery)
    (rest : List Delivery) :
    wireIds (delivery :: rest) = wireIds [delivery] ++ wireIds rest :=
  List.filterMap_append (l := [delivery])

/-- Block messages change the cache by the identifiers of their blocks. -/
theorem seenBlock_hear
    (node : P2PNode)
    (areBlocks : ∀ delivery ∈ deliveries, IsBlock delivery.msg) :
    (node.hear deliveries).seenBlock = rememberAll node.seenBlock (wireIds deliveries) := by
  induction deliveries generalizing node with
  | nil => rfl
  | cons delivery rest inductionHypothesis =>
      obtain ⟨isBlock, others⟩ := List.forall_mem_cons.mp areBlocks
      rw [hear_cons, inductionHypothesis _ others, node.seenBlock_eq isBlock,
        wireIds_cons delivery rest, rememberAll, rememberAll, rememberAll, List.foldl_append]

/-- A block that a tree accepts has an identifier. -/
theorem exists_blockWireId
    {tree : BlockTree}
    (acceptable : (tree.addBlock block).1 = .ok true) :
    ∃ id, blockWireId block = .ok id := by
  have texts : ∀ {value : Json} {bytes : Bytes}, hexBytes value = .ok bytes →
      ∃ text, value = .str text := by
    intro value bytes read
    cases value with
    | str text => exact ⟨text, rfl⟩
    | null | bool _ | int _ | float _ | arr _ | obj _ => cases read
  obtain ⟨_, _, before, after, submitted⟩ := BlockTree.of_accepted acceptable
  simp only [Chain.submitBlock, Chain.applyChecked, bind_eq_ok] at submitted
  obtain ⟨_, ⟨_, _, _, _, _, _, _, _, _, proposed, _⟩, _⟩ := submitted
  simp only [checkProposer, bind_eq_ok] at proposed
  obtain ⟨_, _, _, _, _, _, _, _, _, _, _, _, _, _, _, key, _, _, _, _, _, signature, _⟩ := proposed
  obtain ⟨keyText, keyIs⟩ := texts key
  obtain ⟨signatureText, signatureIs⟩ := texts signature
  exact ⟨_, by rw [blockWireId, keyIs, signatureIs]⟩

/-- What is in the cache is dropped, and what is not is handed over. -/
theorem kept_iff_unseen
    (rejects : node.Rejects deliveries)
    (isBlock : IsBlock delivery.msg)
    (decoded : decodeBlock (carried delivery.msg) = .ok block)
    (identified : blockWireId block = .ok id)
    (acceptable : (node.service.tree.addBlock block).1 = .ok true) :
    ((node.hear deliveries).onMessage delivery).2.service.tree.Kept block.hash block ↔
      (rememberAll node.seenBlock (wireIds deliveries)).contains id = false := by
  have tree := rejects.tree_eq
  rw [← seenBlock_hear node rejects.areBlocks, onMessage_block _ isBlock,
    onBlock_eq _ decoded identified]
  split_ifs with seen
  · refine iff_of_false (fun stored => ?_) (by rw [seen]; exact Bool.true_eq_false.mp)
    have known := stored.2
    rw [tree, (BlockTree.of_accepted acceptable).1] at known
    cases known
  · refine iff_of_true (kept_applyOrBuffer _ _ decoded ?_) (eq_false_of_ne_true seen)
    dsimp only
    rw [tree]
    exact acceptable

/-- A block that the tree does not accept leaves the tree alone. -/
theorem tree_onMessage_unchanged
    (node : P2PNode)
    (isBlock : IsBlock delivery.msg)
    (decoded : decodeBlock (carried delivery.msg) = .ok block)
    (refused : (node.service.tree.addBlock block).1 ≠ .ok true)
    (unstored : (node.service.tree.addBlock block).2 = node.service.tree) :
    (node.onMessage delivery).2.service.tree = node.service.tree := by
  rw [onMessage_block node isBlock]
  cases identified : Untyped.blockWireId block with
  | error error => simp only [onBlock, decoded, identified]
  | ok id =>
      rw [onBlock_eq node decoded identified]
      split_ifs
      · rfl
      · set marked : P2PNode :=
          { node with seenBlock := (Mindees.P2PNode.remember node.seenBlock id).2 }
        rcases applyOrBuffer_of_refused delivery.broadcast marked decoded refused with
          ⟨_, same | after⟩ | ⟨parent, _, _, waits⟩
        · exact same
        · exact after.trans unstored
        · rw [waits, buffer]
          split_ifs <;> rfl

/-- After block messages that a node rejects, a block that its tree accepts is added exactly
when its identifier is not in the cache. -/
theorem stored_after_rejected_iff
    (rejects : node.Rejects deliveries)
    (isBlock : IsBlock delivery.msg)
    (decoded : decodeBlock (carried delivery.msg) = .ok block)
    (identified : blockWireId block = .ok id)
    (acceptable : (node.service.tree.addBlock block).1 = .ok true) :
    ((node.hear deliveries).onMessage delivery).2.service.tree.Kept block.hash block ↔
      (rememberAll node.seenBlock (wireIds deliveries)).contains id = false :=
  kept_iff_unseen rejects isBlock decoded identified acceptable

end P2PNode

end Untyped

/-! ## A twin -/

namespace CensorshipSample

open Untyped Untyped.P2PNode

attribute [local instance] Symbolic.primitives

/-- A fresh tree and a block for it. -/
structure Scene where
  tree : Untyped.BlockTree
  block : Block

namespace Scene

/-- The block without its transactions. -/
def twin (scene : Scene) : Block := { scene.block with transactions := [] }

def node (scene : Scene) : Untyped.P2PNode :=
  .init { tree := scene.tree, mempool := .init, store := [] }

/-- The tree accepts the block and refuses the twin. -/
def splits (scene : Scene) : Bool :=
  decide ((scene.tree.addBlock (.ofTyped scene.block)).1.toOption = some true) &&
    decide (succeeded (scene.tree.examine (.ofTyped scene.twin)) = false) &&
    decide (scene.block.postInit = scene.block) && decide (scene.twin.postInit = scene.twin)

end Scene

/-- A message with a block, sent on to peers that all listen. -/
def message (block : Block) : Delivery := ⟨blockMessage block.encodeBlock, .ok ()⟩

def stage : Except Error Scene := do
  let tree ← Untyped.BlockTree.init ForkSample.args
  let blocks ← ForkSample.blocksOf [[.pay 0 0 1 0]]
  let block ← require blocks.head? .indexError
  pure { tree, block }

def forged : Except Error Scene := do
  let scene ← stage
  raiseIf (scene.splits = false) Error.valueError
  pure scene

theorem forged_staged : succeeded forged = true := by decide +kernel

/-- What the scene shows. -/
structure Shows (scene : Scene) : Prop where
  initialised : Untyped.BlockTree.init ForkSample.args = .ok scene.tree
  acceptable : (scene.tree.addBlock (.ofTyped scene.block)).1 = .ok true
  refused : (scene.tree.addBlock (.ofTyped scene.twin)).1 ≠ .ok true ∧
    (scene.tree.addBlock (.ofTyped scene.twin)).2 = scene.tree
  block : Untyped.decodeBlock (carried (message scene.block).msg) = .ok (.ofTyped scene.block)
  twin : Untyped.decodeBlock (carried (message scene.twin).msg) = .ok (.ofTyped scene.twin)

theorem shown : ∃ scene, Shows scene := by
  obtain ⟨_, ran⟩ := (succeeded_iff forged).mp forged_staged
  simp only [forged, stage, bind_eq_ok, raiseIf_eq_ok, exists_unit, pure_eq_ok,
    Bool.not_eq_false] at ran
  obtain ⟨scene, ⟨tree, initialised, _, _, block, _, rfl⟩, splits, _⟩ := ran
  simp only [Scene.splits, Bool.and_eq_true, decide_eq_true_eq] at splits
  obtain ⟨⟨⟨accepted, refused⟩, built⟩, twinBuilt⟩ := splits
  refine ⟨⟨tree, block⟩, initialised, ?_, ?_, ?_, ?_⟩
  · cases added : (tree.addBlock (.ofTyped block)).1 with
    | error error =>
        rw [added] at accepted
        cases accepted
    | ok value =>
        rw [added] at accepted
        rw [Option.some.inj accepted]
  · exact Untyped.BlockTree.addBlock_of_refused refused
  · exact @decodeBlock_of_typed _ block.encodeBlock _ (by rw [decodeBlock_encodeBlock, built])
  · exact @decodeBlock_of_typed _ (Scene.twin ⟨tree, block⟩).encodeBlock _
      (by rw [decodeBlock_encodeBlock, twinBuilt])

namespace Shows

variable {scene : Scene}

/-- The node rejects the message with the twin. -/
theorem rejects (shows : Shows scene) : scene.node.Rejects [message scene.twin] := by
  constructor
  · intro delivery inside
    rw [List.mem_singleton.mp inside]
    exact isBlock_blockMessage _
  · intro earlier delivery later split
    obtain ⟨rfl, rfl, rfl⟩ : earlier = [] ∧ message scene.twin = delivery ∧ later = [] := by
      cases earlier with
      | nil => simpa using split
      | cons first rest => simp at split
    have isBlock : IsBlock (message scene.twin).msg := isBlock_blockMessage _
    exact tree_onMessage_unchanged scene.node isBlock shows.twin shows.refused.1 shows.refused.2

/-- The twin has put the identifier of the block into the cache. -/
theorem seen (shows : Shows scene) :
    ∃ id, Untyped.blockWireId (.ofTyped scene.block) = .ok id ∧
      (rememberAll scene.node.seenBlock (wireIds [message scene.twin])).contains id = true := by
  obtain ⟨id, identified⟩ := exists_blockWireId shows.acceptable
  have twin : Untyped.blockWireId (.ofTyped scene.twin) = .ok id := identified
  have ids : wireIds [message scene.twin] = [id] := by
    simp only [wireIds, List.filterMap_cons, shows.twin, twin, List.filterMap_nil]
    rfl
  refine ⟨id, identified, ?_⟩
  rw [ids, Scene.node, Untyped.P2PNode.init, rememberAll]
  simp [Mindees.P2PNode.remember, Dict.keys, Dict.set, Dict.empty, Dict.put, Dict.contains,
    Dict.get?, Dict.lookup, Dict.size, SEEN_CAP]

end Shows

/-- After the twin the block is not added. -/
theorem stored_after_rejected_iff_twin :
    ∃ scene, Shows scene ∧
      ¬((scene.node.hear [message scene.twin]).onMessage
        (message scene.block)).2.service.tree.Kept (Untyped.Block.ofTyped scene.block).hash
          (.ofTyped scene.block) := by
  obtain ⟨scene, shows⟩ := shown
  obtain ⟨id, identified, seen⟩ := shows.seen
  refine ⟨scene, shows, fun stored => ?_⟩
  have isBlock : IsBlock (message scene.block).msg := isBlock_blockMessage _
  have unseen := (stored_after_rejected_iff shows.rejects isBlock shows.block identified
    shows.acceptable).mp stored
  rw [seen] at unseen
  cases unseen

/-- A forged message hides a block from a fresh node, and two blocks with one identifier have
different outcomes. -/
theorem twin_censors :
    (¬∀ (args : GenesisArgs) (tree : Untyped.BlockTree) (deliveries : List Delivery)
      (delivery : Delivery) (block : Untyped.Block),
      Untyped.BlockTree.init args = .ok tree →
      (Untyped.P2PNode.init { tree, mempool := .init, store := [] }).Rejects deliveries →
      IsBlock delivery.msg → Untyped.decodeBlock (carried delivery.msg) = .ok block →
      (tree.addBlock block).1 = .ok true →
      (((Untyped.P2PNode.init { tree, mempool := .init, store := [] }).hear deliveries).onMessage
        delivery).2.service.tree.Kept block.hash block) ∧
    ¬∀ (args : GenesisArgs) (tree : Untyped.BlockTree) (left right : Untyped.Block),
      Untyped.BlockTree.init args = .ok tree →
      Untyped.blockWireId left = Untyped.blockWireId right →
      ((tree.addBlock left).1 = .ok true ↔ (tree.addBlock right).1 = .ok true) := by
  obtain ⟨scene, shows⟩ := shown
  obtain ⟨id, identified, seen⟩ := shows.seen
  constructor
  · intro claim
    have stored := claim _ _ _ (message scene.block) _ shows.initialised shows.rejects
      (isBlock_blockMessage _) shows.block shows.acceptable
    have isBlock : IsBlock (message scene.block).msg := isBlock_blockMessage _
    have unseen := (kept_iff_unseen shows.rejects isBlock shows.block identified
      shows.acceptable).mp stored
    rw [seen] at unseen
    cases unseen
  · intro claim
    have same : Untyped.blockWireId (.ofTyped scene.block) =
        Untyped.blockWireId (.ofTyped scene.twin) := rfl
    exact shows.refused.1 ((claim _ _ _ _ shows.initialised same).mp shows.acceptable)

end CensorshipSample

end Mindees
