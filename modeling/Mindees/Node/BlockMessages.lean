import Mindees.Core.Codec
import Mindees.Node.Gossip

/-!
# Block messages

What a block message does to a node: the tree grows by the blocks that are
handed over, the cache by one identifier, and a block that the tree does not
accept leaves the tree alone.
-/

namespace Mindees

open Library

/-- The message that carries a block. -/
def blockMessage (data : Json) : List (Str × Json) := [(Key.type, .str Key.block), (Key.data, data)]

/-- What a message carries. -/
def carried (msg : List (Str × Json)) : Json := (Json.field msg Key.data).getD .null

/-- The message says that it carries a block. -/
def IsBlock (msg : List (Str × Json)) : Prop := Json.field msg Key.type = some (.str Key.block)

@[simp] theorem carried_blockMessage (data : Json) : carried (blockMessage data) = data := rfl

theorem isBlock_blockMessage (data : Json) : IsBlock (blockMessage data) := rfl

namespace P2PNode

section

variable {seen : Dict Str Unit} {key : Str}

theorem remember_seen
    (known : seen.contains key = true) :
    remember seen key = (false, seen) := by
  rw [remember, if_pos known]

theorem remember_new
    (new : seen.contains key = false) :
    (remember seen key).1 = true := by
  rw [remember, if_neg (by rw [new]; exact Bool.false_ne_true)]
  dsimp only
  split <;> rfl

/-- The cache learns nothing but the key. -/
theorem contains_of_remember
    {other : Str}
    (known : (remember seen key).2.contains other = true) :
    seen.contains other = true ∨ key = other := by
  have set : (seen.set key ()).contains other = true →
      seen.contains other = true ∨ key = other := by
    rw [Dict.contains_set, Bool.or_eq_true, decide_eq_true_iff]
    exact Or.symm
  unfold remember at known
  split_ifs at known with old
  · exact .inl known
  · dsimp only at known
    split at known
    · split_ifs at known
      · apply set
        rw [Dict.contains, Dict.get?_erase] at known
        split_ifs at known
        · cases known
        · exact known
      · exact set known
    · exact set known

/-- Below the bound nothing is forgotten. -/
theorem contains_remember
    (room : seen.size < SEEN_CAP)
    (other : Str) :
    (remember seen key).2.contains other = true ↔ seen.contains other = true ∨ key = other := by
  cases known : seen.contains key with
  | true =>
      rw [remember_seen known]
      refine ⟨.inl, fun either => either.elim id fun same => ?_⟩
      rw [← same]
      exact known
  | false =>
      have few : ¬SEEN_CAP < (seen.set key ()).size := by
        rw [Dict.size_set seen () known]
        omega
      have grown : (remember seen key).2 = seen.set key () := by
        rw [remember, if_neg (by rw [known]; exact Bool.false_ne_true)]
        dsimp only
        split
        · rw [if_neg few]
        · rfl
      rw [grown, Dict.contains_set, Bool.or_eq_true, decide_eq_true_iff, or_comm]

end

variable [Primitives] {node : P2PNode} {data : Json} {block : Block} {msg : List (Str × Json)}

theorem carries
    (built : block.postInit = block) :
    decodeBlock (carried (blockMessage block.encodeBlock)) = .ok block := by
  rw [carried_blockMessage, decodeBlock_encodeBlock, built]

/-- Handing over a block adds it to the tree. -/
theorem tree_receiveBlock
    (node : P2PNode)
    (decoded : decodeBlock data = .ok block) :
    (node.receiveBlock data).2.service.tree = (node.service.tree.addBlock block).2 := by
  unfold receiveBlock NodeService.receiveBlock
  simp only [decoded]
  cases added : node.service.tree.addBlock block with
  | mk result tree =>
      cases result with
      | error error => rfl
      | ok accepted => cases accepted <;> rfl

theorem tree_receiveBlock_error
    {error : Error}
    (node : P2PNode)
    (malformed : decodeBlock data = .error error) :
    (node.receiveBlock data).2.service.tree = node.service.tree := by
  unfold receiveBlock NodeService.receiveBlock
  simp only [malformed]

/-- What a call of the tree means for the receipt. -/
theorem receiveBlock_fst
    (node : P2PNode)
    (decoded : decodeBlock data = .ok block) :
    (node.receiveBlock data).1.map Receipt.accepted = (node.service.tree.addBlock block).1 := by
  unfold receiveBlock NodeService.receiveBlock
  simp only [decoded]
  cases added : node.service.tree.addBlock block with
  | mk result tree => cases result <;> rfl

/-- Added blocks keep what every call of the tree keeps. -/
theorem keptByBlocks_tree
    {property : BlockTree → Prop}
    (added : ∀ tree block, property tree → property (tree.addBlock block).2) :
    KeptByBlocks fun node => property node.service.tree where
  receiveBlock {node} data holds := by
    cases decoded : decodeBlock data with
    | error error =>
        rw [tree_receiveBlock_error node decoded]
        exact holds
    | ok block =>
        rw [tree_receiveBlock node decoded]
        exact added _ block holds
  waiting _ holds := holds

theorem keptByBlocks_seenBlock (seen : Dict Str Unit) :
    KeptByBlocks fun node => node.seenBlock = seen where
  receiveBlock _ holds := holds
  waiting _ holds := holds

/-! ## One message -/

/-- A message without a readable block changes nothing. -/
theorem onMessage_malformed
    {error : Error}
    (node : P2PNode)
    (isBlock : IsBlock msg)
    (malformed : decodeBlock (carried msg) = .error error) :
    (node.onMessage msg).2 = node := by
  have notTx : Key.block ≠ Key.tx := by decide
  rw [carried] at malformed
  rw [IsBlock] at isBlock
  simp only [onMessage, isBlock, notTx, if_false, if_true, malformed]

/-- A block message is dropped when its identifier is known, and otherwise its
block is handed over or kept. -/
theorem onMessage_block
    (node : P2PNode)
    (isBlock : IsBlock msg)
    (decoded : decodeBlock (carried msg) = .ok block) :
    node.onMessage msg =
      if node.seenBlock.contains (blockWireId block) = true then (.ok (), node)
      else
        { node with seenBlock := (remember node.seenBlock (blockWireId block)).2 }.applyOrBuffer
          block (carried msg) := by
  have notTx : Key.block ≠ Key.tx := by decide
  have shown : (Json.field msg Key.data).getD .null = carried msg := rfl
  rw [IsBlock] at isBlock
  simp only [onMessage, isBlock, notTx, if_false, if_true, shown, decoded]
  cases known : node.seenBlock.contains (blockWireId block) with
  | true => simp [remember_seen known]
  | false => simp [remember_new known]

/-- A message keeps what every call of the tree keeps. -/
theorem tree_onMessage
    {property : BlockTree → Prop}
    (added : ∀ tree block, property tree → property (tree.addBlock block).2)
    (isBlock : IsBlock msg)
    (holds : property node.service.tree) :
    property (node.onMessage msg).2.service.tree := by
  cases decoded : decodeBlock (carried msg) with
  | error error =>
      rw [onMessage_malformed node isBlock decoded]
      exact holds
  | ok block =>
      rw [onMessage_block node isBlock decoded]
      split_ifs
      · exact holds
      · exact (keptByBlocks_tree added).applyOrBuffer _ _ holds

/-- A message remembers the identifier of its block. -/
theorem seenBlock_onMessage
    (node : P2PNode)
    (isBlock : IsBlock msg)
    (decoded : decodeBlock (carried msg) = .ok block) :
    (node.onMessage msg).2.seenBlock = (remember node.seenBlock (blockWireId block)).2 := by
  rw [onMessage_block node isBlock decoded]
  split_ifs with known
  · rw [remember_seen known]
  · exact (keptByBlocks_seenBlock _).applyOrBuffer block _ rfl

/-- A block that the tree does not accept leaves the tree alone. -/
theorem tree_onMessage_unchanged
    (invariant : node.service.tree.Invariant)
    (isBlock : IsBlock msg)
    (decoded : decodeBlock (carried msg) = .ok block)
    (notAccepted : (node.service.tree.addBlock block).1 ≠ .ok true) :
    (node.onMessage msg).2.service.tree = node.service.tree := by
  rw [onMessage_block node isBlock decoded]
  split_ifs
  · rfl
  · unfold applyOrBuffer
    split_ifs
    · rfl
    · rfl
    · have tree := tree_receiveBlock
        { node with seenBlock := (remember node.seenBlock (blockWireId block)).2 } decoded
      have receipt := receiveBlock_fst
        { node with seenBlock := (remember node.seenBlock (blockWireId block)).2 } decoded
      rw [invariant.unchanged notAccepted] at tree
      generalize receiveBlock _ (carried msg) = outcome at tree receipt ⊢
      obtain ⟨result, after⟩ := outcome
      cases result with
      | error error => exact tree
      | ok answer =>
          dsimp only
          split_ifs with accepted
          · rw [← receipt, Except.map, accepted] at notAccepted
            exact absurd rfl notAccepted
          · exact tree

/-! ## Many messages -/

/-- Handle messages one after the other.  A message that raises does not stop
the next one. -/
def hear (node : P2PNode) (msgs : List (List (Str × Json))) : P2PNode :=
  msgs.foldl (fun node msg => (node.onMessage msg).2) node

@[simp] theorem hear_nil (node : P2PNode) : node.hear [] = node := rfl

@[simp] theorem hear_cons
    (node : P2PNode)
    (msg : List (Str × Json))
    (rest : List (List (Str × Json))) :
    node.hear (msg :: rest) = (node.onMessage msg).2.hear rest := rfl

theorem hear_append
    (node : P2PNode)
    (earlier later : List (List (Str × Json))) :
    node.hear (earlier ++ later) = (node.hear earlier).hear later :=
  List.foldl_append

theorem tree_hear
    {property : BlockTree → Prop}
    {msgs : List (List (Str × Json))}
    (added : ∀ tree block, property tree → property (tree.addBlock block).2)
    (areBlocks : ∀ msg ∈ msgs, IsBlock msg)
    (holds : property node.service.tree) :
    property (node.hear msgs).service.tree := by
  induction msgs generalizing node with
  | nil => exact holds
  | cons msg rest inductionHypothesis =>
      obtain ⟨isBlock, others⟩ := List.forall_mem_cons.mp areBlocks
      exact inductionHypothesis others (tree_onMessage added isBlock holds)

end P2PNode

end Mindees
