import Mindees.Library.Runs
import Mindees.ForkChoice.Adoption
import Mindees.Node.BlockMessages

/-!
# Block sync

A node asks for the blocks above its own height and a peer answers with the next
blocks of its canonical chain.  The request says nothing about where the two
trees part, so a round that does not bring the lowest missing block leaves the
tree as it is, and so does every later one.
-/

namespace Mindees

open Library

/-- The most blocks of one answer. -/
def MAX_SYNC_BATCH : Nat := 1000

namespace P2PNode

variable [Primitives]

/-- The height above which a node asks for blocks. -/
def requestSync (node : P2PNode) : Int := node.service.chain.head.index

/-- The canonical blocks above a height, in order, at most one batch. -/
def serveBlocks (node : P2PNode) (since : Int) : List Block :=
  (node.service.chain.chain.filter fun block => since < block.index).take MAX_SYNC_BATCH

/-- Handle the messages that carry blocks. -/
def hearBlocks (node : P2PNode) (blocks : List Block) : P2PNode :=
  node.hear (blocks.map fun block => blockMessage block.encodeBlock)

/-- One exchange: a node asks, the peer answers, and the node handles the answer. -/
def syncRound (peer node : P2PNode) : P2PNode :=
  node.hearBlocks (peer.serveBlocks node.requestSync)

/-- The node after a number of exchanges. -/
def syncRounds (peer start : P2PNode) (count : Nat) : P2PNode := (peer.syncRound)^[count] start

/-- The node knows the canonical chain of the peer. -/
def HasChainOf (node peer : P2PNode) : Prop :=
  ∀ block ∈ peer.service.chain.chain, node.service.tree.weight.contains block.hash = true

/-- The answer of the peer has a block that is new to the node, whose parent the
node knows, and that the node has not heard of. -/
def Helps (peer node : P2PNode) : Prop :=
  ∃ block ∈ peer.serveBlocks node.requestSync,
    node.service.tree.weight.contains block.hash = false ∧
    node.service.tree.weight.contains block.previousHash = true ∧
    node.seenBlock.contains (blockWireId block) = false

/-- The states of a node in the course of the exchanges. -/
def Visits (peer start node : P2PNode) : Prop :=
  ∃ count earlier, earlier <+:
      peer.serveBlocks (peer.syncRounds start count).requestSync ∧
    node = (peer.syncRounds start count).hearBlocks earlier

/-- If the tree of the node is given the chain of the peer no guard refuses a block, hashes tell
its blocks from the stored ones, identifiers tell them from each other, and the cache is never
full. -/
structure Undisturbed (peer start : P2PNode) : Prop where
  unrefused : ∀ earlier block later, peer.service.chain.chain.tail = earlier ++ block :: later →
    (start.service.tree.deliver earlier).weight.contains block.hash = false →
    succeeded ((start.service.tree.deliver earlier).guard block) = true
  apart : start.service.tree.TellsApart peer.service.chain.chain.tail
  identified : ∀ left ∈ peer.service.chain.chain, ∀ right ∈ peer.service.chain.chain,
    blockWireId left = blockWireId right → left.hash = right.hash
  room : ∀ node, Visits peer start node → node.seenBlock.size < SEEN_CAP

/-! ## Heard blocks -/

section

variable {node : P2PNode} {blocks earlier later : List Block} {block : Block}

theorem hearBlocks_append
    (node : P2PNode)
    (earlier later : List Block) :
    node.hearBlocks (earlier ++ later) = (node.hearBlocks earlier).hearBlocks later := by
  rw [hearBlocks, List.map_append, hear_append]
  rfl

theorem hearBlocks_singleton
    (node : P2PNode)
    (block : Block) :
    node.hearBlocks [block] = (node.onMessage (blockMessage block.encodeBlock)).2 := rfl

theorem tree_hearBlocks
    {property : BlockTree → Prop}
    (added : ∀ tree block, property tree → property (tree.addBlock block).2)
    (holds : property node.service.tree)
    (blocks : List Block) :
    property (node.hearBlocks blocks).service.tree := by
  refine tree_hear added (fun msg inside => ?_) holds
  obtain ⟨block, _, rfl⟩ := List.mem_map.mp inside
  exact isBlock_blockMessage _

/-- As long as the cache has room it has what it had and what was heard. -/
theorem seenBlock_hearBlocks
    (built : ∀ block ∈ blocks, block.postInit = block)
    (room : ∀ earlier, earlier <+: blocks → (node.hearBlocks earlier).seenBlock.size < SEEN_CAP)
    (id : Str) :
    (node.hearBlocks blocks).seenBlock.contains id = true ↔
      node.seenBlock.contains id = true ∨ ∃ block ∈ blocks, blockWireId block = id := by
  induction blocks using List.reverseRecOn with
  | nil => simp [hearBlocks]
  | append_singleton blocks block inductionHypothesis =>
      have before := inductionHypothesis
        (fun other inside => built other (List.mem_append_left _ inside))
        (fun earlier inside => room earlier (inside.trans (List.prefix_append _ _)))
      have decoded := carries (built block (by simp))
      rw [hearBlocks_append, hearBlocks_singleton,
        seenBlock_onMessage _ (isBlock_blockMessage _) decoded,
        contains_remember (room blocks (List.prefix_append _ _)), before]
      simp only [List.mem_append, List.mem_singleton, or_and_right, exists_or, exists_eq_left,
        or_assoc]

/-- Known identifiers change nothing. -/
theorem hearBlocks_seen
    (built : ∀ block ∈ blocks, block.postInit = block)
    (seen : ∀ block ∈ blocks, node.seenBlock.contains (blockWireId block) = true) :
    node.hearBlocks blocks = node := by
  induction blocks with
  | nil => rfl
  | cons block rest inductionHypothesis =>
      have dropped : node.hearBlocks [block] = node := by
        rw [hearBlocks_singleton,
          onMessage_block node (isBlock_blockMessage _) (carries (built block (by simp))),
          if_pos (seen block (by simp))]
      rw [← List.singleton_append, hearBlocks_append, dropped]
      exact inductionHypothesis (fun other inside => built other (List.mem_cons_of_mem _ inside))
        (fun other inside => seen other (List.mem_cons_of_mem _ inside))

end

/-! ## Rounds -/

section

variable {args : GenesisArgs} {checkpoint peerCheckpoint : Option Checkpoint}
  {peer start node : P2PNode} {block : Block}

theorem syncRounds_succ
    (peer start : P2PNode)
    (count : Nat) :
    peer.syncRounds start (count + 1) = peer.syncRound (peer.syncRounds start count) :=
  Function.iterate_succ_apply' _ _ _

theorem visits_syncRounds
    (peer start : P2PNode)
    (count : Nat) :
    Visits peer start (peer.syncRounds start count) :=
  ⟨count, [], List.nil_prefix, rfl⟩

theorem visits_reachable
    (reachable : BlockTree.Reachable args checkpoint start.service.tree)
    (visits : Visits peer start node) :
    BlockTree.Reachable args checkpoint node.service.tree := by
  have added : ∀ tree block, BlockTree.Reachable args checkpoint tree →
      BlockTree.Reachable args checkpoint (tree.addBlock block).2 :=
    fun _ block earlier => earlier.add block
  have rounds : ∀ count,
      BlockTree.Reachable args checkpoint (peer.syncRounds start count).service.tree := by
    intro count
    induction count with
    | zero => exact reachable
    | succ count inductionHypothesis =>
        rw [syncRounds_succ]
        exact tree_hearBlocks added inductionHypothesis _
  obtain ⟨count, earlier, _, rfl⟩ := visits
  exact tree_hearBlocks added (rounds count) earlier

/-- What a node knows it keeps. -/
theorem known_hearBlocks
    {hash : Str}
    (reachable : BlockTree.Reachable args checkpoint node.service.tree)
    (known : node.service.tree.weight.contains hash = true)
    (blocks : List Block) :
    (node.hearBlocks blocks).service.tree.weight.contains hash = true := by
  have kept : BlockTree.Reachable args checkpoint (node.hearBlocks blocks).service.tree ∧
      (node.hearBlocks blocks).service.tree.weight.contains hash = true :=
    @tree_hearBlocks _ _ (fun tree => BlockTree.Reachable args checkpoint tree ∧
      tree.weight.contains hash = true)
      (fun _ block holds => ⟨holds.1.add block, holds.1.invariant.known_addBlock block holds.2⟩)
      ⟨reachable, known⟩ blocks
  exact kept.2

omit [Primitives] in
theorem mem_of_mem_serveBlocks
    {since : Int}
    (inside : block ∈ peer.serveBlocks since) :
    block ∈ peer.service.chain.chain :=
  List.mem_of_mem_filter (List.mem_of_mem_take inside)

theorem postInit_of_mem_chain
    (reachable : BlockTree.Reachable args checkpoint peer.service.tree)
    (inside : block ∈ peer.service.chain.chain) :
    block.postInit = block := by
  obtain ⟨_, branch⟩ := reachable.invariant.head
  exact branch.reachable.postInit_eq inside

/-- The shared hypotheses: the start and the peer have reachable trees of one
genesis, and nothing disturbs the exchanges. -/
structure Syncs
    (args : GenesisArgs)
    (checkpoint peerCheckpoint : Option Checkpoint)
    (peer start : P2PNode) : Prop where
  reachable : BlockTree.Reachable args checkpoint start.service.tree
  peerReachable : BlockTree.Reachable args peerCheckpoint peer.service.tree
  undisturbed : Undisturbed peer start

namespace Syncs

variable (syncs : Syncs args checkpoint peerCheckpoint peer start)

include syncs

theorem built
    {since : Int} :
    ∀ block ∈ peer.serveBlocks since, block.postInit = block := by
  intro block inside
  exact postInit_of_mem_chain syncs.peerReachable (mem_of_mem_serveBlocks inside)

/-- During a round the cache has what it had and what was heard. -/
theorem seenBlock_iff
    {count : Nat}
    {earlier : List Block}
    (inside : earlier <+: peer.serveBlocks (peer.syncRounds start count).requestSync)
    (id : Str) :
    ((peer.syncRounds start count).hearBlocks earlier).seenBlock.contains id = true ↔
      (peer.syncRounds start count).seenBlock.contains id = true ∨
        ∃ block ∈ earlier, blockWireId block = id := by
  refine seenBlock_hearBlocks (fun block present => syncs.built block (inside.subset present))
    (fun first part => ?_) id
  exact syncs.undisturbed.room _ ⟨count, first, part.trans inside, rfl⟩

/-- A round that does not help leaves the tree alone. -/
theorem tree_of_not_helps
    {count : Nat}
    (stuck : ¬Helps peer (peer.syncRounds start count))
    {earlier : List Block}
    (inside : earlier <+: peer.serveBlocks (peer.syncRounds start count).requestSync) :
    ((peer.syncRounds start count).hearBlocks earlier).service.tree =
      (peer.syncRounds start count).service.tree := by
  induction earlier using List.reverseRecOn with
  | nil => rfl
  | append_singleton earlier block inductionHypothesis =>
      have before := (List.prefix_append earlier [block]).trans inside
      have same := inductionHypothesis before
      have served : block ∈ peer.serveBlocks (peer.syncRounds start count).requestSync :=
        inside.subset (by simp)
      have decoded := carries (syncs.built block served)
      have invariant := (visits_reachable syncs.reachable
        (visits_syncRounds peer start count)).invariant
      rw [hearBlocks_append, hearBlocks_singleton, ← same]
      by_cases accepted : ((peer.syncRounds start count).service.tree.addBlock block).1 = .ok true
      · -- only a block that was heard of before is new and has a known parent
        obtain ⟨new, parent, _⟩ := invariant.of_accepted accepted
        have heard :
            (peer.syncRounds start count).seenBlock.contains (blockWireId block) = true := by
          by_contra unheard
          exact stuck ⟨block, served, new, parent, Bool.not_eq_true _ ▸ unheard⟩
        have seen := (syncs.seenBlock_iff before (blockWireId block)).mpr (.inl heard)
        rw [onMessage_block _ (isBlock_blockMessage _) decoded, if_pos seen]
      · rw [← same] at invariant accepted
        exact tree_onMessage_unchanged invariant (isBlock_blockMessage _) decoded accepted

/-- After a round that does not help none does. -/
theorem not_helps_succ
    {count : Nat}
    (stuck : ¬Helps peer (peer.syncRounds start count)) :
    (peer.syncRounds start (count + 1)).service.tree =
        (peer.syncRounds start count).service.tree ∧
      ¬Helps peer (peer.syncRounds start (count + 1)) := by
  have same := syncs.tree_of_not_helps stuck List.prefix_rfl
  rw [syncRounds_succ, syncRound]
  refine ⟨same, ?_⟩
  rintro ⟨block, served, _, _, unheard⟩
  have again : block ∈ peer.serveBlocks (peer.syncRounds start count).requestSync := by
    rwa [requestSync, NodeService.chain, same] at served
  have seen := (syncs.seenBlock_iff List.prefix_rfl (blockWireId block)).mpr
    (.inr ⟨block, again, rfl⟩)
  rw [unheard] at seen
  cases seen

theorem tree_of_stuck
    {count : Nat}
    (stuck : ¬Helps peer (peer.syncRounds start count))
    (more : Nat) :
    (peer.syncRounds start (count + more)).service.tree =
        (peer.syncRounds start count).service.tree ∧
      ¬Helps peer (peer.syncRounds start (count + more)) := by
  induction more with
  | zero => exact ⟨rfl, stuck⟩
  | succ more inductionHypothesis =>
      obtain ⟨same, still⟩ := inductionHypothesis
      obtain ⟨next, last⟩ := syncs.not_helps_succ still
      exact ⟨next.trans same, last⟩

/-- What is known after a round is known after the later ones. -/
theorem known_later
    {hash : Str}
    {count : Nat}
    (known : (peer.syncRounds start count).service.tree.weight.contains hash = true)
    (more : Nat) :
    (peer.syncRounds start (count + more)).service.tree.weight.contains hash = true := by
  induction more with
  | zero => exact known
  | succ more inductionHypothesis =>
      rw [← Nat.add_assoc, syncRounds_succ]
      exact known_hearBlocks
        (visits_reachable syncs.reachable (visits_syncRounds peer start _)) inductionHypothesis _

/-- When nothing is missing, one more round ends the exchanges. -/
theorem settles
    {count : Nat}
    (has : HasChainOf (peer.syncRounds start count) peer) :
    peer.syncRound (peer.syncRounds start (count + 1)) = peer.syncRounds start (count + 1) ∧
      HasChainOf (peer.syncRounds start (count + 1)) peer := by
  have stuck : ¬Helps peer (peer.syncRounds start count) := by
    rintro ⟨block, served, new, _⟩
    rw [has block (mem_of_mem_serveBlocks served)] at new
    cases new
  obtain ⟨same, _⟩ := syncs.not_helps_succ stuck
  refine ⟨?_, fun block inside => syncs.known_later (has block inside) 1⟩
  have request : (peer.syncRounds start (count + 1)).requestSync =
      (peer.syncRounds start count).requestSync := by
    rw [requestSync, NodeService.chain, same]
    rfl
  rw [syncRound, request]
  refine hearBlocks_seen syncs.built fun block served => ?_
  rw [syncRounds_succ]
  exact (syncs.seenBlock_iff List.prefix_rfl (blockWireId block)).mpr (.inr ⟨block, served, rfl⟩)

/-- If the exchanges end with the whole chain, every round helps as long as a block is
missing. -/
theorem helps_of_reaches
    (reaches : ∃ count, HasChainOf (peer.syncRounds start count) peer)
    {count : Nat}
    (lacks : ¬HasChainOf (peer.syncRounds start count) peer) :
    Helps peer (peer.syncRounds start count) := by
  obtain ⟨last, has⟩ := reaches
  by_contra stuck
  apply lacks
  intro block inside
  rcases le_total count last with before | after
  · obtain ⟨more, rfl⟩ := Nat.exists_eq_add_of_le before
    rw [← (syncs.tree_of_stuck stuck more).1]
    exact has block inside
  · obtain ⟨more, rfl⟩ := Nat.exists_eq_add_of_le after
    exact syncs.known_later (has block inside) more

end Syncs

end

end P2PNode

end Mindees
