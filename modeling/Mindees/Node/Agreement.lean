import Mindees.Consensus.Embedding
import Mindees.ForkChoice.Spread
import Mindees.Library.Mesh
import Mindees.Node.Calls
import Mindees.Node.Relay
import Mindees.Node.Voting

/-!
# Agreement of a mesh

Nodes relay blocks to their peers, each at its own pace and in any order.  Whenever
nothing is on its way, all of them have the same frontier, head and canonical state.
-/

namespace Mindees

open Library ProofOfStakeChain

namespace P2PNode

variable [Primitives] {args : GenesisArgs} {blocks : Finset Block} {start : BlockTree}
  {node after : P2PNode} {applied more : List Block} {block : Block} {data : Json}

/-! ## What a node has made of its blocks -/

/-- The blocks of the set can be told apart by a node, and a node and its stack have room
for all of them. -/
structure Gossiped (args : GenesisArgs) (blocks : Finset Block) (start : BlockTree) : Prop
    extends Setting args blocks start where
  identified : ∀ left ∈ blocks, ∀ right ∈ blocks,
    blockWireId left = blockWireId right → left.hash = right.hash
  unmistaken : ∀ left ∈ blocks, ∀ right ∈ blocks, blockWireId left ≠ right.hash
  few : blocks.card < MAX_ORPHANS
  shallow : blocks.card ≤ Primitives.nesting

/-- What a node that relays the blocks of a set has made of those it remembers. -/
structure Sound
    (args : GenesisArgs)
    (blocks : Finset Block)
    (start : BlockTree)
    (node : P2PNode) : Prop where
  idle : Idle node none
  waited : ∀ parent, node.orphans.contains parent = true →
    ∃ block ∈ blocks, block.previousHash = parent
  handled : ∃ applied, Absorbed args blocks start applied node ∧
    ∀ block ∈ blocks, node.seenBlock.contains (blockWireId block) = true →
      Handled applied node block

theorem Fresh.sound
    (fresh : Fresh args node) :
    Sound args blocks node.service.tree node := by
  have hears : Heard args blocks node.service.tree [] node := fresh.hears
  obtain ⟨applied, absorbed, _⟩ := hears.handled
  refine ⟨hears.idle, fun parent waits => ?_, applied, absorbed, fun block _ seen => ?_⟩
  · rw [fresh.orphans] at waits
    cases waits
  · rw [fresh.seenBlock] at seen
    cases seen

/-- Only the tree, the blocks that wait and those that are remembered count. -/
theorem Absorbed.congr
    (absorbed : Absorbed args blocks start applied node)
    (tree : after.service.tree = node.service.tree)
    (orphans : after.orphans = node.orphans) :
    Absorbed args blocks start applied after where
  tree := tree.trans absorbed.tree
  members := absorbed.members
  parentsFirst := absorbed.parentsFirst
  twins := absorbed.twins
  waiting := orphans ▸ absorbed.waiting

theorem Handled.congr
    (handled : Handled applied node block)
    (orphans : after.orphans = node.orphans) :
    Handled applied after block := by
  rw [Handled, orphans]
  exact handled

theorem Sound.congr
    (sound : Sound args blocks start node)
    (tree : after.service.tree = node.service.tree)
    (orphans : after.orphans = node.orphans)
    (seenBlock : after.seenBlock = node.seenBlock) :
    Sound args blocks start after := by
  obtain ⟨applied, absorbed, handled⟩ := sound.handled
  refine ⟨sound.idle.congr orphans tree, orphans ▸ sound.waited,
    applied, absorbed.congr tree orphans, fun block member seen => ?_⟩
  rw [seenBlock] at seen
  exact (handled block member seen).congr orphans

/-- A node waits for the parents of few blocks. -/
theorem Sound.size_le
    (sound : Sound args blocks start node) :
    node.orphans.size ≤ blocks.card := by
  classical
  have inside : node.orphans.keys.toFinset ⊆ blocks.image Block.previousHash := by
    intro parent waits
    rw [List.mem_toFinset, ← Dict.contains_iff_mem_keys] at waits
    exact Finset.mem_image.mpr (sound.waited parent waits)
  calc
    node.orphans.size = node.orphans.keys.length := (List.length_map _).symm
    _ = node.orphans.keys.toFinset.card :=
      (List.toFinset_card_of_nodup node.orphans.nodupKeys).symm
    _ ≤ (blocks.image Block.previousHash).card := Finset.card_le_card inside
    _ ≤ blocks.card := Finset.card_image_le

/-- No chain of waiting blocks is too long to be released. -/
theorem Sound.shallow
    (gossiped : Gossiped args blocks start)
    (sound : Sound args blocks start node)
    (hash : Str) :
    nests Primitives.nesting node.orphans hash = false := by
  rw [← Bool.not_eq_true]
  intro deep
  have below := lt_size_of_nests deep
  have few := sound.size_le
  have room := gossiped.shallow
  omega

/-- The waiting blocks of a sound node can be read. -/
theorem Sound.holds
    (gossiped : Gossiped args blocks start)
    (sound : Sound args blocks start node) :
    Holds (· ∈ blocks) node := by
  obtain ⟨applied, absorbed, _⟩ := sound.handled
  refine ⟨(gossiped.draws absorbed).invariant, fun parent data inside => ?_⟩
  obtain ⟨block, member, decoded, _⟩ := absorbed.waiting parent data inside
  exact ⟨block, member, decoded⟩

/-! ## Dealing with a block -/

/-- The hash is that of a block that was handed over, or that waits for its parent. -/
def Deals
    (args : GenesisArgs)
    (blocks : Finset Block)
    (start : BlockTree)
    (node : P2PNode)
    (hash : Str) : Prop :=
  hash = genesisHash args ∨ ∃ block ∈ blocks, block.hash = hash ∧
    ∃ applied, Absorbed args blocks start applied node ∧ Handled applied node block

/-- Following loses no dealings. -/
theorem Deals.mono
    {hash : Str}
    (deals : Deals args blocks start node hash)
    (follows : ∀ applied, Absorbed args blocks start applied node →
      ∃ more, Follows args blocks start applied node more after) :
    Deals args blocks start after hash := by
  refine deals.imp_right ?_
  rintro ⟨block, member, same, applied, absorbed, handled⟩
  obtain ⟨more, following⟩ := follows applied absorbed
  exact ⟨block, member, same, more, following.absorbed, following.handled block member handled⟩

/-- Which parents are waited for after a block was handed over or kept. -/
theorem waited_applyOrBuffer
    {parent : Str}
    (waits : (node.applyOrBuffer block data).2.orphans.contains parent = true) :
    node.orphans.contains parent = true ∨ block.previousHash = parent := by
  unfold P2PNode.applyOrBuffer at waits
  split_ifs at waits
  · rw [Dict.contains_set, Bool.or_eq_true, decide_eq_true_iff] at waits
    exact waits.symm
  · exact .inl waits
  · left
    have same : (node.receiveBlock data).2.orphans = node.orphans := rfl
    rw [← same]
    generalize node.receiveBlock data = handed at waits ⊢
    obtain ⟨result, after⟩ := handed
    cases result with
    | error error => exact waits
    | ok receipt =>
        dsimp only at waits ⊢
        split_ifs at waits
        · have popped : ∀ (orphans : Dict Str (List Json)) key,
              (orphans.erase key).contains parent = true → orphans.contains parent = true := by
            intro orphans key there
            rw [Dict.contains, Dict.get?_erase] at there
            split_ifs at there
            · cases there
            · exact there
          exact @drainOrphans_le _ Prop _ (fun orphans => orphans.contains parent = true) popped
            _ _ _ waits
        · exact waits

/-- A new block of the set is dealt with, and a node stays sound. -/
theorem Sound.deals
    (gossiped : Gossiped args blocks start)
    (sound : Sound args blocks start node)
    (member : block ∈ blocks)
    (decoded : decodeBlock data = .ok block) :
    Sound args blocks start (node.onMessage (blockMessage data)).2 ∧
      (∀ hash, Deals args blocks start node hash →
        Deals args blocks start (node.onMessage (blockMessage data)).2 hash) ∧
      Deals args blocks start (node.onMessage (blockMessage data)).2 block.hash := by
  obtain ⟨applied, absorbed, handled⟩ := sound.handled
  have seenBlock := seenBlock_onMessage node (isBlock_blockMessage data) decoded
  rw [onMessage_block node (isBlock_blockMessage data) decoded] at seenBlock ⊢
  split_ifs at seenBlock ⊢ with seen
  · exact ⟨sound, fun hash deals => deals,
      .inr ⟨block, member, rfl, applied, absorbed, handled block member seen⟩⟩
  · set marked : P2PNode :=
      { node with seenBlock := (remember node.seenBlock (blockWireId block)).2 }
    have few : node.orphans.size < MAX_ORPHANS := sound.size_le.trans_lt gossiped.few
    have room : marked.orphans.size < MAX_ORPHANS := few
    have idle : Idle marked none := sound.idle
    have follows : ∀ applied, Absorbed args blocks start applied node →
        ∃ more, Returns args blocks start applied marked (marked.applyOrBuffer block data) more ∧
          Handled more (marked.applyOrBuffer block data).2 block := by
      intro applied absorbed
      have unmarked : Absorbed args blocks start applied marked := absorbed.congr rfl rfl
      obtain ⟨more, returns, now⟩ :=
        gossiped.applyOrBuffer unmarked idle room (fun _ => sound.shallow gossiped _) member decoded
      exact ⟨more, ⟨returns.returned, returns.idle, returns.follows.absorbed,
        returns.follows.longer, returns.follows.handled⟩, now⟩
    obtain ⟨more, returns, now⟩ := follows applied absorbed
    refine ⟨⟨returns.idle, fun parent waits => ?_, more, returns.follows.absorbed, ?_⟩, ?_, ?_⟩
    · rcases waited_applyOrBuffer waits with old | new
      · exact sound.waited parent old
      · exact ⟨block, member, new⟩
    · intro other otherMember known
      rw [carried_blockMessage] at seenBlock known ⊢
      rw [seenBlock] at known
      rcases contains_of_remember known with old | new
      · exact returns.follows.handled other otherMember (handled other otherMember old)
      · exact gossiped.handled_of_same returns.follows.absorbed member otherMember
          (gossiped.identified block member other otherMember new) now
    · intro hash deals
      refine deals.mono fun applied absorbed => ?_
      obtain ⟨more, returns, _⟩ := follows applied absorbed
      exact ⟨more, returns.follows.absorbed, returns.follows.longer, returns.follows.handled⟩
    · exact .inr ⟨block, member, rfl, more, returns.follows.absorbed, now⟩

/-! ## What a node does by itself -/

/-- What a node does besides handling block messages, and the blocks it sends.  A block that
it produces is one of the set, and no block waits for it yet: `produce_and_gossip` releases
nothing, so a child that arrived before the block was made would wait for ever. -/
inductive Acts (blocks : Finset Block) (node : P2PNode) : P2PNode × List Json → Prop
  | produce {timestamp : Int} {randomness : Nat} {produced : Except Error Json} {after : P2PNode} :
      node.produceAndGossip timestamp randomness = (produced, after) →
      (∀ data block, produced = .ok data → decodeBlock data = .ok block →
        block ∈ blocks ∧ node.orphans.contains block.hash = false) →
      Acts blocks node (after, NodeService.returned produced)
  | hear {msg : List (Str × Json)} : ¬IsBlock msg → Acts blocks node ((node.onMessage msg).2, [])
  | submitTx (tx : Transaction) : Acts blocks node ((node.submitTx tx).2, [])
  | autoVote (randomness : Nat) : Acts blocks node ((node.autoVote randomness).2, [])

theorem unaffected_submitTx
    (node : P2PNode)
    (tx : Transaction) :
    node.Unaffected (node.submitTx tx).2 := by
  unfold submitTx
  split <;> exact ⟨rfl, rfl, rfl⟩

theorem unaffected_autoVote
    (node : P2PNode)
    (randomness : Nat) :
    node.Unaffected (node.autoVote randomness).2 := by
  unfold autoVote
  split
  · exact ⟨rfl, rfl, rfl⟩
  · split
    · exact ⟨rfl, rfl, rfl⟩
    · rename_i tx _
      have submitted := node.unaffected_submitTx tx
      split
      · rename_i handed
        rwa [handed] at submitted
      · rename_i handed
        rw [handed] at submitted
        exact ⟨submitted.tree, submitted.orphans, submitted.seenBlock⟩

theorem Follows.congr
    {middle : P2PNode}
    (follows : Follows args blocks start applied node more middle)
    (tree : after.service.tree = middle.service.tree)
    (orphans : after.orphans = middle.orphans) :
    Follows args blocks start applied node more after where
  absorbed := follows.absorbed.congr tree orphans
  longer := follows.longer
  handled block member handled := (follows.handled block member handled).congr orphans

/-- A node that adds a block to its tree for which nothing waits stays sound. -/
theorem Sound.extend
    (gossiped : Gossiped args blocks start)
    (sound : Sound args blocks start node)
    (member : block ∈ blocks)
    (decoded : decodeBlock data = .ok block)
    (unawaited : node.orphans.contains block.hash = false)
    (known : node.service.tree.weight.contains block.previousHash = true)
    (tree : after.service.tree = (node.service.tree.addBlock block).2)
    (orphans : after.orphans = node.orphans)
    (seenBlock : after.seenBlock = (remember node.seenBlock block.hash).2) :
    Sound args blocks start after ∧
      ∀ hash, Deals args blocks start node hash → Deals args blocks start after hash := by
  have sameTree : after.service.tree = (node.receiveBlock data).2.service.tree :=
    tree.trans (tree_receiveBlock node decoded).symm
  have sameOrphans : after.orphans = (node.receiveBlock data).2.orphans := orphans
  have follows : ∀ applied, Absorbed args blocks start applied node →
      ∃ more, Follows args blocks start applied node more after := fun applied absorbed =>
    ⟨_, (gossiped.follows_receiveBlock absorbed member decoded known).congr sameTree sameOrphans⟩
  obtain ⟨applied, absorbed, handled⟩ := sound.handled
  obtain ⟨more, following⟩ := follows applied absorbed
  refine ⟨⟨fun parent waits => .inr ?_, orphans ▸ sound.waited, more, following.absorbed, ?_⟩,
    fun hash deals => deals.mono follows⟩
  · have becomes := (gossiped.idle_receiveBlock absorbed decoded sound.idle).congr sameOrphans sameTree
    refine (becomes parent waits).resolve_left fun same => ?_
    rw [orphans, ← Option.some.inj same, unawaited] at waits
    cases waits
  · intro other otherMember seen
    rw [seenBlock] at seen
    rcases contains_of_remember seen with old | new
    · exact following.handled other otherMember (handled other otherMember old)
    · exact absurd new.symm (gossiped.unmistaken other otherMember block member)

/-- What a node that produces does to its blocks. -/
theorem Sound.produce
    {timestamp : Int}
    {randomness : Nat}
    (gossiped : Gossiped args blocks start)
    (sound : Sound args blocks start node)
    (fits : ∀ data block, (node.produceAndGossip timestamp randomness).1 = .ok data →
      decodeBlock data = .ok block →
      block ∈ blocks ∧ node.orphans.contains block.hash = false) :
    node.Unaffected (node.produceAndGossip timestamp randomness).2 ∧
        NodeService.returned (node.produceAndGossip timestamp randomness).1 = [] ∨
      ∃ block ∈ blocks, ∃ data, decodeBlock data = .ok block ∧
        node.orphans.contains block.hash = false ∧
        node.service.tree.weight.contains block.previousHash = true ∧
        (node.produceAndGossip timestamp randomness).1 = .ok data ∧
        (node.produceAndGossip timestamp randomness).2.service.tree =
          (node.service.tree.addBlock block).2 ∧
        (node.produceAndGossip timestamp randomness).2.orphans = node.orphans ∧
        (node.produceAndGossip timestamp randomness).2.seenBlock =
          (remember node.seenBlock block.hash).2 := by
  obtain ⟨applied, absorbed, _⟩ := sound.handled
  have invariant := (gossiped.draws absorbed).invariant
  rcases node.service.produceBlock_cases invariant timestamp randomness with
    ⟨nothing, same⟩ | ⟨block, ⟨wallet, transactions, sealedBy⟩, produced, commits⟩
  · left
    unfold produceAndGossip
    generalize node.service.produceBlock timestamp randomness = outcome at nothing same ⊢
    obtain ⟨result, service⟩ := outcome
    obtain rfl : service = node.service := same
    cases result with
    | error error => exact ⟨⟨rfl, rfl, rfl⟩, rfl⟩
    | ok data => cases nothing
  · right
    have decoded : decodeBlock block.encodeBlock = .ok block := by
      rw [decodeBlock_encodeBlock, sealedBy.postInit_eq]
    have tree := commits.tree
    unfold produceAndGossip at fits ⊢
    generalize node.service.produceBlock timestamp randomness = outcome at produced tree fits ⊢
    obtain ⟨result, service⟩ := outcome
    obtain rfl : result = .ok block.encodeBlock := produced
    simp only [decoded] at fits ⊢
    obtain ⟨member, unawaited⟩ := fits _ block rfl decoded
    refine ⟨block, member, _, decoded, unawaited, ?_, rfl, tree, trivial, rfl⟩
    obtain ⟨weight, head⟩ := invariant.head
    rw [sealedBy.previous, NodeService.chain, head.head_hash]
    exact (Dict.contains_iff _ _).mpr ⟨_, (invariant.store.recorded head).1⟩

/-! ## What relaying asks of a node -/

/-- A node knows what its tree holds, and has to deal with what its peers know. -/
def duties (args : GenesisArgs) (blocks : Finset Block) (start : BlockTree) :
    Mesh.Duties P2PNode Json Str where
  sound := Sound args blocks start
  valid data := ∀ block, decodeBlock data = .ok block → block ∈ blocks
  about data hash := ∃ block, decodeBlock data = .ok block ∧ block.hash = hash
  knows node hash := node.service.tree.weight.contains hash = true
  deals := Deals args blocks start

/-- What may come in from outside: data that `decode_block` refuses, whatever kinds its fields
are of, or a block of the set. -/
def Arrives (blocks : Finset Block) (data : Json) : Prop :=
  (∃ error, Untyped.decodeBlock data = .error error) ∨
    ∃ block ∈ blocks, decodeBlock data = .ok block

theorem Arrives.valid
    (arrives : Arrives blocks data)
    (block : Block)
    (decoded : decodeBlock data = .ok block) :
    block ∈ blocks := by
  rcases arrives with ⟨error, refused⟩ | ⟨other, member, readable⟩
  · rw [Untyped.decodeBlock_of_typed decoded] at refused
    cases refused
  · rwa [Except.ok.inj (decoded.symm.trans readable)]

/-- A block message as a step of a mesh. -/
def receive (node : P2PNode) (data : Json) : P2PNode × List Json :=
  ((node.onMessage (blockMessage data)).2, node.blockSends data)

theorem Unaffected.meets
    (unaffected : node.Unaffected after)
    (sound : Sound args blocks start node) :
    (duties args blocks start).Meets node (after, []) where
  sound := sound.congr unaffected.tree unaffected.orphans unaffected.seenBlock
  valid _ inside := absurd inside List.not_mem_nil
  deals hash deals := deals.mono fun applied absorbed =>
    ⟨applied, absorbed.congr unaffected.tree unaffected.orphans, List.prefix_refl _,
      fun _ _ handled => handled.congr unaffected.orphans⟩
  knows hash known := by
    have old : after.service.tree.weight.contains hash = true := known
    rw [unaffected.tree] at old
    exact .inl old

theorem Gossiped.kept
    (gossiped : Gossiped args blocks start) :
    (duties args blocks start).Kept receive (Arrives blocks) (Acts blocks) where
  outside _ arrives := arrives.valid
  handle node data sound valid := by
    have relays := (sound.holds gossiped).blockSends valid
    have knows : ∀ hash, (node.onMessage (blockMessage data)).2.service.tree.weight.contains hash =
        true → node.service.tree.weight.contains hash = true ∨ ∃ sent ∈ node.blockSends data,
          ∃ block, decodeBlock sent = .ok block ∧ block.hash = hash :=
      fun hash known => (relays.reports.knows hash).mp known
    have sendsValid : ∀ sent ∈ node.blockSends data, ∀ block, decodeBlock sent = .ok block →
        block ∈ blocks := by
      intro sent inside block decoded
      obtain ⟨other, member, otherDecoded⟩ := relays.reports.valid sent inside
      rwa [Except.ok.inj (decoded.symm.trans otherDecoded)]
    cases decoded : decodeBlock data with
    | error error =>
        have same : (node.onMessage (blockMessage data)).2 = node :=
          onMessage_malformed node (isBlock_blockMessage data) decoded
        refine ⟨⟨?_, sendsValid, ?_, knows⟩, ?_⟩
        · rw [receive, same]
          exact sound
        · intro hash deals
          rw [receive, same]
          exact deals
        · rintro hash ⟨block, readable, _⟩
          rw [decoded] at readable
          cases readable
    | ok block =>
        obtain ⟨stays, keeps, now⟩ := sound.deals gossiped (valid block decoded) decoded
        refine ⟨⟨stays, sendsValid, keeps, knows⟩, ?_⟩
        rintro hash ⟨other, readable, rfl⟩
        rw [← Except.ok.inj (decoded.symm.trans readable)]
        exact now
  acts node outcome sound acts := by
    cases acts with
    | hear noBlock => exact (node.unaffected_onMessage noBlock).meets sound
    | submitTx tx => exact (node.unaffected_submitTx tx).meets sound
    | autoVote randomness => exact (node.unaffected_autoVote randomness).meets sound
    | @produce timestamp randomness produced after outcome fits =>
        have made : node.produceAndGossip timestamp randomness = (produced, after) := outcome
        have cases := sound.produce gossiped (by rw [made]; exact fits)
        rw [made] at cases
        rcases cases with ⟨unaffected, nothing⟩ |
          ⟨block, member, data, decoded, unawaited, parent, rfl, tree, orphans, seenBlock⟩
        · rw [nothing]
          exact unaffected.meets sound
        · obtain ⟨stays, keeps⟩ :=
            sound.extend gossiped member decoded unawaited parent tree orphans seenBlock
          refine ⟨stays, ?_, keeps, fun hash known => ?_⟩
          · refine List.forall_mem_singleton.mpr fun other readable => ?_
            rwa [Except.ok.inj (readable.symm.trans decoded)]
          · have there : after.service.tree.weight.contains hash = true := known
            rw [tree] at there
            refine ((sound.holds gossiped).invariant.known_of_addBlock there).symm.imp_right ?_
            intro same
            exact ⟨data, List.mem_singleton.mpr rfl, block, decoded, same⟩

/-! ## What is left to send -/

/-- How many hashes of the set a node does not know yet. -/
def missing (blocks : Finset Block) (node : P2PNode) : Nat :=
  ((blocks.image Block.hash).filter
    fun hash => node.service.tree.weight.contains hash = false).card

/-- A node sends no more than what it learns. -/
theorem Sound.spends
    (gossiped : Gossiped args blocks start)
    (sound : Sound args blocks start node)
    (valid : ∀ block, decodeBlock data = .ok block → block ∈ blocks) :
    missing blocks (receive node data).1 + (receive node data).2.length ≤
      missing blocks node := by
  have relays := (sound.holds gossiped).blockSends valid
  have reports : Reports (· ∈ blocks) node.service.tree (receive node data).1.service.tree
      (receive node data).2 := relays.reports
  set unknown := (blocks.image Block.hash).filter
    fun hash => node.service.tree.weight.contains hash = false
  -- what is learnt, and what is still missing
  have learnt : ((receive node data).2.map fun data =>
      (decodeBlock data).toOption.map Block.hash).toFinset ⊆
      (unknown.filter fun hash =>
        (receive node data).1.service.tree.weight.contains hash = true).image some := by
    intro hash inside
    obtain ⟨message, sent, rfl⟩ := List.mem_map.mp (List.mem_toFinset.mp inside)
    obtain ⟨block, member, decoded⟩ := reports.valid message sent
    refine Finset.mem_image.mpr ⟨block.hash, ?_, by rw [decoded]; rfl⟩
    refine Finset.mem_filter.mpr ⟨Finset.mem_filter.mpr ⟨Finset.mem_image_of_mem _ member, ?_⟩, ?_⟩
    · exact reports.new message sent block decoded
    · exact (reports.knows _).mpr (.inr ⟨message, sent, block, decoded, rfl⟩)
  have still : (blocks.image Block.hash).filter (fun hash =>
      (receive node data).1.service.tree.weight.contains hash = false) ⊆
      unknown.filter fun hash =>
        ¬(receive node data).1.service.tree.weight.contains hash = true := by
    intro hash inside
    obtain ⟨member, missing⟩ := Finset.mem_filter.mp inside
    rw [Finset.mem_filter, Finset.mem_filter, Bool.not_eq_true]
    refine ⟨⟨member, ?_⟩, missing⟩
    rw [← Bool.not_eq_true] at missing ⊢
    exact fun known => missing ((reports.knows hash).mpr (.inl known))
  have split := Finset.card_filter_add_card_filter_not
    (s := unknown) fun hash => (receive node data).1.service.tree.weight.contains hash = true
  have sends : (receive node data).2.length ≤ (unknown.filter fun hash =>
      (receive node data).1.service.tree.weight.contains hash = true).card := by
    rw [← List.length_map, ← List.toFinset_card_of_nodup reports.apart]
    exact (Finset.card_le_card learnt).trans Finset.card_image_le
  calc
    missing blocks (receive node data).1 + (receive node data).2.length
    _ ≤ (unknown.filter fun hash =>
          ¬(receive node data).1.service.tree.weight.contains hash = true).card +
        (unknown.filter fun hash =>
          (receive node data).1.service.tree.weight.contains hash = true).card :=
      Nat.add_le_add (Finset.card_le_card still) sends
    _ = unknown.card := by rw [Nat.add_comm, split]
    _ = missing blocks node := rfl

/-! ## Links -/

section

variable {store : Dict Str Block} {fork : ProofOfStakeChain} {forkHash : Str} {forkWeight : Int}
  {peer : P2PNode}

/-- A node has what it has dealt with, if it has the parent and could still choose it. -/
theorem Sound.known_of_deals
    (gossiped : Gossiped args blocks start)
    (sound : Sound args blocks start node)
    (reference : Reference blocks store)
    (forkBranch : Branch args store forkHash fork forkWeight)
    (low : node.service.tree.finalizedHeight ≤ fork.finalizedCheckpoint.2)
    (member : block ∈ blocks)
    (onPath : BlockTree.OnPath args store fork block.hash)
    (deals : Deals args blocks start node block.hash)
    (parent : node.service.tree.weight.contains block.previousHash = true) :
    node.service.tree.weight.contains block.hash = true := by
  rcases deals with genesis | ⟨other, otherMember, same, applied, absorbed, handled⟩
  · exact absurd genesis (gossiped.deliverable.fresh block member)
  · rcases handled with given | ⟨data, inside, _⟩
    · have draws : BlockTree.Draws args blocks start :=
        BlockTree.draws_init gossiped.initialised
      rw [absorbed.tree] at low
      rw [← same] at onPath ⊢
      obtain ⟨kept, weight, branch⟩ := draws.stores_delivered gossiped.deliverable reference
        forkBranch absorbed.members absorbed.parentsFirst low (List.append_nil applied).symm given
        onPath
      rw [← absorbed.tree] at branch
      exact (gossiped.draws absorbed).known_of_branch branch
    · have unsealed :=
        gossiped.deliverable.distinct other otherMember block member same
      rw [Block.previousHash_eq_of_unsealed unsealed] at inside
      have waits : node.orphans.contains block.previousHash = true := by
        cases found : node.orphans.get? block.previousHash with
        | none =>
            rw [Dict.getD, found] at inside
            exact absurd inside List.not_mem_nil
        | some waiting => exact (Dict.contains_iff _ _).mpr ⟨waiting, found⟩
      have unknown := (sound.idle _ waits).resolve_left (Option.some_ne_none _).symm
      rw [parent] at unknown
      cases unknown

/-- Blocks spread to a peer that has dealt with them. -/
theorem Sound.spreads
    (gossiped : Gossiped args blocks start)
    (sound : Sound args blocks start node)
    (peerSound : Sound args blocks start peer)
    (reference : Reference blocks store)
    (deals : ∀ hash, node.service.tree.weight.contains hash = true →
      Deals args blocks start peer hash) :
    BlockTree.Spreads args store node.service.tree peer.service.tree := by
  obtain ⟨applied, absorbed, _⟩ := sound.handled
  obtain ⟨_, peerAbsorbed, _⟩ := peerSound.handled
  have draws := gossiped.draws absorbed
  have peerDraws := gossiped.draws peerAbsorbed
  intro forkHash fork forkWeight forkBranch low hash known onPath
  obtain ⟨chain, weight, branch⟩ := draws.branch_of_known known
  rw [BlockTree.HasBranch, draws.args_eq] at branch
  induction branch with
  | genesis _ =>
      have there := peerDraws.invariant.store.genesis_known
      rwa [peerDraws.invariant.store.genesisHash_eq, peerDraws.args_eq] at there
  | @extend previous before after block weight earlier stored fresh parent submitted
      inductionHypothesis =>
      have member := draws.drawn _ _ stored
      have above := onPath.parent gossiped.deliverable reference member
      rw [parent] at above
      have parentKnown : node.service.tree.weight.contains previous = true := by
        apply draws.known_of_branch
        rw [BlockTree.HasBranch, draws.args_eq]
        exact earlier
      have there := inductionHypothesis parentKnown above
      rw [← parent] at there
      exact peerSound.known_of_deals gossiped reference forkBranch low member onPath
        (deals _ known) there

end

/-! ## Meshes -/

section

variable {ι : Type*} [DecidableEq ι] {peers : ι → List ι} {before after : Mesh ι P2PNode Json}

/-- What can happen among nodes that relay the blocks of a set. -/
abbrev Step (blocks : Finset Block) (peers : ι → List ι) :
    Mesh ι P2PNode Json → Mesh ι P2PNode Json → Prop :=
  Mesh.Step peers receive (Arrives blocks) (Acts blocks)

omit [DecidableEq ι] in
/-- Fresh nodes are linked. -/
theorem Gossiped.linked
    (gossiped : Gossiped args blocks start)
    (fresh : ∀ id, Fresh args (before.nodes id))
    (empty : before.flight = []) :
    (duties args blocks start).Linked peers before := by
  have trees : ∀ id, (before.nodes id).service.tree = start := fun id =>
    Except.ok.inj ((fresh id).tree.symm.trans gossiped.initialised)
  refine ⟨fun id => ?_, fun entry inside => ?_, fun id peer _ hash known => .inl (.inl ?_)⟩
  · have sound : Sound args blocks (before.nodes id).service.tree (before.nodes id) :=
      (fresh id).sound
    rwa [trees id] at sound
  · rw [empty] at inside
    cases inside
  · have known : (before.nodes id).service.tree.weight.contains hash = true := known
    rw [trees id, ← BlockTree.deliver_nil start] at known
    have draws : BlockTree.Draws args blocks start := BlockTree.draws_init gossiped.initialised
    exact (BlockTree.known_deliver draws gossiped.initialised (by simp) known).resolve_right (by simp)

/-- Whatever has happened, no more messages arrive than there are links that blocks still
have to take and messages on their way, and once the oldest messages have arrived that often
nothing is on its way. -/
theorem Gossiped.relaying_ends
    [Fintype ι]
    (gossiped : Gossiped args blocks start)
    (fresh : ∀ id, Fresh args (before.nodes id))
    (empty : before.flight = [])
    (ran : Relation.ReflTransGen (Step blocks peers) before after) :
    (∀ count last, Mesh.Deliveries peers receive count after last →
      count + last.work peers (missing blocks) ≤ after.work peers (missing blocks)) ∧
    (after.pump peers receive (after.work peers (missing blocks))).flight = [] := by
  have linked := (gossiped.linked fresh empty).run gossiped.kept ran
  have spends : ∀ state message, (duties args blocks start).sound state →
      (duties args blocks start).valid message →
      missing blocks (receive state message).1 + (receive state message).2.length ≤
        missing blocks state :=
    fun state message sound valid => sound.spends gossiped valid
  refine ⟨fun count last arrive => ?_, ?_⟩
  · exact Mesh.deliveries_le gossiped.kept spends linked arrive
  · exact Mesh.quiet_pump gossiped.kept spends linked le_rfl

end

end P2PNode

/-! ## Two nodes -/

namespace ForkSample

open P2PNode

attribute [local instance] Symbolic.primitives

def both : Bool → List Bool := fun id => [!id]

def silent : Mesh Bool P2PNode Json := ⟨fun _ => listener, []⟩

/-- The finalizing branch comes in backwards at one node, the rival block at the other one. -/
def entries : List (Bool × Json) :=
  finalizing.reverse.map (fun block => (true, block.encodeBlock)) ++
    rival.map fun block => (false, block.encodeBlock)

def scattered : Mesh Bool P2PNode Json := { silent with flight := silent.flight ++ entries }

def settled : Mesh Bool P2PNode Json := scattered.pump both receive 12

theorem settled_checked :
    (∀ block ∈ finalizing ++ rival, block.postInit = block) ∧
      (∀ left ∈ finalizing ++ rival, ∀ right ∈ finalizing ++ rival,
        (blockWireId left = blockWireId right → left.hash = right.hash) ∧
          blockWireId left ≠ right.hash) ∧
      scattered.flight.length = 4 ∧ scattered.work both (missing blocks) = 12 ∧
      settled.flight = [] ∧
      (settled.nodes true).service.tree.finalizedHeight = 1 := by
  decide +kernel

theorem listener_fresh : Fresh args listener := by
  refine ⟨?_, rfl, rfl⟩
  unfold listener start
  exact eq_ok_outcome _ initialised

theorem gossiped : Gossiped args blocks start := by
  obtain ⟨_, apart, _⟩ := settled_checked
  have told : ∀ left ∈ blocks, ∀ right ∈ blocks,
      (blockWireId left = blockWireId right → left.hash = right.hash) ∧
        blockWireId left ≠ right.hash := by
    intro left leftMember right rightMember
    exact apart left ((mem_blocks left).mp leftMember) right ((mem_blocks right).mp rightMember)
  have few : blocks.card ≤ (finalizing ++ rival).length := List.toFinset_card_le _
  have size : (finalizing ++ rival).length = 4 := by decide +kernel
  refine ⟨⟨deliverable, listener_fresh.tree⟩, ?_, ?_, few.trans_lt ?_, few.trans ?_⟩
  · exact fun left leftMember right rightMember => (told left leftMember right rightMember).1
  · exact fun left leftMember right rightMember => (told left leftMember right rightMember).2
  · rw [size]
    decide
  · rw [size]
    decide

theorem run_scattered : Relation.ReflTransGen (Step blocks both) silent scattered := by
  obtain ⟨built, _⟩ := settled_checked
  apply Mesh.run_inject
  have valid : ∀ block ∈ finalizing ++ rival, Arrives blocks block.encodeBlock := by
    intro block inside
    refine .inr ⟨block, (mem_blocks block).mpr inside, ?_⟩
    rw [decodeBlock_encodeBlock, built block inside]
  refine List.forall_mem_append.mpr ⟨?_, ?_⟩
  · refine List.forall_mem_map.mpr fun block inside => ?_
    exact valid block (List.mem_append_left _ (List.mem_reverse.mp inside))
  · exact List.forall_mem_map.mpr fun block inside =>
      valid block (List.mem_append_right _ inside)

theorem connected (left right : Bool) :
    Relation.ReflTransGen (fun id peer => peer ∈ both id) left right := by
  by_cases same : right = left
  · rw [same]
  · apply Relation.ReflTransGen.single
    rw [both, List.mem_singleton]
    exact Bool.eq_not.mpr same

theorem relaying_ends_scattered :
    scattered.flight.length = 4 ∧ scattered.work both (missing blocks) = 12 ∧
      (scattered.pump both receive (scattered.work both (missing blocks))).flight = [] := by
  obtain ⟨_, _, waiting, work, _⟩ := settled_checked
  exact ⟨waiting, work, (gossiped.relaying_ends (fun _ => listener_fresh) rfl run_scattered).2⟩

end ForkSample

end Mindees
