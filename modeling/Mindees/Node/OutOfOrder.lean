import Mindees.ForkChoice.Delivery
import Mindees.Library.Runs
import Mindees.Node.BlockMessages

/-!
# Out-of-order gossip

A node that hears the blocks of a set in any order, with repetitions, keeps a
block until its parent is known and then hands it over.  Its tree is always the
tree that the blocks handed over so far would give, parents first, and in the
end nothing that waits could still be accepted.
-/

namespace Mindees

open Library ProofOfStakeChain

namespace P2PNode

/-- Nothing waits for a known block, except for the one given. -/
def Idle (node : P2PNode) (ready : Option Str) : Prop :=
  ∀ parent, node.orphans.contains parent = true → ready = some parent ∨
    node.service.tree.weight.contains parent = false

theorem Idle.congr
    {node after : P2PNode}
    {ready : Option Str}
    (idle : Idle node ready)
    (orphans : after.orphans = node.orphans)
    (tree : after.service.tree = node.service.tree) :
    Idle after ready := by
  rw [Idle, orphans, tree]
  exact idle

theorem Idle.erase
    {node : P2PNode}
    {parent : Str}
    (idle : Idle node (some parent)) :
    Idle { node with orphans := node.orphans.erase parent } none := by
  intro other waits
  rw [Dict.contains, Dict.get?_erase] at waits
  split_ifs at waits with same
  · cases waits
  · exact .inr ((idle other waits).resolve_left fun ready => same (Option.some.inj ready))

variable [Primitives] {args : GenesisArgs} {blocks : Finset Block} {start : BlockTree}
  {node : P2PNode} {applied more heard : List Block} {block : Block} {data : Json}
  {msg : List (Str × Json)}

/-- A node that holds the genesis block, and has heard of no other. -/
structure Fresh (args : GenesisArgs) (node : P2PNode) : Prop where
  tree : BlockTree.init args none = .ok node.service.tree
  seenBlock : node.seenBlock = Dict.empty
  orphans : node.orphans = Dict.empty

/-- The message carries the block. -/
def Carries (msg : List (Str × Json)) (block : Block) : Prop :=
  IsBlock msg ∧ decodeBlock (carried msg) = .ok block

/-! ## What the tree was given -/

/-- The tree is the outcome of handing over blocks of the set, parents first, and
what waits under a hash are children of that hash. -/
structure Absorbed
    (args : GenesisArgs)
    (blocks : Finset Block)
    (start : BlockTree)
    (applied : List Block)
    (node : P2PNode) : Prop where
  tree : node.service.tree = start.deliver applied
  members : ∀ block ∈ applied, block ∈ blocks
  parentsFirst : ParentsFirst args applied
  twins : ∀ block ∈ applied, ∀ twin ∈ blocks, twin.hash = block.hash → twin ∈ applied
  waiting : ∀ parent, ∀ data ∈ node.orphans.getD parent [],
    ∃ block ∈ blocks, decodeBlock data = .ok block ∧ block.previousHash = parent

/-- The block was handed over, or its data waits for its parent. -/
def Handled (applied : List Block) (node : P2PNode) (block : Block) : Prop :=
  block ∈ applied ∨ ∃ data ∈ node.orphans.getD block.previousHash [],
    ∃ kept, decodeBlock data = .ok kept ∧ kept.hash = block.hash

/-- More was handed over, and nothing was lost. -/
structure Follows
    (args : GenesisArgs)
    (blocks : Finset Block)
    (start : BlockTree)
    (applied : List Block)
    (node : P2PNode)
    (more : List Block)
    (after : P2PNode) : Prop where
  absorbed : Absorbed args blocks start more after
  longer : applied <+: more
  handled : ∀ block ∈ blocks, Handled applied node block → Handled more after block

/-- A call returns, loses nothing and leaves nothing waiting for a known block. -/
structure Returns
    (args : GenesisArgs)
    (blocks : Finset Block)
    (start : BlockTree)
    (applied : List Block)
    (node : P2PNode)
    (called : Except Error Unit × P2PNode)
    (more : List Block) : Prop where
  returned : called.1 = .ok ()
  idle : Idle called.2 none
  follows : Follows args blocks start applied node more called.2

theorem Follows.trans
    {middle after : P2PNode}
    {between : List Block}
    (first : Follows args blocks start applied node between middle)
    (second : Follows args blocks start between middle more after) :
    Follows args blocks start applied node more after where
  absorbed := second.absorbed
  longer := first.longer.trans second.longer
  handled block member handled := second.handled block member (first.handled block member handled)

theorem Returns.after
    {middle : P2PNode}
    {between : List Block}
    {called : Except Error Unit × P2PNode}
    (first : Follows args blocks start applied node between middle)
    (second : Returns args blocks start between middle called more) :
    Returns args blocks start applied node called more :=
  ⟨second.returned, second.idle, first.trans second.follows⟩

/-- What a node needs to know of the set and of the tree it starts from. -/
structure Setting (args : GenesisArgs) (blocks : Finset Block) (start : BlockTree) : Prop where
  deliverable : Deliverable args blocks
  initialised : BlockTree.init args none = .ok start

theorem Setting.draws
    (setting : Setting args blocks start)
    (absorbed : Absorbed args blocks start applied node) :
    BlockTree.Draws args blocks node.service.tree := by
  rw [absorbed.tree]
  exact (BlockTree.draws_init setting.initialised).deliver absorbed.members

/-- What was known stays known when more is handed over. -/
theorem Setting.known_of_prefix
    {after : P2PNode}
    {hash : Str}
    (setting : Setting args blocks start)
    (absorbed : Absorbed args blocks start applied node)
    (absorbedMore : Absorbed args blocks start more after)
    (longer : applied <+: more)
    (known : node.service.tree.weight.contains hash = true) :
    after.service.tree.weight.contains hash = true := by
  obtain ⟨rest, rfl⟩ := longer
  have restMembers : ∀ block ∈ rest, block ∈ blocks := fun block inside =>
    absorbedMore.members block (List.mem_append_right _ inside)
  rw [absorbedMore.tree, BlockTree.deliver_append, ← absorbed.tree]
  have draws := setting.draws absorbed
  clear absorbedMore
  induction rest using List.reverseRecOn with
  | nil => exact known
  | append_singleton earlier last inductionHypothesis =>
      have earlierMembers : ∀ block ∈ earlier, block ∈ blocks := fun block inside =>
        restMembers block (List.mem_append_left _ inside)
      rw [BlockTree.deliver_append]
      exact (draws.deliver earlierMembers).invariant.known_addBlock last
        (inductionHypothesis earlierMembers)

/-! ## Handing a block over -/

/-- How the hand-over of a block ends. -/
inductive HandOver (node : P2PNode) (block : Block) : Except Error Receipt × P2PNode → Prop
  | refused {error : Error} {after : P2PNode} :
      error.isValidation = true → after.service.tree = node.service.tree →
      HandOver node block (.error error, after)
  | known {receipt : Receipt} {after : P2PNode} :
      receipt.accepted = false → after.service.tree = node.service.tree →
      HandOver node block (.ok receipt, after)
  | accepted {receipt : Receipt} {after : P2PNode} :
      receipt.accepted = true → after.service.tree.weight.contains block.hash = true →
      HandOver node block (.ok receipt, after)

theorem Setting.handOver
    (setting : Setting args blocks start)
    (absorbed : Absorbed args blocks start applied node)
    (member : block ∈ blocks)
    (decoded : decodeBlock data = .ok block)
    (known : node.service.tree.weight.contains block.previousHash = true) :
    HandOver node block (node.receiveBlock data) := by
  have invariant := (setting.draws absorbed).invariant
  have receipt := receiveBlock_fst node decoded
  have tree := tree_receiveBlock node decoded
  have ends := (setting.draws absorbed).addBlock_member setting.deliverable member known
  generalize node.receiveBlock data = handed at receipt tree
  obtain ⟨result, after⟩ := handed
  dsimp only at receipt tree
  rcases ends with unchanged | stored | ⟨message, refused⟩
  · rw [unchanged] at receipt tree
    cases result with
    | error error => cases receipt
    | ok answer => exact .known (Except.ok.inj receipt) tree
  · have there := (invariant.of_accepted stored).2.2
    have knownNow := ((invariant.addBlock block).store.block_sound _ _ there).2.2.2
    rw [← tree] at knownNow
    rw [stored] at receipt
    cases result with
    | error error => cases receipt
    | ok answer => exact .accepted (Except.ok.inj receipt) knownNow
  · rw [refused] at receipt tree
    cases result with
    | error error =>
        refine .refused ?_ tree
        rw [Except.error.inj receipt]
        rfl
    | ok answer => cases receipt

/-- The tree after the hand-over is that of one block more, its twins included. -/
theorem Setting.follows_receiveBlock
    (setting : Setting args blocks start)
    (absorbed : Absorbed args blocks start applied node)
    (member : block ∈ blocks)
    (decoded : decodeBlock data = .ok block)
    (known : node.service.tree.weight.contains block.previousHash = true) :
    Follows args blocks start applied node (applied ++ BlockTree.twinsOf blocks block)
      (node.receiveBlock data).2 := by
  have draws := setting.draws absorbed
  have twins : ∀ twin ∈ BlockTree.twinsOf blocks block,
      twin ∈ blocks ∧ twin.hash = block.hash :=
    fun twin inside => (BlockTree.mem_twinsOf member).mp inside
  refine ⟨⟨?_, ?_, ?_, ?_, absorbed.waiting⟩, List.prefix_append _ _, ?_⟩
  · rw [tree_receiveBlock node decoded, BlockTree.deliver_append, ← absorbed.tree,
      draws.deliver_twinsOf setting.deliverable member]
  · intro other inside
    rcases List.mem_append.mp inside with old | new
    · exact absorbed.members other old
    · exact (twins other new).1
  · apply absorbed.parentsFirst.append
    intro twin inside
    obtain ⟨twinMember, same⟩ := twins twin inside
    have unsealed := setting.deliverable.distinct twin twinMember block member same
    rw [Block.previousHash_eq_of_unsealed unsealed]
    rw [absorbed.tree] at known
    exact BlockTree.known_deliver (BlockTree.draws_init setting.initialised) setting.initialised
      absorbed.members known
  · intro other inside twin twinMember same
    rcases List.mem_append.mp inside with old | new
    · exact List.mem_append_left _ (absorbed.twins other old twin twinMember same)
    · exact List.mem_append_right _
        ((BlockTree.mem_twinsOf member).mpr ⟨twinMember, same.trans (twins other new).2⟩)
  · intro other _ handled
    exact handled.imp_left (List.mem_append_left _)

/-- Only children of the block can become ready. -/
theorem Setting.idle_receiveBlock
    (setting : Setting args blocks start)
    (absorbed : Absorbed args blocks start applied node)
    (decoded : decodeBlock data = .ok block)
    (idle : Idle node none) :
    Idle (node.receiveBlock data).2 (some block.hash) := by
  intro parent waits
  have unknown := (idle parent waits).resolve_left nofun
  rw [tree_receiveBlock node decoded]
  cases known : (node.service.tree.addBlock block).2.weight.contains parent with
  | false => exact .inr rfl
  | true =>
      left
      rcases (setting.draws absorbed).invariant.known_of_addBlock known with same | old
      · rw [same]
      · rw [unknown] at old
        cases old

/-! ## Draining -/

/-- What a drain of the children of a known block does, as long as there is room for it. -/
def Drains
    (args : GenesisArgs)
    (blocks : Finset Block)
    (start : BlockTree)
    (room : Nat)
    (drain : P2PNode → Str → Except Error Unit × P2PNode) : Prop :=
  ∀ node applied parent, nests room node.orphans parent = false →
    Absorbed args blocks start applied node →
    node.service.tree.weight.contains parent = true → Idle node (some parent) →
    ∃ more, Returns args blocks start applied node (drain node parent) more

/-- The drained blocks are handed over one after the other. -/
theorem Setting.drainLoop
    {drain : P2PNode → Str → Except Error Unit × P2PNode}
    {room : Nat}
    {waiting : List Json}
    (setting : Setting args blocks start)
    (drains : Drains args blocks start room drain)
    (absorbed : Absorbed args blocks start applied node)
    (shallow : ∀ data ∈ waiting, ∀ block, decodeBlock data = .ok block →
      nests room node.orphans block.hash = false)
    (idle : Idle node none)
    (ready : ∀ data ∈ waiting, ∃ block ∈ blocks, decodeBlock data = .ok block ∧
      node.service.tree.weight.contains block.previousHash = true)
    (shrinks : ∀ node parent key, nests room node.orphans key = false →
      nests room (drain node parent).2.orphans key = false) :
    ∃ more, Returns args blocks start applied node (drainLoop drain waiting node) more ∧
      ∀ data ∈ waiting, ∀ block, decodeBlock data = .ok block → block ∈ more := by
  induction waiting generalizing node applied with
  | nil =>
      refine ⟨applied, ⟨rfl, idle, absorbed, List.prefix_refl _, fun _ _ => id⟩, ?_⟩
      intro data inside
      exact absurd inside List.not_mem_nil
  | cons data rest inductionHypothesis =>
      obtain ⟨⟨block, member, decoded, known⟩, others⟩ := List.forall_mem_cons.mp ready
      obtain ⟨shallowNow, shallowLater⟩ := List.forall_mem_cons.mp shallow
      have follows := setting.follows_receiveBlock absorbed member decoded known
      have handOver := setting.handOver absorbed member decoded known
      have becomes := setting.idle_receiveBlock absorbed decoded idle
      have orphans : (node.receiveBlock data).2.orphans = node.orphans := rfl
      have stored : block ∈ applied ++ BlockTree.twinsOf blocks block :=
        List.mem_append_right _ List.mem_cons_self
      -- what is left to do, from any state that the block leads to
      have finish : ∀ (middle : P2PNode) (between : List Block),
          Follows args blocks start applied node between middle → block ∈ between →
          (∀ item ∈ rest, ∀ block, decodeBlock item = .ok block →
            nests room middle.orphans block.hash = false) → Idle middle none →
          ∃ more, Returns args blocks start applied node
              (P2PNode.drainLoop drain rest middle) more ∧
            ∀ item ∈ data :: rest, ∀ block, decodeBlock item = .ok block → block ∈ more := by
        intro middle between toMiddle there still idleMiddle
        obtain ⟨more, returns, handed⟩ := inductionHypothesis toMiddle.absorbed still idleMiddle (by
          intro item inside
          obtain ⟨other, otherMember, otherDecoded, otherKnown⟩ := others item inside
          exact ⟨other, otherMember, otherDecoded,
            setting.known_of_prefix absorbed toMiddle.absorbed toMiddle.longer otherKnown⟩)
        refine ⟨more, returns.after toMiddle, List.forall_mem_cons.mpr ⟨?_, handed⟩⟩
        intro other decodedOther
        rw [decoded] at decodedOther
        rw [← Except.ok.inj decodedOther]
        exact returns.follows.longer.subset there
      rw [P2PNode.drainLoop]
      simp only [decoded]
      generalize node.receiveBlock data = handed at follows handOver becomes orphans
      cases handOver with
      | @refused error after validation unchanged =>
          simp only [validation, if_true]
          exact finish after _ follows stored (orphans ▸ shallowLater)
            (idle.congr orphans unchanged)
      | @known receipt after notAccepted unchanged =>
          simp only [notAccepted, Bool.false_eq_true, if_false]
          exact finish after _ follows stored (orphans ▸ shallowLater)
            (idle.congr orphans unchanged)
      | @accepted receipt after accepted knownNow =>
          simp only [accepted, if_true]
          obtain ⟨more, returns⟩ :=
            drains after _ block.hash (orphans ▸ shallowNow block decoded) follows.absorbed
              knownNow becomes
          have still : ∀ item ∈ rest, ∀ other, decodeBlock item = .ok other →
              nests room (drain after block.hash).2.orphans other.hash = false :=
            fun item inside other readable =>
              shrinks after block.hash other.hash (orphans ▸ shallowLater item inside other readable)
          generalize drain after block.hash = called at returns still
          obtain ⟨result, drained⟩ := called
          obtain rfl : result = .ok () := returns.returned
          exact finish drained more (follows.trans returns.follows)
            (returns.follows.longer.subset stored) still returns.idle

/-- Where nothing waits there is nothing to drain. -/
theorem Absorbed.nothing
    {parent : Str}
    (absorbed : Absorbed args blocks start applied node)
    (none : node.orphans.get? parent = .none)
    (idle : Idle node (some parent)) :
    Returns args blocks start applied node (.ok (), node) applied := by
  refine ⟨rfl, fun other waits => .inr ?_, absorbed, List.prefix_refl _, fun _ _ => id⟩
  refine (idle other waits).resolve_left ?_
  rintro ⟨⟩
  rw [Dict.contains, none] at waits
  cases waits

theorem Absorbed.erase
    (absorbed : Absorbed args blocks start applied node)
    (parent : Str) :
    Absorbed args blocks start applied { node with orphans := node.orphans.erase parent } := by
  refine ⟨absorbed.tree, absorbed.members, absorbed.parentsFirst, absorbed.twins, ?_⟩
  intro other data inside
  rw [Dict.getD_erase] at inside
  split_ifs at inside
  · exact absurd inside List.not_mem_nil
  · exact absorbed.waiting other data inside

/-- A drain with enough room hands over all that was waiting for the block. -/
theorem Setting.drains
    (setting : Setting args blocks start)
    (fuel : Nat) :
    Drains args blocks start fuel (drainOrphans fuel) := by
  induction fuel with
  | zero =>
      intro node applied parent shallow absorbed _ idle
      unfold drainOrphans
      cases found : node.orphans.get? parent with
      | none => exact ⟨applied, absorbed.nothing found idle⟩
      | some waiting =>
          have waits : node.orphans.contains parent = true :=
            (Dict.contains_iff _ _).mpr ⟨waiting, found⟩
          rw [nests, waits] at shallow
          cases shallow
  | succ fuel inductionHypothesis =>
      intro node applied parent shallow absorbed known idle
      unfold drainOrphans
      cases found : node.orphans.get? parent with
      | none => exact ⟨applied, absorbed.nothing found idle⟩
      | some waiting =>
          have shallowThen : ∀ data ∈ waiting, ∀ block, decodeBlock data = .ok block →
              nests fuel (node.orphans.erase parent) block.hash = false := by
            intro data inside block decoded
            rw [← Dict.getD_eq_of_get? found []] at inside
            rw [← Bool.not_eq_true] at shallow ⊢
            exact fun deep => shallow (nests_succ.mpr ⟨data, inside, block, decoded, deep⟩)
          have ready : ∀ data ∈ waiting, ∃ block ∈ blocks, decodeBlock data = .ok block ∧
              node.service.tree.weight.contains block.previousHash = true := by
            intro data inside
            rw [← Dict.getD_eq_of_get? found []] at inside
            obtain ⟨block, member, decoded, rfl⟩ := absorbed.waiting parent data inside
            exact ⟨block, member, decoded, known⟩
          obtain ⟨more, returns, handed⟩ := setting.drainLoop inductionHypothesis
            (absorbed.erase parent) shallowThen idle.erase ready
            (fun _ _ _ => nests_drainOrphans)
          refine ⟨more, returns.returned, returns.idle, returns.follows.absorbed,
            returns.follows.longer, fun block member handled => ?_⟩
          rcases handled with given | ⟨data, inside, kept, decoded, same⟩
          · exact .inl (returns.follows.longer.subset given)
          · by_cases child : parent = block.previousHash
            · -- the block waited for the parent, and its data has been handed over
              rw [← child, Dict.getD_eq_of_get? found] at inside
              have given := handed data inside kept decoded
              exact .inl (returns.follows.absorbed.twins kept given block member same.symm)
            · apply returns.follows.handled block member
              refine .inr ⟨data, ?_, kept, decoded, same⟩
              rw [Dict.getD_erase, if_neg child]
              exact inside

/-! ## Messages -/

/-- A block of the set is handed over or kept. -/
theorem Setting.applyOrBuffer
    (setting : Setting args blocks start)
    (absorbed : Absorbed args blocks start applied node)
    (idle : Idle node none)
    (room : node.orphans.size < MAX_ORPHANS)
    (shallow : node.service.tree.weight.contains block.previousHash = true →
      nests Primitives.nesting node.orphans block.hash = false)
    (member : block ∈ blocks)
    (decoded : decodeBlock data = .ok block) :
    ∃ more, Returns args blocks start applied node (node.applyOrBuffer block data) more ∧
      Handled more (node.applyOrBuffer block data).2 block := by
  unfold P2PNode.applyOrBuffer
  cases known : node.service.tree.weight.contains block.previousHash with
  | false =>
      rw [if_pos rfl, if_pos room]
      have kept : ∀ parent, ∀ item ∈ node.orphans.getD parent [],
          item ∈ (node.orphans.set block.previousHash
            (node.orphans.getD block.previousHash [] ++ [data])).getD parent [] := by
        intro parent item inside
        rw [Dict.getD_set]
        split_ifs with same
        · subst same
          exact List.mem_append_left _ inside
        · exact inside
      refine ⟨applied, ⟨rfl, ?_, ⟨⟨absorbed.tree, absorbed.members, absorbed.parentsFirst,
        absorbed.twins, ?_⟩, List.prefix_refl _, ?_⟩⟩, ?_⟩
      · intro parent waits
        rw [Dict.contains_set, Bool.or_eq_true, decide_eq_true_iff] at waits
        rcases waits with same | waits
        · rw [← same]
          exact .inr known
        · exact idle parent waits
      · intro parent item inside
        rw [Dict.getD_set] at inside
        split_ifs at inside with same
        · rcases List.mem_append.mp inside with old | new
          · rw [← same]
            exact absorbed.waiting _ item old
          · rw [List.mem_singleton.mp new]
            exact ⟨block, member, decoded, same⟩
        · exact absorbed.waiting parent item inside
      · intro other _ handled
        refine handled.imp_right ?_
        rintro ⟨item, inside, stored⟩
        exact ⟨item, kept _ item inside, stored⟩
      · refine .inr ⟨data, ?_, block, decoded, rfl⟩
        rw [Dict.getD_set, if_pos rfl]
        simp
  | true =>
      rw [if_neg Bool.false_ne_true.symm]
      have follows := setting.follows_receiveBlock absorbed member decoded known
      have handOver := setting.handOver absorbed member decoded known
      have becomes := setting.idle_receiveBlock absorbed decoded idle
      have orphans : (node.receiveBlock data).2.orphans = node.orphans := rfl
      have stored : block ∈ applied ++ BlockTree.twinsOf blocks block :=
        List.mem_append_right _ List.mem_cons_self
      generalize node.receiveBlock data = handed at follows handOver becomes orphans
      cases handOver with
      | @refused error after validation unchanged =>
          simp only [validation, if_true]
          exact ⟨_, ⟨rfl, idle.congr orphans unchanged, follows⟩, .inl stored⟩
      | @known receipt after notAccepted unchanged =>
          simp only [notAccepted, Bool.false_eq_true, if_false]
          exact ⟨_, ⟨rfl, idle.congr orphans unchanged, follows⟩, .inl stored⟩
      | @accepted receipt after accepted knownNow =>
          simp only [accepted, if_true]
          obtain ⟨more, returns⟩ := setting.drains Primitives.nesting after _ block.hash
            (orphans ▸ shallow known) follows.absorbed knownNow becomes
          exact ⟨more, returns.after follows, .inl (returns.follows.longer.subset stored)⟩

/-- A message brings a new block with a known parent, and under it the waiting blocks form a
chain for which the stack has no room. -/
def Overflows (node : P2PNode) (msg : List (Str × Json)) : Prop :=
  ∃ block, Carries msg block ∧ node.seenBlock.contains (blockWireId block) = false ∧
    node.service.tree.weight.contains block.previousHash = true ∧
    nests Primitives.nesting node.orphans block.hash = true

/-- What a node that started fresh has made of the blocks it heard. -/
structure Heard
    (args : GenesisArgs)
    (blocks : Finset Block)
    (start : BlockTree)
    (heard : List Block)
    (node : P2PNode) : Prop where
  members : ∀ block ∈ heard, block ∈ blocks
  idle : Idle node none
  seen : ∀ id, node.seenBlock.contains id = true → ∃ block ∈ heard, blockWireId block = id
  handled : ∃ applied, Absorbed args blocks start applied node ∧
    ∀ block ∈ heard, Handled applied node block

theorem Setting.handled_of_same
    {earlier : Block}
    (setting : Setting args blocks start)
    (absorbed : Absorbed args blocks start applied node)
    (earlierMember : earlier ∈ blocks)
    (member : block ∈ blocks)
    (same : earlier.hash = block.hash)
    (handled : Handled applied node earlier) :
    Handled applied node block := by
  rcases handled with given | ⟨data, inside, kept, decoded, sameHash⟩
  · exact .inl (absorbed.twins earlier given block member same.symm)
  · have unsealed := setting.deliverable.distinct earlier earlierMember block member same
    rw [Block.previousHash_eq_of_unsealed unsealed] at inside
    exact .inr ⟨data, inside, kept, decoded, sameHash.trans same⟩

/-- One message: the call returns and its block is handled. -/
theorem Setting.onMessage
    (setting : Setting args blocks start)
    (identified : ∀ left ∈ blocks, ∀ right ∈ blocks,
      blockWireId left = blockWireId right → left.hash = right.hash)
    (hears : Heard args blocks start heard node)
    (room : node.orphans.size < MAX_ORPHANS)
    (shallow : ¬Overflows node msg)
    (carries : Carries msg block)
    (member : block ∈ blocks) :
    (node.onMessage msg).1 = .ok () ∧
      Heard args blocks start (heard ++ [block]) (node.onMessage msg).2 := by
  obtain ⟨isBlock, decoded⟩ := carries
  obtain ⟨applied, absorbed, handled⟩ := hears.handled
  have members : ∀ other ∈ heard ++ [block], other ∈ blocks :=
    List.forall_mem_append.mpr ⟨hears.members, by simpa using member⟩
  have seen : ∀ id, (node.onMessage msg).2.seenBlock.contains id = true →
      ∃ other ∈ heard ++ [block], blockWireId other = id := by
    intro id known
    rw [seenBlock_onMessage node isBlock decoded] at known
    rcases contains_of_remember known with old | new
    · obtain ⟨other, inside, same⟩ := hears.seen id old
      exact ⟨other, List.mem_append_left _ inside, same⟩
    · exact ⟨block, by simp, new⟩
  rw [onMessage_block node isBlock decoded] at seen ⊢
  split_ifs at seen ⊢ with known
  · refine ⟨rfl, members, hears.idle, seen, applied, absorbed, ?_⟩
    refine List.forall_mem_append.mpr ⟨handled, ?_⟩
    simp only [List.forall_mem_singleton]
    obtain ⟨earlier, inside, same⟩ := hears.seen _ known
    have earlierMember := hears.members earlier inside
    exact setting.handled_of_same absorbed earlierMember member
      (identified earlier earlierMember block member same) (handled earlier inside)
  · have unmarked : Absorbed args blocks start applied
        { node with seenBlock := (remember node.seenBlock (blockWireId block)).2 } :=
      ⟨absorbed.tree, absorbed.members, absorbed.parentsFirst, absorbed.twins, absorbed.waiting⟩
    have fits : node.service.tree.weight.contains block.previousHash = true →
        nests Primitives.nesting node.orphans block.hash = false := by
      intro parent
      rw [← Bool.not_eq_true]
      exact fun deep => shallow ⟨block, ⟨isBlock, decoded⟩, eq_false_of_ne_true known, parent, deep⟩
    obtain ⟨more, returns, now⟩ :=
      setting.applyOrBuffer unmarked hears.idle room fits member decoded
    refine ⟨returns.returned, members, returns.idle, seen, more, returns.follows.absorbed, ?_⟩
    refine List.forall_mem_append.mpr ⟨fun other inside => ?_, by simpa using now⟩
    exact returns.follows.handled other (hears.members other inside) (handled other inside)

/-- Many messages: each call returns and every block is handled. -/
theorem Setting.hear
    {msgs : List (List (Str × Json))}
    (setting : Setting args blocks start)
    (identified : ∀ left ∈ blocks, ∀ right ∈ blocks,
      blockWireId left = blockWireId right → left.hash = right.hash)
    (hears : Heard args blocks start heard node)
    (carries : ∀ msg ∈ msgs, ∃ block ∈ blocks, Carries msg block)
    (room : ∀ earlier, earlier <+: msgs → (node.hear earlier).orphans.size < MAX_ORPHANS)
    (shallow : ∀ earlier msg later, msgs = earlier ++ msg :: later →
      ¬Overflows (node.hear earlier) msg) :
    (∀ earlier msg later, msgs = earlier ++ msg :: later →
      ((node.hear earlier).onMessage msg).1 = .ok ()) ∧
    ∃ all, Heard args blocks start all (node.hear msgs) ∧ heard ⊆ all ∧
      ∀ msg ∈ msgs, ∀ block, Carries msg block → block ∈ all := by
  induction msgs generalizing node heard with
  | nil =>
      refine ⟨fun earlier msg later split => ?_, heard, hears, List.Subset.refl _, ?_⟩
      · exact absurd split.symm (by simp)
      · intro msg inside
        exact absurd inside List.not_mem_nil
  | cons msg rest inductionHypothesis =>
      obtain ⟨⟨block, member, carried⟩, others⟩ := List.forall_mem_cons.mp carries
      rw [forall_prefix_cons] at room
      rw [forall_split_cons] at shallow
      obtain ⟨now, later⟩ := room
      obtain ⟨shallowNow, shallowLater⟩ := shallow
      obtain ⟨returned, hearsMore⟩ :=
        setting.onMessage identified hears now shallowNow carried member
      obtain ⟨returns, all, hearsAll, longer, carriedAll⟩ :=
        inductionHypothesis hearsMore others later shallowLater
      refine ⟨(forall_split_cons _ _ _).mpr ⟨returned, returns⟩, all, hearsAll, ?_, ?_⟩
      · exact fun other inside => longer (List.mem_append_left _ inside)
      · refine List.forall_mem_cons.mpr ⟨fun other carriesOther => ?_, carriedAll⟩
        rw [Except.ok.inj (carriesOther.2.symm.trans carried.2)]
        exact longer (by simp)

/-- A fresh node has handled nothing. -/
theorem Fresh.hears
    (fresh : Fresh args node) :
    Heard args blocks node.service.tree [] node where
  members block inside := absurd inside List.not_mem_nil
  idle parent waits := by
    rw [fresh.orphans] at waits
    cases waits
  seen id known := by
    rw [fresh.seenBlock] at known
    cases known
  handled := by
    refine ⟨[], ⟨rfl, ?_, ?_, ?_, ?_⟩, ?_⟩
    · exact fun block inside => absurd inside List.not_mem_nil
    · exact fun position inside => absurd inside (Nat.not_lt_zero position)
    · exact fun block inside => absurd inside List.not_mem_nil
    · intro parent data inside
      rw [fresh.orphans] at inside
      exact absurd inside List.not_mem_nil
    · exact fun block inside => absurd inside List.not_mem_nil

/-- What waits in the end could not be accepted: the tree is that of all blocks
of the set, parents first. -/
theorem Setting.exists_complete_order
    (setting : Setting args blocks start)
    (hears : Heard args blocks start heard node)
    (complete : ∀ block ∈ blocks, block ∈ heard) :
    ∃ order : List Block, (∀ block, block ∈ order ↔ block ∈ blocks) ∧
      ParentsFirst args order ∧ node.service.tree = start.deliver order := by
  obtain ⟨applied, absorbed, handled⟩ := hears.handled
  obtain ⟨order, members, parentsFirst⟩ := setting.deliverable.exists_order
  refine ⟨applied ++ order.filter (· ∉ applied), fun block => ?_,
    absorbed.parentsFirst.append_rest parentsFirst, ?_⟩
  · rw [List.mem_append, List.mem_filter, members, decide_eq_true_iff]
    by_cases given : block ∈ applied
    · simp only [given, true_or, absorbed.members block given]
    · simp only [given, not_false_eq_true, and_true, false_or]
  · rw [BlockTree.deliver_append, ← absorbed.tree]
    refine (BlockTree.deliver_unchanged fun block inside => ?_).symm
    obtain ⟨ordered, missing⟩ := List.mem_filter.mp inside
    have member := (members block).mp ordered
    have waits := (handled block (complete block member)).resolve_left (of_decide_eq_true missing)
    obtain ⟨data, buffered, _⟩ := waits
    apply (setting.draws absorbed).addBlock_orphan
    refine (hears.idle block.previousHash ?_).resolve_left nofun
    cases found : node.orphans.get? block.previousHash with
    | none =>
        rw [Dict.getD, found] at buffered
        exact absurd buffered List.not_mem_nil
    | some waiting => exact (Dict.contains_iff _ _).mpr ⟨waiting, found⟩

/-- Out-of-order gossip loses nothing as long as the stack has room for the releases:
whatever the order in which a fresh node hears the blocks of a set, and however often, every
call returns, every block that is compatible with what is final in the end is stored, and the
frontier, the head and the canonical state are those of a delivery that puts parents first. -/
theorem Fresh.hear_loses_nothing
    {msgs : List (List (Str × Json))}
    (fresh : Fresh args node)
    (deliverable : Deliverable args blocks)
    (identified : ∀ left ∈ blocks, ∀ right ∈ blocks,
      blockWireId left = blockWireId right → left.hash = right.hash)
    (carries : ∀ msg ∈ msgs, ∃ block ∈ blocks, Carries msg block)
    (complete : ∀ block ∈ blocks, ∃ msg ∈ msgs, Carries msg block)
    (room : ∀ earlier, earlier <+: msgs → (node.hear earlier).orphans.size < MAX_ORPHANS)
    (shallow : ∀ earlier msg later, msgs = earlier ++ msg :: later →
      ¬Overflows (node.hear earlier) msg) :
    (∀ earlier msg later, msgs = earlier ++ msg :: later →
      ((node.hear earlier).onMessage msg).1 = .ok ()) ∧
    (∀ block ∈ blocks, Compatible args blocks (node.hear msgs).service.tree.frontier block →
      ∃ stored, (node.hear msgs).service.tree.blocks.get? block.hash = some stored ∧
        stored.unsealed = block.unsealed) ∧
    ∀ start order, BlockTree.init args none = .ok start →
      (∀ block, block ∈ order ↔ block ∈ blocks) → ParentsFirst args order →
      (node.hear msgs).service.tree.finalizedHash = (start.deliver order).finalizedHash ∧
      (node.hear msgs).service.tree.finalizedHeight = (start.deliver order).finalizedHeight ∧
      (node.hear msgs).service.tree.headHash = (start.deliver order).headHash ∧
      (node.hear msgs).service.tree.canonical.state = (start.deliver order).canonical.state ∧
      (node.hear msgs).service.tree.canonical.chain.map Block.unsealed =
        (start.deliver order).canonical.chain.map Block.unsealed := by
  have setting : Setting args blocks node.service.tree := ⟨deliverable, fresh.tree⟩
  obtain ⟨returns, all, hears, _, carriedAll⟩ :=
    setting.hear identified fresh.hears carries room shallow
  have heardAll : ∀ block ∈ blocks, block ∈ all := by
    intro block member
    obtain ⟨msg, inside, carried⟩ := complete block member
    exact carriedAll msg inside block carried
  obtain ⟨given, members, parentsFirst, tree⟩ := setting.exists_complete_order hears heardAll
  obtain ⟨store, reference⟩ := exists_reference blocks
  have draws : BlockTree.Draws args blocks node.service.tree :=
    BlockTree.draws_init fresh.tree
  have covers := draws.covers deliverable reference members parentsFirst
  have final := draws.deliver fun block inside => (members block).mp inside
  rw [tree]
  refine ⟨returns, fun block member compatible => ?_, ?_⟩
  · exact covers.stores_compatible final deliverable reference member compatible
  · intro start order initialised orderMembers orderFirst
    obtain rfl := Except.ok.inj (fresh.tree.symm.trans initialised)
    have orderCovers := draws.covers deliverable reference orderMembers orderFirst
    have orderFinal := draws.deliver fun block inside => (orderMembers block).mp inside
    exact covers.converge orderCovers final orderFinal deliverable reference

end P2PNode

/-! ## A scrambled run -/

namespace ForkSample

open P2PNode

attribute [local instance] Symbolic.primitives

/-- A node that knows the genesis block only. -/
def listener : P2PNode :=
  P2PNode.init
    { tree := start
      mempool := Mempool.init
      validator := none
      autoproduce := false
      store := [] }

/-- The finalizing branch backwards, the rival block, and the first block again. -/
def scrambled : List Block := finalizing.reverse ++ rival ++ finalizing.take 1

def scrambledMsgs : List (List (Str × Json)) :=
  scrambled.map fun block => blockMessage block.encodeBlock

theorem mem_scrambled (block : Block) : block ∈ scrambled ↔ block ∈ blocks := by
  rw [mem_blocks, scrambled, List.mem_append, List.mem_append, List.mem_append, List.mem_reverse]
  exact ⟨fun inside => inside.elim id fun again => .inl (List.mem_of_mem_take again), .inl⟩

/-- The messages carry the blocks of the set, and nothing else. -/
theorem carries_scrambled
    [Primitives]
    (built : ∀ block ∈ scrambled, block.postInit = block) :
    (∀ msg ∈ scrambledMsgs, ∃ block ∈ blocks, Carries msg block) ∧
      ∀ block ∈ blocks, ∃ msg ∈ scrambledMsgs, Carries msg block := by
  have heard : ∀ block ∈ scrambled, Carries (blockMessage block.encodeBlock) block :=
    fun block inside => ⟨isBlock_blockMessage _, carries (built block inside)⟩
  refine ⟨List.forall_mem_map.mpr fun block inside => ?_, fun block member => ?_⟩
  · exact ⟨block, (mem_scrambled block).mp inside, heard block inside⟩
  · have inside := (mem_scrambled block).mpr member
    exact ⟨_, List.mem_map_of_mem inside, heard block inside⟩

theorem scrambled_checked :
    (∀ block ∈ scrambled, block.postInit = block) ∧
      (∀ left ∈ finalizing ++ rival, ∀ right ∈ finalizing ++ rival,
        blockWireId left = blockWireId right → left.hash = right.hash) ∧
      (∀ earlier ∈ scrambledMsgs.inits, (listener.hear earlier).orphans.size ≤ 2) ∧
      (listener.hear (scrambledMsgs.take 2)).orphans.size = 2 ∧
      (listener.hear scrambledMsgs).service.tree.finalizedHeight = 1 := by
  decide +kernel

/-- Heard backwards, the finalizing branch waits, is drained, and finalizes. -/
theorem hear_loses_nothing_scrambled :
    (listener.hear (scrambledMsgs.take 2)).orphans.size = 2 ∧
      (listener.hear scrambledMsgs).service.tree.finalizedHeight = 1 ∧
      (listener.hear scrambledMsgs).service.tree.headHash =
        (start.deliver (finalizing ++ rival)).headHash := by
  obtain ⟨built, identified, room, waiting, finalized⟩ := scrambled_checked
  obtain ⟨carriesAll, complete⟩ := carries_scrambled built
  have initial : BlockTree.init args none = .ok start := by
    unfold start
    exact eq_ok_outcome _ initialised
  have fresh : Fresh args listener := ⟨initial, rfl, rfl⟩
  have distinguished : ∀ left ∈ blocks, ∀ right ∈ blocks,
      blockWireId left = blockWireId right → left.hash = right.hash := by
    intro left leftMember right rightMember
    exact identified left ((mem_blocks left).mp leftMember) right ((mem_blocks right).mp rightMember)
  have few : ∀ earlier, earlier <+: scrambledMsgs → (listener.hear earlier).orphans.size ≤ 2 :=
    fun earlier inside => room earlier ((List.mem_inits _ _).mpr inside)
  have shallow : ∀ earlier msg later, scrambledMsgs = earlier ++ msg :: later →
      ¬Overflows (listener.hear earlier) msg := by
    rintro earlier msg later split ⟨block, _, _, _, deep⟩
    have below : 100 < (listener.hear earlier).orphans.size := lt_size_of_nests deep
    have two := few earlier ⟨msg :: later, split.symm⟩
    omega
  have kept := fresh.hear_loses_nothing deliverable distinguished carriesAll complete
    (fun earlier inside => (few earlier inside).trans_lt (by decide)) shallow
  have parentsFirst : ParentsFirst args (finalizing ++ rival) := by
    decide +kernel
  have same := kept.2.2 start (finalizing ++ rival) initial
    (fun block => (mem_blocks block).symm) parentsFirst
  exact ⟨waiting, finalized, same.2.2.1⟩

end ForkSample

/-! ## A stack without room -/

namespace NestingSample

open P2PNode ForkSample

/-- An interpreter with room for one release, but for none inside it. -/
@[reducible] def narrow : Primitives := { Symbolic.primitives with nesting := 1 }

attribute [local instance] narrow

theorem branches_checked :
    (∀ path ∈ [finalizing, rival], succeeded (genesisChain.submitBlocks path) = true) ∧
      (∀ left ∈ finalizing ++ rival, ∀ right ∈ finalizing ++ rival,
        (left.hash = right.hash → left.unsealed = right.unsealed) ∧
          (blockWireId left = blockWireId right → left.hash = right.hash)) ∧
      (∀ block ∈ finalizing ++ rival, block.hash ≠ genesisHash args) ∧
      (∀ block ∈ scrambled, block.postInit = block) ∧
      genesisChain ∈ chains ∧
      (∀ chain ∈ chains, ∀ path ∈ [finalizing, rival], ∀ block ∈ path,
        staysIn chains chain block = true) ∧
      ∀ left ∈ chains, ∀ right ∈ chains,
        left.state.finalized.1 ∈ right.chain.map Block.hash ∨
          right.state.finalized.1 ∈ left.chain.map Block.hash := by
  decide +kernel

theorem run_checked :
    (∀ earlier ∈ scrambledMsgs.inits, (listener.hear earlier).orphans.size ≤ 2) ∧
      ((listener.hear (scrambledMsgs.take 2)).onMessage (scrambledMsgs.getD 2 [])).1 =
        .error .recursionError ∧
      (listener.hear scrambledMsgs).service.tree.finalizedHeight = 0 ∧
      (∀ block ∈ finalizing.drop 2,
        (listener.hear scrambledMsgs).service.tree.weight.contains block.hash = false) ∧
      ParentsFirst args (finalizing ++ rival) ∧
      (start.deliver (finalizing ++ rival)).finalizedHeight = 1 := by
  decide +kernel

theorem deliverable_narrow : Deliverable args blocks := by
  obtain ⟨replayed, apart, fresh, _, closed⟩ := branches_checked
  have initialised : ProofOfStakeChain.init args = .ok genesisChain := by
    unfold genesisChain
    exact eq_ok_outcome _ genesisBuilt
  refine deliverable_of_paths initialised mem_blocks_paths replayed closed ?_ ?_
  · intro left leftMember right rightMember
    exact (apart left ((mem_blocks left).mp leftMember) right ((mem_blocks right).mp rightMember)).1
  · exact fun block member => fresh block ((mem_blocks block).mp member)

/-- Three blocks of a branch, newest first: releasing the third one inside the release of the
second one raises, and the branch is never finalized. -/
theorem release_loses_a_block :
    Fresh args listener ∧ Deliverable args blocks ∧
      (∀ left ∈ blocks, ∀ right ∈ blocks,
        blockWireId left = blockWireId right → left.hash = right.hash) ∧
      (∀ msg ∈ scrambledMsgs, ∃ block ∈ blocks, Carries msg block) ∧
      (∀ block ∈ blocks, ∃ msg ∈ scrambledMsgs, Carries msg block) ∧
      (∀ earlier, earlier <+: scrambledMsgs →
        (listener.hear earlier).orphans.size < MAX_ORPHANS) ∧
      ((listener.hear (scrambledMsgs.take 2)).onMessage (scrambledMsgs.getD 2 [])).1 =
        .error .recursionError ∧
      (∀ block ∈ finalizing.drop 2, block ∈ blocks ∧
        (listener.hear scrambledMsgs).service.tree.weight.contains block.hash = false) ∧
      (∀ block, block ∈ finalizing ++ rival ↔ block ∈ blocks) ∧
      ParentsFirst args (finalizing ++ rival) ∧
      (listener.hear scrambledMsgs).service.tree.finalizedHeight = 0 ∧
      (start.deliver (finalizing ++ rival)).finalizedHeight = 1 := by
  obtain ⟨_, apart, _, built, _⟩ := branches_checked
  obtain ⟨few, raised, behind, lost, parentsFirst, ahead⟩ := run_checked
  obtain ⟨carriesAll, complete⟩ := carries_scrambled built
  have initial : BlockTree.init args none = .ok start := by
    unfold start
    exact eq_ok_outcome _ initialised
  refine ⟨⟨initial, rfl, rfl⟩, deliverable_narrow, ?_, carriesAll, complete, ?_, raised, ?_,
    fun block => (mem_blocks block).symm, parentsFirst, behind, ahead⟩
  · intro left leftMember right rightMember
    exact (apart left ((mem_blocks left).mp leftMember) right ((mem_blocks right).mp rightMember)).2
  · intro earlier inside
    exact (few earlier ((List.mem_inits _ _).mpr inside)).trans_lt (by decide)
  · intro block inside
    refine ⟨(mem_blocks block).mpr (List.mem_append_left _ (List.mem_of_mem_drop inside)), ?_⟩
    exact lost block inside

end NestingSample

end Mindees
