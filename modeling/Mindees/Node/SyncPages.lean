import Mathlib.Data.List.TakeWhile
import Mindees.ForkChoice.Adoption
import Mindees.Node.Sync

/-!
# Pages of blocks

The first answer of a peer, with the blocks that the node holds back behind it,
decides a whole sync.  If it starts at the lowest missing block and ends with the
head of the peer, or with a block that takes over the head of the node, the later
pages follow it; if it does neither, the second answer is the first one again.
-/

namespace Mindees

open Library ProofOfStakeChain

namespace P2PNode

variable [Primitives] {start node : P2PNode} {blocks done rest : List Block} {block next : Block}
  {hash : Str}

/-- What waits for a block of a chain, given the blocks after it: the next one, if the node has
heard of it. -/
def heldBack (node : P2PNode) : List Block → Option (List Json)
  | [] => none
  | next :: _ =>
      if node.seenBlock.contains (blockWireId next) then some [next.encodeBlock] else none

/-- The tree of the start was given some blocks, and of the later ones only the next one waits
for each. -/
structure Released (start : P2PNode) (done later : List Block) (node after : P2PNode) :
    Prop where
  tree : after.service.tree = start.service.tree.deliver done
  seenBlock : after.seenBlock = node.seenBlock
  waiting : ∀ earlier block last, later = earlier ++ block :: last →
    after.orphans.get? block.hash = start.heldBack last
  fewer : ∀ key, after.orphans.get? key = none ∨ after.orphans.get? key = node.orphans.get? key

/-- How a release ends: it hands over the blocks that the start had heard of, up to the first
one that it had not. -/
def Drained
    (start : P2PNode)
    (done rest : List Block)
    (node : P2PNode)
    (called : Except Error Unit × P2PNode) : Prop :=
  called.1 = .ok () ∧ ∃ more later, rest = more ++ later ∧
    (∀ block ∈ more, start.seenBlock.contains (blockWireId block) = true) ∧
    start.heldBack later = none ∧ Released start (done ++ more) later node called.2

/-- What a node is given and what the stack holds: the blocks of a chain, in their order. -/
structure Course (start : P2PNode) (blocks : List Block) : Prop where
  takes : start.service.tree.Takes blocks
  built : ∀ block ∈ blocks, block.postInit = block
  identified : ∀ left ∈ blocks, ∀ right ∈ blocks,
    blockWireId left = blockWireId right → left.hash = right.hash

namespace Course

/-- Different blocks of the chain have different hashes. -/
theorem hash_ne
    (course : Course start (done ++ next :: rest))
    (inside : block ∈ rest) :
    next.hash ≠ block.hash := by
  intro same
  have distinct := course.takes.distinct
  rw [List.map_append, List.map_cons] at distinct
  have here := (List.nodup_cons.mp distinct.of_append_right).1
  exact here (same ▸ List.mem_map_of_mem inside)

/-- Handing over the next block. -/
theorem receives
    (node : P2PNode)
    (course : Course start (done ++ next :: rest))
    (tree : node.service.tree = start.service.tree.deliver done)
    (new : start.service.tree.weight.contains next.hash = false) :
    ∃ receipt after, node.receiveBlock next.encodeBlock = (.ok receipt, after) ∧
      receipt.accepted = true ∧ after.service.tree = start.service.tree.deliver (done ++ [next]) ∧
      after.orphans = node.orphans ∧ after.seenBlock = node.seenBlock := by
  have split : done ++ next :: rest = (done ++ [next]) ++ rest := by simp
  have takes := course.takes
  rw [split] at takes
  have accepted := course.takes.accepts (takes.initial.unknown_last new)
  have decoded : decodeBlock next.encodeBlock = .ok next := by
    rw [decodeBlock_encodeBlock, course.built next (by simp)]
  have receipt := receiveBlock_fst node decoded
  have grown := tree_receiveBlock node decoded
  have orphans : (node.receiveBlock next.encodeBlock).2.orphans = node.orphans := rfl
  have seen : (node.receiveBlock next.encodeBlock).2.seenBlock = node.seenBlock := rfl
  rw [tree] at receipt grown
  rw [accepted] at receipt
  generalize node.receiveBlock next.encodeBlock = outcome at receipt grown orphans seen
  obtain ⟨result, after⟩ := outcome
  cases result with
  | error error => cases receipt
  | ok answer =>
      refine ⟨answer, after, rfl, Except.ok.inj receipt, ?_, orphans, seen⟩
      rw [BlockTree.deliver_append]
      exact grown

/-- Where the next block was not heard of, nothing waits. -/
theorem drains_nothing
    {fuel : Nat}
    (tree : node.service.tree = start.service.tree.deliver done)
    (waits : node.orphans.get? hash = start.heldBack rest)
    (waiting : ∀ earlier block last, rest = earlier ++ block :: last →
      node.orphans.get? block.hash = start.heldBack last)
    (nothing : start.heldBack rest = none) :
    Drained start done rest node (drainOrphans fuel node hash) := by
  have same : drainOrphans fuel node hash = (.ok (), node) := by
    unfold drainOrphans
    simp only [waits, nothing]
  rw [same]
  refine ⟨rfl, [], rest, rfl, fun _ inside => absurd inside List.not_mem_nil, nothing, ?_⟩
  rw [List.append_nil]
  exact ⟨tree, rfl, waiting, fun _ => .inr rfl⟩

/-- A release hands over the blocks that the node has heard of, up to the first one that it has
not. -/
theorem drains
    {fuel : Nat}
    (course : Course start (done ++ rest))
    (tree : node.service.tree = start.service.tree.deliver done)
    (new : ∀ block ∈ rest, start.service.tree.weight.contains block.hash = false)
    (waits : node.orphans.get? hash = start.heldBack rest)
    (waiting : ∀ earlier block last, rest = earlier ++ block :: last →
      node.orphans.get? block.hash = start.heldBack last)
    (apart : ∀ block ∈ rest, hash ≠ block.hash)
    (shallow : nests fuel node.orphans hash = false) :
    Drained start done rest node (drainOrphans fuel node hash) := by
  induction fuel generalizing node done rest hash with
  | zero =>
      refine drains_nothing tree waits waiting ?_
      rw [nests, Dict.contains, Option.isSome_eq_false_iff, Option.isNone_iff_eq_none] at shallow
      rw [← waits, shallow]
  | succ fuel inductionHypothesis =>
      cases rest with
      | nil => exact drains_nothing tree waits waiting rfl
      | cons next rest =>
          cases heard : start.seenBlock.contains (blockWireId next) with
          | false => exact drains_nothing tree waits waiting (by simp [heldBack, heard])
          | true =>
              have held : start.heldBack (next :: rest) = some [next.encodeBlock] := by
                simp [heldBack, heard]
              obtain ⟨newNext, newRest⟩ := List.forall_mem_cons.mp new
              obtain ⟨apartNext, apartRest⟩ := List.forall_mem_cons.mp apart
              have decoded : decodeBlock next.encodeBlock = .ok next := by
                rw [decodeBlock_encodeBlock, course.built next (by simp)]
              obtain ⟨receipt, after, received, accepted, grown, orphans, seen⟩ :=
                receives { node with orphans := node.orphans.erase hash } course tree newNext
              have split : done ++ next :: rest = (done ++ [next]) ++ rest := by simp
              have sameWaits : ∀ block ∈ next :: rest,
                  after.orphans.get? block.hash = node.orphans.get? block.hash := by
                intro block inside
                rw [orphans, Dict.get?_erase, if_neg (apart block inside)]
              have shallowNext : nests fuel after.orphans next.hash = false := by
                rw [← Bool.not_eq_true] at shallow ⊢
                rw [orphans]
                intro deep
                refine shallow (nests_succ.mpr ⟨next.encodeBlock, ?_, next, decoded, deep⟩)
                rw [Dict.getD, waits, held]
                exact List.mem_singleton_self _
              obtain ⟨returned, more, later, rfl, heardMore, nothing, released⟩ :=
                @inductionHypothesis after (done ++ [next]) rest next.hash (by rwa [← split]) grown
                  newRest
                  (by rw [sameWaits next (by simp), waiting [] next rest rfl])
                  (fun earlier block last inner => by
                    rw [sameWaits block (by rw [inner]; simp),
                      waiting (next :: earlier) block last (by rw [inner]; rfl)])
                  (fun _ inside => course.hash_ne inside) shallowNext
              have run : drainOrphans (fuel + 1) node hash =
                  (.ok (), (drainOrphans fuel after next.hash).2) := by
                rw [drainOrphans]
                simp only [waits, held, drainLoop, decoded]
                rw [received]
                simp only [accepted, if_true]
                generalize drainOrphans fuel after next.hash = outcome at returned
                obtain ⟨result, last⟩ := outcome
                obtain rfl : result = .ok () := returned
                rfl
              rw [run]
              refine ⟨rfl, next :: more, later, rfl, List.forall_mem_cons.mpr ⟨heard, heardMore⟩,
                nothing, ?_⟩
              refine ⟨by simpa using released.tree, released.seenBlock.trans seen,
                released.waiting, fun key => ?_⟩
              rcases released.fewer key with gone | same
              · exact .inl gone
              · rw [same, orphans, Dict.get?_erase]
                split_ifs
                · exact .inl rfl
                · exact .inr rfl

end Course

/-! ## Messages with blocks of the chain -/

/-- The tree of the start was given the first blocks of a chain; of the others the node has
heard what the start had, they wait as they did, and the next one was not heard of. -/
structure Stands (start : P2PNode) (done rest : List Block) (node : P2PNode) : Prop where
  tree : node.service.tree = start.service.tree.deliver done
  heard : ∀ block ∈ rest, node.seenBlock.contains (blockWireId block) = true ↔
    start.seenBlock.contains (blockWireId block) = true
  waiting : ∀ earlier block last, rest = earlier ++ block :: last →
    node.orphans.get? block.hash = start.heldBack last
  shallow : ∀ block ∈ rest, nests Primitives.nesting node.orphans block.hash = false
  next : start.heldBack rest = none

/-- Heard identifiers stay, and the one of another block is none of theirs. -/
theorem heard_remember
    {seen : Dict Str Unit}
    (room : seen.size < SEEN_CAP)
    (apart : blockWireId next ≠ blockWireId block) :
    (remember seen (blockWireId next)).2.contains (blockWireId block) = true ↔
      seen.contains (blockWireId block) = true := by
  rw [contains_remember room]
  exact or_iff_left apart

/-- A block that the tree has leaves the node as it is. -/
theorem applyOrBuffer_known
    (node : P2PNode)
    {data : Json}
    (decoded : decodeBlock data = .ok block)
    (known : node.service.tree.weight.contains block.hash = true)
    (parent : node.service.tree.weight.contains block.previousHash = true) :
    (node.applyOrBuffer block data).2.service.tree = node.service.tree ∧
      (node.applyOrBuffer block data).2.orphans = node.orphans ∧
      (node.applyOrBuffer block data).2.seenBlock = node.seenBlock := by
  have unchanged : node.service.tree.addBlock block = (.ok false, node.service.tree) := by
    rw [BlockTree.addBlock, if_pos known]
  have receipt := receiveBlock_fst node decoded
  have tree := tree_receiveBlock node decoded
  have orphans : (node.receiveBlock data).2.orphans = node.orphans := rfl
  have seen : (node.receiveBlock data).2.seenBlock = node.seenBlock := rfl
  rw [unchanged] at receipt tree
  unfold applyOrBuffer
  rw [if_neg (by rw [parent]; exact Bool.false_ne_true.symm)]
  generalize node.receiveBlock data = outcome at receipt tree orphans seen ⊢
  obtain ⟨result, after⟩ := outcome
  cases result with
  | error error => cases receipt
  | ok answer =>
      have refused : answer.accepted = false := Except.ok.inj receipt
      simp only [refused, Bool.false_eq_true, if_false]
      exact ⟨tree, orphans, seen⟩

namespace Course

/-- Different blocks of the chain have different identifiers. -/
theorem blockWireId_ne
    (course : Course start (done ++ next :: rest))
    (inside : block ∈ rest) :
    blockWireId next ≠ blockWireId block := by
  intro same
  exact course.hash_ne inside (course.identified next (by simp) block (by simp [inside]) same)

/-- A message with a block that the tree was given changes nothing that matters. -/
theorem hears_done
    (course : Course start (done ++ rest))
    (stands : Stands start done rest node)
    (room : node.seenBlock.size < SEEN_CAP)
    (inside : block ∈ done) :
    Stands start done rest (node.hearBlocks [block]) := by
  obtain ⟨first, last, rfl⟩ := List.append_of_mem inside
  have split : first ++ block :: last ++ rest = first ++ block :: (last ++ rest) := by simp
  have decoded := carries (course.built block (by simp))
  have apart : ∀ other ∈ rest, blockWireId block ≠ blockWireId other := by
    rw [split] at course
    exact fun other later => course.blockWireId_ne (List.mem_append_right _ later)
  have takes := course.takes.initial
  have known : node.service.tree.weight.contains block.hash = true := by
    rw [stands.tree]
    exact takes.known block inside
  have parent : node.service.tree.weight.contains block.previousHash = true := by
    rw [stands.tree, BlockTree.deliver_append]
    exact (takes.invariant.deliver first).keeps_deliver takes.parent_known
  rw [hearBlocks_singleton, onMessage_block node (isBlock_blockMessage _) decoded]
  split_ifs with seen
  · exact stands
  · obtain ⟨tree, orphans, cache⟩ := applyOrBuffer_known
      { node with seenBlock := (remember node.seenBlock (blockWireId block)).2 } decoded known
      parent
    refine ⟨tree.trans stands.tree, fun other later => ?_, fun earlier other final part => ?_,
      fun other later => ?_, stands.next⟩
    · rw [cache, heard_remember room (apart other later)]
      exact stands.heard other later
    · rw [orphans]
      exact stands.waiting earlier other final part
    · rw [orphans]
      exact stands.shallow other later

/-- A message with the next block hands it over, and after it those that were heard before. -/
theorem hears_next
    (course : Course start (done ++ next :: rest))
    (new : ∀ block ∈ next :: rest, start.service.tree.weight.contains block.hash = false)
    (stands : Stands start done (next :: rest) node)
    (room : node.seenBlock.size < SEEN_CAP) :
    ∃ more later, rest = more ++ later ∧
      (∀ block ∈ more, start.seenBlock.contains (blockWireId block) = true) ∧
      Stands start (done ++ next :: more) later (node.hearBlocks [next]) := by
  have split : done ++ next :: rest = (done ++ [next]) ++ rest := by simp
  have decoded := carries (course.built next (by simp))
  obtain ⟨newNext, newRest⟩ := List.forall_mem_cons.mp new
  have unheard : node.seenBlock.contains (blockWireId next) = false := by
    by_contra heard
    have before := (stands.heard next (by simp)).mp (Bool.not_eq_false _ ▸ heard)
    have settled := stands.next
    rw [heldBack, if_pos before] at settled
    cases settled
  have parent : node.service.tree.weight.contains next.previousHash = true := by
    rw [stands.tree]
    exact course.takes.parent_known
  obtain ⟨receipt, after, received, accepted, tree, orphans, cache⟩ := receives
    { node with seenBlock := (remember node.seenBlock (blockWireId next)).2 } course stands.tree
    newNext
  have shallow : nests Primitives.nesting after.orphans next.hash = false := by
    rw [orphans]
    exact stands.shallow next (by simp)
  obtain ⟨_, more, later, rfl, heardMore, nothing, released⟩ := drains (split ▸ course) tree
    newRest (by rw [orphans]; exact stands.waiting [] next _ rfl)
    (fun earlier block last part => by
      rw [orphans]
      exact stands.waiting (next :: earlier) block last (by rw [part]; rfl))
    (fun _ inside => course.hash_ne inside) shallow
  have run : node.hearBlocks [next] = (drainOrphans Primitives.nesting after next.hash).2 := by
    rw [hearBlocks_singleton, onMessage_block node (isBlock_blockMessage _) decoded,
      if_neg (by rw [unheard]; exact Bool.false_ne_true), applyOrBuffer,
      if_neg (by rw [parent]; exact Bool.false_ne_true.symm), carried_blockMessage, received]
    simp only [accepted, if_true]
  rw [run]
  refine ⟨more, later, rfl, heardMore, by simpa using released.tree, fun block inside => ?_,
    released.waiting, fun block inside => ?_, nothing⟩
  · rw [released.seenBlock, cache,
      heard_remember room (course.blockWireId_ne (List.mem_append_right _ inside))]
    exact stands.heard block (by simp [inside])
  · have before := stands.shallow block (by simp [inside])
    rw [← Bool.not_eq_true] at before ⊢
    refine fun deep => before (nests_mono (fun key => ?_) deep)
    have fewer := released.fewer key
    rwa [orphans] at fewer

/-- Messages with consecutive blocks of the chain, from one that the tree has or the next one on:
the tree has them all afterwards, and behind them only blocks that were heard of before. -/
theorem hears
    {low page high : List Block}
    (course : Course start (done ++ rest))
    (new : ∀ block ∈ rest, start.service.tree.weight.contains block.hash = false)
    (stands : Stands start done rest node)
    (split : done ++ rest = low ++ page ++ high)
    (reach : low.length ≤ done.length)
    (room : ∀ earlier, earlier <+: page → (node.hearBlocks earlier).seenBlock.size < SEEN_CAP) :
    ∃ more later, rest = more ++ later ∧ Stands start (done ++ more) later (node.hearBlocks page) ∧
      (low ++ page).length ≤ (done ++ more).length ∧
      ∀ position block, (done ++ more)[position]? = some block → done.length ≤ position →
        (low ++ page).length ≤ position →
        start.seenBlock.contains (blockWireId block) = true := by
  induction page generalizing node done rest low with
  | nil =>
      rw [List.append_nil]
      refine ⟨[], rest, rfl, ?_, by simpa using reach, ?_⟩
      · rw [List.append_nil]
        exact stands
      intro position block here beyond _
      rw [List.append_nil, List.getElem?_eq_none beyond] at here
      cases here
  | cons block page inductionHypothesis =>
      have roomNow := room [] List.nil_prefix
      have roomLater : ∀ earlier, earlier <+: page →
          ((node.hearBlocks [block]).hearBlocks earlier).seenBlock.size < SEEN_CAP := by
        intro earlier part
        rw [← hearBlocks_append]
        exact room _ (List.prefix_append_right_inj [block] |>.mpr part)
      have splitNext : done ++ rest = (low ++ [block]) ++ page ++ high := by
        rw [split]
        simp
      have unfold_hear : node.hearBlocks (block :: page) =
          (node.hearBlocks [block]).hearBlocks page := by
        rw [← hearBlocks_append]
        rfl
      have length : low ++ block :: page = (low ++ [block]) ++ page := by simp
      have here : (done ++ rest)[low.length]? = some block := by
        rw [split]
        simp
      rw [unfold_hear, length]
      rcases Nat.lt_or_eq_of_le reach with before | level
      · have inside : block ∈ done := by
          rw [List.getElem?_append_left before] at here
          exact List.mem_of_getElem? here
        exact inductionHypothesis course new (course.hears_done stands roomNow inside) splitNext
          (by rw [List.length_append]; exact before) roomLater
      · obtain ⟨rfl, rfl⟩ : low = done ∧ block :: (page ++ high) = rest := by
          rw [List.append_assoc] at split
          obtain ⟨same, others⟩ := List.append_inj split.symm level
          exact ⟨same, others⟩
        obtain ⟨first, later, parted, heard, standsNext⟩ :=
          course.hears_next new stands roomNow
        have grown : low ++ block :: (page ++ high) = (low ++ block :: first) ++ later := by
          rw [parted]
          simp
        have newLater : ∀ other ∈ later,
            start.service.tree.weight.contains other.hash = false := by
          intro other inside
          refine new other ?_
          rw [parted]
          exact List.mem_cons_of_mem _ (List.mem_append_right _ inside)
        obtain ⟨more, last, rfl, standsLast, reached, beyond⟩ :=
          @inductionHypothesis _ _ _ (low ++ [block]) (grown ▸ course) newLater standsNext
            (by rw [← grown]; exact splitNext) (by simp) roomLater
        refine ⟨block :: first ++ more, last, ?_, ?_, ?_, ?_⟩
        · rw [parted]
          simp
        · rw [← List.append_assoc]
          exact standsLast
        · rw [← List.append_assoc]
          exact reached
        · intro position other found ahead covered
          rw [← List.append_assoc] at found
          by_cases fresh : position < (low ++ block :: first).length
          · rw [List.getElem?_append_left fresh, List.getElem?_append_right ahead] at found
            have past : 0 < position - low.length := by
              simp at covered
              omega
            obtain ⟨offset, at_offset⟩ := Nat.exists_eq_add_of_lt past
            rw [at_offset] at found
            exact heard other (List.mem_of_getElem? (by simpa using found))
          · exact beyond position other found (not_lt.mp fresh) covered

end Course

/-! ## Rounds -/

section

variable {args : GenesisArgs} {checkpoint peerCheckpoint : Option Checkpoint} {peer : P2PNode}

omit [Primitives] in
/-- Blocks that stand at their index: those above a height follow the first ones. -/
theorem filter_above
    {blocks : List Block}
    {first : Nat}
    (indexed : ∀ position block, blocks[position]? = some block →
      block.index = ((first + position : Nat) : Int))
    (height : Nat) :
    blocks.filter (fun block => (height : Int) < block.index) =
      blocks.drop (height + 1 - first) := by
  induction blocks generalizing first with
  | nil => simp
  | cons block rest inductionHypothesis =>
      have here : block.index = (first : Int) := indexed 0 block rfl
      have later := @inductionHypothesis (first + 1) fun position other there => by
        rw [indexed (position + 1) other there]
        push_cast
        ring
      by_cases above : height < first
      · have next : height + 1 - (first + 1) = 0 := by omega
        have none : height + 1 - first = 0 := by omega
        rw [List.filter_cons_of_pos (by simpa [here] using above), later, next, none]
        rfl
      · have next : height + 1 - first = height + 1 - (first + 1) + 1 := by omega
        rw [List.filter_cons_of_neg (by simpa [here] using above), later, next, List.drop_succ_cons]

/-- An answer is a page of the chain above genesis. -/
theorem serveBlocks_eq
    (peerReachable : BlockTree.Reachable args peerCheckpoint peer.service.tree)
    (height : Nat) :
    peer.serveBlocks height = (peer.service.chain.chain.tail.drop height).take MAX_SYNC_BATCH := by
  obtain ⟨_, head⟩ := peerReachable.invariant.head
  have indexed : ∀ position block, peer.service.chain.chain[position]? = some block →
      block.index = ((0 + position : Nat) : Int) := by
    intro position block here
    rw [Nat.zero_add]
    exact head.reachable.index_eq here
  rw [serveBlocks, filter_above indexed, List.drop_tail]
  rfl

/-- The blocks that a node waits to hear: above its head the first page, and behind it those that
it has heard of. -/
def firstPage (peer start : P2PNode) : List Block :=
  let above := peer.service.chain.chain.filter fun block => start.requestSync < block.index
  above.take MAX_SYNC_BATCH ++
    (above.drop MAX_SYNC_BATCH).takeWhile fun block =>
      start.seenBlock.contains (blockWireId block)

/-- What the node lacks of the chain of the peer it has not heard of, or it waits alone for its
parent; the lowest such block is new, and the stack holds the releases. -/
structure Orderly (peer start : P2PNode) : Prop where
  lowest : ∀ block ∈ peer.service.chain.chain,
    start.service.tree.weight.contains block.hash = false →
    start.service.tree.weight.contains block.previousHash = true →
    start.seenBlock.contains (blockWireId block) = false
  waiting : ∀ earlier block later, peer.service.chain.chain = earlier ++ block :: later →
    start.service.tree.weight.contains block.hash = false →
    start.orphans.get? block.hash = start.heldBack later
  shallow : ∀ block ∈ peer.service.chain.chain,
    start.service.tree.weight.contains block.hash = false →
    nests Primitives.nesting start.orphans block.hash = false

/-- A block of the peer has more weight than the head of the node, or as much and a smaller
hash. -/
def Overtakes (peer start : P2PNode) (block : Block) : Prop :=
  start.service.tree.weight.getD start.service.tree.headHash 0 <
      peer.service.tree.weight.getD block.hash 0 ∨
    (start.service.tree.weight.getD start.service.tree.headHash 0 =
        peer.service.tree.weight.getD block.hash 0 ∧
      block.hash < start.service.tree.headHash)

/-- The first page has the lowest block that the node lacks, and it ends with the head of the
peer or with a block that overtakes the head of the node. -/
structure InReach (peer start : P2PNode) : Prop where
  begins : ∃ block ∈ peer.serveBlocks start.requestSync,
    start.service.tree.weight.contains block.hash = false ∧
    start.service.tree.weight.contains block.previousHash = true
  climbs : ∀ block, (peer.firstPage start).getLast? = some block →
    block = peer.service.chain.head ∨ Overtakes peer start block

/-- The first page finalizes nothing that the head of the node does not descend from. -/
def KeepsHead (peer start : P2PNode) : Prop :=
  (start.service.tree.deliver (peer.firstPage start)).Candidate start.service.tree.headHash

/-- The exchanges come to rest, and the node has the canonical chain of the peer then. -/
def Reaches (peer start : P2PNode) : Prop :=
  ∃ count, peer.syncRound (peer.syncRounds start count) = peer.syncRounds start count ∧
    HasChainOf (peer.syncRounds start count) peer

/-- A page with a block that is new to a tree and has a known parent starts below the first block
that the tree lacks and reaches it. -/
theorem lowest_served
    {tree other : BlockTree}
    {height : Nat}
    (takes : tree.Takes (done ++ rest))
    (known : ∀ block ∈ done, other.weight.contains block.hash = true)
    (unknown : ∀ block ∈ rest, other.weight.contains block.hash = false)
    (served : block ∈ ((done ++ rest).drop height).take MAX_SYNC_BATCH)
    (new : other.weight.contains block.hash = false)
    (parent : other.weight.contains block.previousHash = true) :
    height ≤ done.length ∧ done.length < height + MAX_SYNC_BATCH ∧ rest ≠ [] := by
  obtain ⟨offset, here⟩ := List.mem_iff_getElem?.mp served
  rw [List.getElem?_take] at here
  split_ifs at here with within
  rw [List.getElem?_drop] at here
  have above : done.length ≤ height + offset := by
    by_contra below
    rw [List.getElem?_append_left (not_le.mp below)] at here
    rw [known block (List.mem_of_getElem? here)] at new
    cases new
  have inside : block ∈ rest := by
    rw [List.getElem?_append_right above] at here
    exact List.mem_of_getElem? here
  have level : height + offset = done.length := by
    by_contra apart
    obtain ⟨before, next⟩ := Nat.exists_eq_add_of_lt (lt_of_le_of_ne above (Ne.symm apart))
    have position : done.length + before + 1 - done.length = before + 1 := by omega
    rw [next, List.getElem?_append_right (by omega), position] at here
    obtain ⟨within, rfl⟩ := List.getElem?_eq_some_iff.mp here
    have split : done ++ rest = (done ++ rest.take before) ++ rest[before] :: rest[before + 1] ::
        rest.drop (before + 2) := by
      rw [List.append_assoc, ← List.drop_eq_getElem_cons within, ← List.drop_eq_getElem_cons,
        List.take_append_drop]
    rw [split] at takes
    rw [takes.previous, unknown _ (List.getElem_mem _)] at parent
    cases parent
  refine ⟨by omega, by omega, List.ne_nil_of_mem inside⟩

namespace Syncs

variable (syncs : Syncs args checkpoint peerCheckpoint peer start)

include syncs

/-- The chain of the peer above genesis is a course for the node. -/
theorem course : Course start peer.service.chain.chain.tail := by
  obtain ⟨_, head⟩ := syncs.peerReachable.invariant.head
  obtain ⟨first, initialised, replayed⟩ := head.reachable.replay
  rw [syncs.peerReachable.args_eq, ← syncs.reachable.args_eq] at initialised
  refine ⟨⟨syncs.reachable.invariant, ⟨first, _, initialised, replayed⟩, syncs.undisturbed.apart,
    ?_, syncs.undisturbed.unrefused⟩, fun block inside => ?_, fun left leftIn right rightIn => ?_⟩
  · rw [List.map_tail]
    exact syncs.peerReachable.invariant.nodup_hashes.sublist (List.tail_sublist _)
  · exact postInit_of_mem_chain syncs.peerReachable (List.mem_of_mem_tail inside)
  · exact syncs.undisturbed.identified left (List.mem_of_mem_tail leftIn) right
      (List.mem_of_mem_tail rightIn)

/-- A node whose tree was given the whole chain has it. -/
theorem hasChainOf
    (stands : Stands start peer.service.chain.chain.tail [] node) :
    HasChainOf node peer := by
  have invariant := syncs.reachable.invariant
  obtain ⟨_, head⟩ := syncs.peerReachable.invariant.head
  obtain ⟨first, rest, blocks, hashed⟩ := head.reachable.first_hash
  have chain : peer.service.chain.chain = first :: rest := blocks
  intro block inside
  rw [stands.tree]
  rw [chain] at inside
  rcases List.mem_cons.mp inside with rfl | later
  · apply invariant.keeps_deliver
    rw [hashed, syncs.peerReachable.args_eq, ← syncs.reachable.args_eq,
      ← invariant.store.genesisHash_eq]
    exact invariant.store.genesis_known
  · exact syncs.course.takes.known block (by rw [chain]; exact later)

/-- At the start the tree has the first blocks of the chain and none of the others. -/
theorem stands_start
    (orderly : Orderly peer start) :
    ∃ done rest, peer.service.chain.chain.tail = done ++ rest ∧
      (∀ block ∈ done, start.service.tree.weight.contains block.hash = true) ∧
      (∀ block ∈ rest, start.service.tree.weight.contains block.hash = false) ∧
      Stands start done rest start := by
  set known := fun block : Block => start.service.tree.weight.contains block.hash
  have split : peer.service.chain.chain.tail =
      peer.service.chain.chain.tail.takeWhile known ++
        peer.service.chain.chain.tail.dropWhile known := List.takeWhile_append_dropWhile.symm
  have course := syncs.course
  have doneKnown : ∀ block ∈ peer.service.chain.chain.tail.takeWhile known,
      start.service.tree.weight.contains block.hash = true :=
    fun block inside => List.mem_takeWhile_imp (p := known) inside
  have restHead : ∀ first later, peer.service.chain.chain.tail.dropWhile known = first :: later →
      start.service.tree.weight.contains first.hash = false := by
    intro first later here
    have fails := List.head?_dropWhile_not known peer.service.chain.chain.tail
    rw [here, List.head?_cons] at fails
    exact fails
  generalize peer.service.chain.chain.tail.takeWhile known = done at split doneKnown
  generalize peer.service.chain.chain.tail.dropWhile known = rest at split restHead
  rw [split] at course
  have restNew : ∀ block ∈ rest, start.service.tree.weight.contains block.hash = false := by
    cases rest with
    | nil => exact fun block inside => absurd inside List.not_mem_nil
    | cons first later =>
        have unknown := restHead first later rfl
        refine List.forall_mem_cons.mpr ⟨unknown, fun block inside => ?_⟩
        obtain ⟨before, after, rfl⟩ := List.append_of_mem inside
        by_contra present
        have whole : done ++ first :: (before ++ block :: after) =
            ((done ++ first :: before) ++ [block]) ++ after := by simp
        have takes := course.takes
        rw [whole] at takes
        have below := takes.initial.known_below (Bool.not_eq_false _ ▸ present) first
          (by simp)
        rw [unknown] at below
        cases below
  have genesis : ∃ first, peer.service.chain.chain = first :: (done ++ rest) := by
    rw [← split]
    exact ⟨_, (List.cons_head_tail peer.service.chain.nonempty).symm⟩
  obtain ⟨first, chain⟩ := genesis
  have member : ∀ block ∈ rest, block ∈ peer.service.chain.chain := by
    intro block inside
    rw [chain]
    exact List.mem_cons_of_mem _ (List.mem_append_right _ inside)
  refine ⟨done, rest, split, doneKnown, restNew, ?_, fun _ _ => Iff.rfl, ?_, ?_, ?_⟩
  · exact (BlockTree.deliver_known doneKnown).symm
  · rintro earlier block last rfl
    refine orderly.waiting (first :: (done ++ earlier)) block last ?_ (restNew block (by simp))
    rw [chain]
    simp
  · exact fun block inside => orderly.shallow block (member block inside) (restNew block inside)
  · cases rest with
    | nil => rfl
    | cons next later =>
        have parent := course.takes.parent_known
        rw [BlockTree.deliver_known doneKnown] at parent
        rw [heldBack, if_neg]
        rw [orderly.lowest next (member next (by simp)) (restNew next (by simp)) parent]
        exact Bool.false_ne_true

/-- What one exchange does. -/
theorem round
    {count height : Nat}
    (split : peer.service.chain.chain.tail = done ++ rest)
    (new : ∀ block ∈ rest, start.service.tree.weight.contains block.hash = false)
    (stands : Stands start done rest (peer.syncRounds start count))
    (asked : (peer.syncRounds start count).requestSync = height)
    (reach : height ≤ done.length) :
    ∃ more later, rest = more ++ later ∧
      Stands start (done ++ more) later (peer.syncRounds start (count + 1)) ∧
      (peer.service.chain.chain.tail.take (height + MAX_SYNC_BATCH)).length ≤
        (done ++ more).length ∧
      ∀ position block, (done ++ more)[position]? = some block → done.length ≤ position →
        (peer.service.chain.chain.tail.take (height + MAX_SYNC_BATCH)).length ≤ position →
        start.seenBlock.contains (blockWireId block) = true := by
  have served := serveBlocks_eq syncs.peerReachable height
  have course := syncs.course
  rw [syncRounds_succ, syncRound, asked, served, List.take_add]
  rw [split] at course served ⊢
  have parts : done ++ rest = (done ++ rest).take height ++
      ((done ++ rest).drop height).take MAX_SYNC_BATCH ++
        (done ++ rest).drop (height + MAX_SYNC_BATCH) := by
    rw [← List.take_add, List.take_append_drop]
  refine course.hears new stands parts ?_ ?_
  · exact (List.length_take_le _ _).trans reach
  · intro earlier part
    refine syncs.undisturbed.room _ ⟨count, earlier, ?_, rfl⟩
    rwa [asked, served]

/-- Once the head is on the chain, page after page follows. -/
theorem exists_of_tip
    {count : Nat}
    {below : List Block}
    {tip : Block}
    (split : peer.service.chain.chain.tail = below ++ [tip] ++ rest)
    (new : ∀ block ∈ rest, start.service.tree.weight.contains block.hash = false)
    (stands : Stands start (below ++ [tip]) rest (peer.syncRounds start count))
    (head : (start.service.tree.deliver (below ++ [tip])).headHash = tip.hash) :
    ∃ last, HasChainOf (peer.syncRounds start last) peer := by
  induction length : rest.length using Nat.strong_induction_on
    generalizing count below tip rest with
  | _ size inductionHypothesis =>
      have takes := syncs.course.takes
      rw [split] at takes
      have asked : (peer.syncRounds start count).requestSync = (below.length + 1 : Nat) := by
        rw [requestSync, NodeService.chain, stands.tree]
        exact takes.initial.head_index head
      obtain ⟨more, later, rfl, standsNext, reached, _⟩ :=
        syncs.round split new stands asked (by simp)
      cases more with
      | nil =>
          cases later with
          | nil =>
              refine ⟨count, syncs.hasChainOf ?_⟩
              rw [split]
              simpa using stands
          | cons next later =>
              exfalso
              rw [split] at reached
              simp [MAX_SYNC_BATCH] at reached
      | cons next more =>
          have newLater : ∀ block ∈ later,
              start.service.tree.weight.contains block.hash = false :=
            fun block inside => new block (List.mem_append_right _ inside)
          have newMore : ∀ block ∈ next :: more,
              start.service.tree.weight.contains block.hash = false :=
            fun block inside => new block (List.mem_append_left _ inside)
          have joined : below ++ [tip] ++ next :: more = below ++ tip :: next :: more := by simp
          rw [← List.append_assoc, joined] at takes
          obtain ⟨lower, top, same, moved⟩ := takes.initial.head_moves newMore head
          rw [joined, same] at standsNext
          refine inductionHypothesis later.length ?_ ?_ newLater standsNext moved rfl
          · rw [← length, List.length_append, List.length_cons]
            omega
          · rw [split, ← same]
            simp

/-- The first page and what lies below it. -/
theorem firstPage_eq
    {height : Nat}
    {later : List Block}
    (split : peer.service.chain.chain.tail = done ++ later)
    (asked : start.requestSync = height)
    (reached : (peer.service.chain.chain.tail.take (height + MAX_SYNC_BATCH)).length ≤ done.length)
    (heard : ∀ position block, done[position]? = some block →
      height + MAX_SYNC_BATCH ≤ position → start.seenBlock.contains (blockWireId block) = true)
    (nothing : start.heldBack later = none) :
    peer.service.chain.chain.tail.take height ++ peer.firstPage start = done := by
  obtain ⟨_, head⟩ := syncs.peerReachable.invariant.head
  have indexed : ∀ position block, peer.service.chain.chain[position]? = some block →
      block.index = ((0 + position : Nat) : Int) := by
    intro position block here
    rw [Nat.zero_add]
    exact head.reachable.index_eq here
  have above : peer.service.chain.chain.filter (fun block => start.requestSync < block.index) =
      peer.service.chain.chain.tail.drop height := by
    rw [asked, filter_above indexed, List.drop_tail]
    rfl
  have cut : peer.service.chain.chain.tail.drop (height + MAX_SYNC_BATCH) =
        done.drop (height + MAX_SYNC_BATCH) ++ later ∧
      peer.service.chain.chain.tail.take (height + MAX_SYNC_BATCH) =
        done.take (height + MAX_SYNC_BATCH) := by
    rw [List.length_take] at reached
    rw [split, List.length_append] at reached
    rw [split]
    rcases le_or_gt (height + MAX_SYNC_BATCH) done.length with long | short
    · exact ⟨List.drop_append_of_le_length long, List.take_append_of_le_length long⟩
    · obtain rfl : later = [] := List.eq_nil_of_length_eq_zero (by omega)
      rw [List.append_nil, List.append_nil]
      exact ⟨rfl, rfl⟩
  have behind :
      later.takeWhile (fun block => start.seenBlock.contains (blockWireId block)) = [] := by
    cases later with
    | nil => rfl
    | cons next later =>
        refine List.takeWhile_cons_of_neg fun known => ?_
        rw [heldBack, if_pos known] at nothing
        cases nothing
  have held : (done.drop (height + MAX_SYNC_BATCH) ++ later).takeWhile
      (fun block => start.seenBlock.contains (blockWireId block)) =
        done.drop (height + MAX_SYNC_BATCH) := by
    rw [List.takeWhile_append_of_pos, behind, List.append_nil]
    intro block inside
    obtain ⟨offset, here⟩ := List.mem_iff_getElem?.mp inside
    rw [List.getElem?_drop] at here
    exact heard _ block here (Nat.le_add_right _ _)
  rw [firstPage, above, List.drop_drop, cut.1, held, ← List.append_assoc, ← List.take_add, cut.2,
    List.take_append_drop]

/-- The first exchange, if the answer has the lowest block that the node lacks: the tree is given
the first page, and its last block is new. -/
theorem first_round
    (orderly : Orderly peer start)
    (begins : ∃ block ∈ peer.serveBlocks start.requestSync,
      start.service.tree.weight.contains block.hash = false ∧
      start.service.tree.weight.contains block.previousHash = true) :
    ∃ below tip later, peer.service.chain.chain.tail = below ++ [tip] ++ later ∧
      (peer.firstPage start).getLast? = some tip ∧
      start.service.tree.deliver (peer.firstPage start) =
        start.service.tree.deliver (below ++ [tip]) ∧
      (∀ block ∈ peer.serveBlocks start.requestSync, block ∈ below ++ [tip]) ∧
      (∀ block ∈ tip :: later, start.service.tree.weight.contains block.hash = false) ∧
      Stands start (below ++ [tip]) later (peer.syncRounds start 1) := by
  obtain ⟨done, rest, split, known, new, stands⟩ := syncs.stands_start orderly
  obtain ⟨height, asked⟩ : ∃ height : Nat, start.requestSync = height := by
    obtain ⟨_, head⟩ := syncs.reachable.invariant.head
    have length := head.reachable.length_eq
    have nonempty := List.length_pos_of_ne_nil start.service.tree.canonical.nonempty
    exact Int.eq_ofNat_of_zero_le (show 0 ≤ start.service.tree.canonical.head.index by omega)
  obtain ⟨block, served, unknown, parent⟩ := begins
  have takes := syncs.course.takes
  rw [split] at takes
  have page := serveBlocks_eq syncs.peerReachable height
  rw [asked] at served
  rw [page, split] at served
  obtain ⟨reach, short, lacks⟩ := lowest_served takes known new served unknown parent
  have standsZero : Stands start done rest (peer.syncRounds start 0) := stands
  obtain ⟨more, later, rfl, standsNext, reached, heard⟩ :=
    syncs.round split new standsZero asked reach
  have whole : peer.service.chain.chain.tail = (done ++ more) ++ later := by
    rw [split, List.append_assoc]
  have first := syncs.firstPage_eq whole asked reached
    (fun position other here beyond => heard position other here (by omega)
      ((List.length_take_le _ _).trans beyond)) standsNext.next
  have longer : done.length < (done ++ more).length := by
    refine lt_of_lt_of_le ?_ reached
    rw [List.length_take, split, List.length_append]
    have := List.length_pos_of_ne_nil lacks
    omega
  obtain ⟨before, tip, rfl⟩ : ∃ before tip, more = before ++ [tip] := by
    rcases List.eq_nil_or_concat more with rfl | found
    · simp at longer
    · simpa using found
  have pageNonempty : peer.firstPage start ≠ [] := by
    intro empty
    rw [empty, List.append_nil] at first
    have size := congrArg List.length first
    rw [List.length_take] at size
    omega
  refine ⟨done ++ before, tip, later, by rw [whole, ← List.append_assoc], ?_, ?_, ?_, ?_, ?_⟩
  · have ends := congrArg List.getLast? first
    rwa [List.getLast?_append_of_ne_nil _ pageNonempty, ← List.append_assoc,
      List.getLast?_concat] at ends
  · have low : ∀ other ∈ peer.service.chain.chain.tail.take height,
        start.service.tree.weight.contains other.hash = true := by
      rw [split, List.take_append_of_le_length reach]
      exact fun other inside => known other (List.mem_of_mem_take inside)
    rw [List.append_assoc, ← first, BlockTree.deliver_append, BlockTree.deliver_known low]
  · intro other inside
    rw [List.append_assoc, ← first]
    exact List.mem_append_right _ (List.mem_append_left _ inside)
  · exact fun other inside => new other (by
      rcases List.mem_cons.mp inside with rfl | behind
      · simp
      · exact List.mem_append_right _ behind)
  · rw [List.append_assoc]
    exact standsNext

/-- A block of the peer that is given to the node after those below it wins against the head of
the node if it overtakes it. -/
theorem beats_iff_overtakes
    {below : List Block}
    {tip : Block}
    (split : peer.service.chain.chain.tail = below ++ [tip] ++ rest) :
    (start.service.tree.deliver (below ++ [tip])).beats tip.hash
        start.service.tree.headHash = true ↔ Overtakes peer start tip := by
  have takes := syncs.course.takes
  rw [split] at takes
  have takes := takes.initial
  have invariant := syncs.reachable.invariant
  have delivered := invariant.deliver (below ++ [tip])
  have peerInvariant := syncs.peerReachable.invariant
  obtain ⟨first, chain, initialised, replayed⟩ := takes.replayed
  obtain ⟨_, _, submitted⟩ := (foldlM_concat_eq_ok _ _ _ _).mp replayed
  have newest := (submitted_of_submitBlock submitted).newest
  have whole : start.service.tree.Takes ((below ++ [tip]) ++ []) := by simpa using takes
  have apart := whole.apart_deliver
  rw [List.append_nil] at apart
  have peerKnown : peer.service.tree.weight.contains tip.hash = true := by
    refine peerInvariant.known_of_present (List.mem_map_of_mem (List.mem_of_mem_tail ?_))
    rw [show peer.service.tree.canonical.chain.tail = below ++ [tip] ++ rest from split]
    simp
  obtain ⟨kept, peerKept, weight, branch, peerBranch, _⟩ := delivered.same_weight peerInvariant
    (by rw [invariant.args_deliver, syncs.peerReachable.args_eq, syncs.reachable.args_eq])
    (by rw [invariant.args_deliver]; exact initialised) replayed apart
    (fun block inside => peerInvariant.tells_canonical block (by
      rw [show peer.service.tree.canonical.chain.tail = below ++ [tip] ++ rest from split]
      exact List.mem_append_left _ inside))
    (by rw [newest]; exact takes.known tip (by simp)) (by rw [newest]; exact peerKnown)
  rw [newest] at branch peerBranch
  obtain ⟨headWeight, headBranch⟩ := invariant.head
  have headKept := (invariant.leadsTo_deliver (below ++ [tip])).branches _ _ _ headBranch
  rw [BlockTree.beats_iff, Overtakes, Dict.getD_eq_of_get? (delivered.store.recorded branch).1,
    Dict.getD_eq_of_get? (peerInvariant.store.recorded peerBranch).1,
    Dict.getD_eq_of_get? (delivered.store.recorded headKept).1,
    Dict.getD_eq_of_get? (invariant.store.recorded headBranch).1]

/-- A block above genesis is the head if nothing follows it. -/
theorem eq_head_iff
    {below later : List Block}
    {tip : Block}
    (split : peer.service.chain.chain.tail = below ++ [tip] ++ later) :
    tip = peer.service.chain.head ↔ later = [] := by
  have chain : peer.service.chain.chain =
      peer.service.chain.chain.head peer.service.chain.nonempty :: (below ++ [tip] ++ later) := by
    rw [← split, List.cons_head_tail]
  have ends : peer.service.chain.chain.getLast? = some peer.service.chain.head :=
    List.getLast?_eq_some_getLast peer.service.chain.nonempty
  rw [chain, List.getLast?_cons_of_ne_nil (by simp)] at ends
  rcases List.eq_nil_or_concat later with rfl | ⟨later, last, rfl⟩
  · rw [List.append_nil, List.getLast?_concat] at ends
    exact ⟨fun _ => rfl, fun _ => Option.some.inj ends⟩
  · rw [List.concat_eq_append] at split ends ⊢
    rw [← List.append_assoc, List.getLast?_concat] at ends
    obtain rfl := Option.some.inj ends
    refine ⟨?_, fun none => absurd none (by simp)⟩
    rintro rfl
    have distinct := syncs.course.takes.distinct
    rw [split] at distinct
    simp [List.nodup_append] at distinct

/-- A page in reach brings the chain of the peer. -/
theorem reaches_of_inReach
    (orderly : Orderly peer start)
    (inReach : InReach peer start) :
    ∃ count, HasChainOf (peer.syncRounds start count) peer := by
  obtain ⟨below, tip, later, split, ends, _, _, new, stands⟩ :=
    syncs.first_round orderly inReach.begins
  obtain ⟨newTip, newLater⟩ := List.forall_mem_cons.mp new
  rcases inReach.climbs tip ends with top | overtakes
  · obtain rfl := (syncs.eq_head_iff split).mp top
    refine ⟨1, syncs.hasChainOf ?_⟩
    rw [split, List.append_nil]
    exact stands
  · have takes := syncs.course.takes
    rw [split] at takes
    have wins := (syncs.beats_iff_overtakes split).mpr overtakes
    exact syncs.exists_of_tip split newLater stands
      (takes.initial.head_of_beats newTip wins)

/-- As long as the first page leaves the head of the node eligible, only a page in reach helps. -/
theorem inReach_of_reaches
    (orderly : Orderly peer start)
    (keeps : KeepsHead peer start)
    (lacks : ¬HasChainOf start peer)
    (reaches : ∃ count, HasChainOf (peer.syncRounds start count) peer) :
    InReach peer start := by
  have lacksNow : ¬HasChainOf (peer.syncRounds start 0) peer := lacks
  obtain ⟨block, served, unknown, parent, _⟩ := syncs.helps_of_reaches reaches lacksNow
  have begins : ∃ block ∈ peer.serveBlocks start.requestSync,
      start.service.tree.weight.contains block.hash = false ∧
      start.service.tree.weight.contains block.previousHash = true :=
    ⟨block, served, unknown, parent⟩
  refine ⟨begins, fun last ends => ?_⟩
  obtain ⟨below, tip, later, split, endsTip, delivered, page, new, stands⟩ :=
    syncs.first_round orderly begins
  obtain rfl := Option.some.inj (endsTip.symm.trans ends)
  obtain ⟨newTip, newLater⟩ := List.forall_mem_cons.mp new
  by_contra neither
  obtain ⟨notTop, behind⟩ := not_or.mp neither
  have course := syncs.course.takes
  rw [split] at course
  have takes := course.initial
  have invariant := syncs.reachable.invariant
  have after := invariant.deliver (below ++ [tip])
  -- the head of the node stays what it was
  rw [KeepsHead, delivered] at keeps
  obtain ⟨_, _, branch, passes⟩ := (after.store.candidate_iff _).mp keeps
  have stays := takes.head_of_not_beats newTip branch passes
    fun wins => behind ((syncs.beats_iff_overtakes split).mp wins)
  have sameHead : (peer.syncRounds start 1).service.tree.canonical =
      start.service.tree.canonical := by
    obtain ⟨_, head⟩ := invariant.head
    obtain ⟨_, headAfter⟩ := after.head
    rw [stays] at headAfter
    rw [stands.tree]
    exact (headAfter.unique ((invariant.leadsTo_deliver _).branches _ _ _ head)).1
  have sameRequest : (peer.syncRounds start 1).requestSync = start.requestSync := by
    rw [requestSync, NodeService.chain, sameHead]
    rfl
  -- so the second answer is the first one, and it has nothing new
  have stuck : ¬Helps peer (peer.syncRounds start 1) := by
    rintro ⟨other, again, missing, _⟩
    rw [sameRequest] at again
    rw [stands.tree, takes.known other (page other again)] at missing
    cases missing
  refine stuck (syncs.helps_of_reaches reaches fun has => ?_)
  cases later with
  | nil => exact notTop ((syncs.eq_head_iff split).mpr rfl)
  | cons next later =>
      have known := has next (List.mem_of_mem_tail (by rw [split]; simp))
      rw [stands.tree] at known
      have whole : below ++ [tip] ++ next :: later = ((below ++ [tip]) ++ [next]) ++ later := by
        simp
      rw [whole] at course
      rw [course.initial.unknown_last (newLater next (by simp))] at known
      cases known

/-- The exchanges end with every canonical block of the peer in the tree of the node if it has
them already or the first page is in reach, and only then unless that page finalizes something
else than the node follows. -/
theorem reaches_iff
    (orderly : Orderly peer start) :
    (HasChainOf start peer ∨ InReach peer start → Reaches peer start) ∧
      (KeepsHead peer start →
        (Reaches peer start ↔ HasChainOf start peer ∨ InReach peer start)) := by
  have enough : HasChainOf start peer ∨ InReach peer start → Reaches peer start := by
    rintro (has | inReach)
    · have hasNow : HasChainOf (peer.syncRounds start 0) peer := has
      exact ⟨1, syncs.settles hasNow⟩
    · obtain ⟨count, has⟩ := syncs.reaches_of_inReach orderly inReach
      exact ⟨count + 1, syncs.settles has⟩
  refine ⟨enough, fun keeps => ⟨fun reaches => ?_, enough⟩⟩
  by_cases has : HasChainOf start peer
  · exact .inl has
  · obtain ⟨count, _, chain⟩ := reaches
    exact .inr (syncs.inReach_of_reaches orderly keeps has ⟨count, chain⟩)

end Syncs

end

end P2PNode

/-! ## A fork below the head -/

namespace SyncSample

open P2PNode

attribute [local instance] Symbolic.primitives

/-- No guard refuses a block of a chain in its turn. -/
def unguarded (tree : BlockTree) : List Block → Bool
  | [] => true
  | block :: rest => succeeded (tree.guard block) && unguarded (tree.addBlock block).2 rest

theorem guard_of_unguarded
    {tree : BlockTree}
    {earlier later : List Block}
    {block : Block}
    (holds : unguarded tree (earlier ++ block :: later) = true) :
    succeeded ((tree.deliver earlier).guard block) = true := by
  induction earlier generalizing tree with
  | nil => exact (Bool.and_eq_true_iff.mp holds).1
  | cons first earlier inductionHypothesis =>
      exact inductionHypothesis (Bool.and_eq_true_iff.mp holds).2

/-- A node and its peer. -/
structure Scene where
  service : NodeService
  peerService : NodeService

namespace Scene

def node (scene : Scene) : P2PNode := P2PNode.init scene.service

def peer (scene : Scene) : P2PNode := P2PNode.init scene.peerService

/-- The newest block of the peer. -/
def newest (scene : Scene) : Block := scene.peerService.chain.head

/-- The chains share genesis only, the one of the peer is longer, and nothing is
refused. -/
def forks (scene : Scene) : Bool :=
  decide (scene.service.chain.head.index < scene.newest.index) &&
    decide (scene.peer.serveBlocks scene.node.requestSync = [scene.newest]) &&
    decide (scene.peer.firstPage scene.node = [scene.newest]) &&
    decide (scene.service.tree.weight.contains scene.newest.previousHash = false) &&
    decide (scene.service.tree.weight.contains scene.newest.hash = false) &&
    unguarded scene.service.tree scene.peerService.chain.chain.tail &&
    decide (∀ block ∈ scene.peerService.chain.chain.tail,
      block.hash ≠ scene.service.tree.genesisHash ∧
      scene.service.tree.blocks.get? block.hash = none) &&
    decide (∀ left ∈ scene.peerService.chain.chain, ∀ right ∈ scene.peerService.chain.chain,
      blockWireId left = blockWireId right → left.hash = right.hash)

end Scene

/-- The node has a branch of two blocks, the peer another one of three. -/
def stage : Except Error Scene := do
  let own ← ForkSample.blocksOf [[.pay 0 0 1 0], []]
  let service ← NodeService.init ForkSample.args own
  let others ← ForkSample.blocksOf [[], [], []]
  let peerService ← NodeService.init ForkSample.args others
  pure { service, peerService }

def forked : Except Error Scene := do
  let scene ← stage
  raiseIf (scene.forks = false) Error.valueError
  pure scene

theorem forked_staged : succeeded forked = true := by decide +kernel

/-- What the scene shows. -/
structure Shows (scene : Scene) : Prop where
  initialised : ∃ own, NodeService.init ForkSample.args own = .ok scene.service
  peerInitialised : ∃ others, NodeService.init ForkSample.args others = .ok scene.peerService
  longer : scene.service.chain.head.index < scene.newest.index
  served : scene.peer.serveBlocks scene.node.requestSync = [scene.newest]
  page : scene.peer.firstPage scene.node = [scene.newest]
  orphan : scene.service.tree.weight.contains scene.newest.previousHash = false
  new : scene.service.tree.weight.contains scene.newest.hash = false
  unrefused : unguarded scene.service.tree scene.peerService.chain.chain.tail = true
  apart : ∀ block ∈ scene.peerService.chain.chain.tail,
    block.hash ≠ scene.service.tree.genesisHash ∧
    scene.service.tree.blocks.get? block.hash = none
  identified : ∀ left ∈ scene.peerService.chain.chain,
    ∀ right ∈ scene.peerService.chain.chain,
    blockWireId left = blockWireId right → left.hash = right.hash

theorem shown : ∃ scene, Shows scene := by
  obtain ⟨_, ran⟩ := (succeeded_iff forked).mp forked_staged
  simp only [forked, stage, bind_eq_ok, raiseIf_eq_ok, exists_unit, pure_eq_ok,
    Bool.not_eq_false] at ran
  obtain ⟨scene, ⟨own, _, service, initialised, others, _, peerService, peerInitialised, rfl⟩,
    forks, _⟩ := ran
  simp only [Scene.forks, Bool.and_eq_true, decide_eq_true_eq] at forks
  obtain ⟨⟨⟨⟨⟨⟨⟨longer, served⟩, page⟩, orphan⟩, new⟩, unrefused⟩, apart⟩, identified⟩ := forks
  exact ⟨_, ⟨own, initialised⟩, ⟨others, peerInitialised⟩, longer, served, page, orphan, new,
    unrefused, apart, identified⟩

namespace Shows

variable {scene : Scene} (shows : Shows scene)

include shows

theorem reachable : BlockTree.Reachable ForkSample.args none scene.node.service.tree := by
  obtain ⟨_, initialised⟩ := shows.initialised
  exact (NodeService.Reachable.init initialised).consistent.tree

theorem peerReachable : BlockTree.Reachable ForkSample.args none scene.peer.service.tree := by
  obtain ⟨_, initialised⟩ := shows.peerInitialised
  exact (NodeService.Reachable.init initialised).consistent.tree

theorem built : scene.newest.postInit = scene.newest :=
  postInit_of_mem_chain shows.peerReachable
    (List.getLast_mem scene.peerService.chain.nonempty)

/-- The first round keeps the newest block as an orphan. -/
theorem round :
    (scene.peer.syncRound scene.node).service = scene.service ∧
      (scene.peer.syncRound scene.node).seenBlock =
        (remember Dict.empty (blockWireId scene.newest)).2 := by
  have unseen : ¬scene.node.seenBlock.contains (blockWireId scene.newest) = true :=
    Bool.false_ne_true
  have missing : scene.node.service.tree.weight.contains scene.newest.previousHash = false :=
    shows.orphan
  rw [syncRound, shows.served, hearBlocks_singleton,
    onMessage_block _ (isBlock_blockMessage _) (carries shows.built), if_neg unseen]
  unfold applyOrBuffer
  rw [if_pos missing]
  split_ifs <;> exact ⟨rfl, rfl⟩

/-- The second round gets the same answer, and it changes nothing. -/
theorem second_round :
    scene.peer.serveBlocks (scene.peer.syncRound scene.node).requestSync = [scene.newest] ∧
      (scene.peer.syncRound scene.node).hearBlocks [scene.newest] =
        scene.peer.syncRound scene.node := by
  have request : (scene.peer.syncRound scene.node).requestSync = scene.node.requestSync := by
    rw [requestSync, shows.round.1]
    rfl
  have seen : (scene.peer.syncRound scene.node).seenBlock.contains
      (blockWireId scene.newest) = true := by
    rw [shows.round.2, contains_remember (by decide)]
    exact .inr rfl
  refine ⟨by rw [request, shows.served], hearBlocks_seen ?_ ?_⟩
  · exact List.forall_mem_singleton.mpr shows.built
  · exact List.forall_mem_singleton.mpr seen

theorem rounds (count : Nat) :
    scene.peer.syncRounds scene.node (count + 1) = scene.peer.syncRound scene.node := by
  induction count with
  | zero => rfl
  | succ count inductionHypothesis =>
      obtain ⟨served, same⟩ := shows.second_round
      rw [syncRounds_succ, inductionHypothesis]
      exact (congrArg _ served).trans same

/-- Only the cache and the orphans of the node ever change. -/
theorem visits
    {node : P2PNode}
    (visited : Visits scene.peer scene.node node) :
    node.service = scene.service ∧ node.seenBlock.size < SEEN_CAP := by
  have first : scene.node.service = scene.service ∧ scene.node.seenBlock.size < SEEN_CAP :=
    ⟨rfl, Nat.zero_lt_succ _⟩
  have second : (scene.peer.syncRound scene.node).service = scene.service ∧
      (scene.peer.syncRound scene.node).seenBlock.size < SEEN_CAP := by
    refine ⟨shows.round.1, ?_⟩
    rw [shows.round.2]
    simp [remember, Dict.keys, Dict.set, Dict.empty, Dict.put, Dict.contains, Dict.get?,
      Dict.lookup, Dict.size, SEEN_CAP]
  obtain ⟨count, earlier, part, rfl⟩ := visited
  obtain ⟨served, same⟩ := shows.second_round
  cases count with
  | zero =>
      have answer : scene.peer.serveBlocks (scene.peer.syncRounds scene.node 0).requestSync =
          [scene.newest] := shows.served
      rw [answer] at part
      rcases prefix_singleton part with rfl | rfl
      · exact first
      · have round : (scene.peer.syncRounds scene.node 0).hearBlocks [scene.newest] =
            scene.peer.syncRound scene.node := by
          rw [syncRound, shows.served]
          rfl
        rw [round]
        exact second
  | succ count =>
      rw [shows.rounds count] at part ⊢
      rw [served] at part
      rcases prefix_singleton part with rfl | rfl
      · exact second
      · rw [same]
        exact second

theorem syncs : Syncs ForkSample.args none none scene.peer scene.node := by
  refine ⟨shows.reachable, shows.peerReachable, ?_, ?_, shows.identified, ?_⟩
  · intro earlier block later split _
    have holds := shows.unrefused
    rw [show scene.peerService.chain.chain.tail = earlier ++ block :: later from split] at holds
    exact guard_of_unguarded holds
  · intro block inside
    obtain ⟨fresh, unknown⟩ := shows.apart block inside
    refine ⟨fresh, fun stored found => ?_⟩
    rw [show scene.node.service.tree.blocks.get? block.hash = none from unknown] at found
    cases found
  · intro node visited
    exact (shows.visits visited).2

omit shows in
/-- A node that has heard of nothing holds nothing back. -/
theorem orderly : Orderly scene.peer scene.node := by
  refine ⟨fun _ _ _ _ => rfl, fun _ _ later _ _ => ?_, fun block _ _ => ?_⟩
  · cases later <;> rfl
  · rw [← Bool.not_eq_true]
    intro deep
    exact Nat.not_lt_zero _ (lt_size_of_nests deep)

/-- The first page finalizes nothing: it has no block that the tree takes. -/
theorem keepsHead : KeepsHead scene.peer scene.node := by
  have invariant := shows.reachable.invariant
  have refused : scene.node.service.tree.deliver [scene.newest] = scene.node.service.tree := by
    rw [BlockTree.deliver_cons, BlockTree.deliver_nil]
    rcases invariant.addBlock_cases scene.newest with ⟨_, same⟩ | ⟨_, _, _, same⟩ |
      ⟨_, _, _, _, child, _⟩
    · rw [same]
    · rw [same]
    · have parent := (invariant.store.recorded child.parent).1
      have missing := shows.orphan
      rw [Dict.contains, show scene.service.tree.weight.get? scene.newest.previousHash = _ from
        parent] at missing
      cases missing
  rw [KeepsHead, shows.page, refused]
  exact invariant.best_head.1

/-- The newest block of the peer is never added. -/
theorem lacks (count : Nat) : ¬HasChainOf (scene.peer.syncRounds scene.node count) scene.peer := by
  intro has
  have known := has scene.newest (List.getLast_mem scene.peerService.chain.nonempty)
  rw [(shows.visits (visits_syncRounds _ _ count)).1, shows.new] at known
  cases known

end Shows

/-- The page starts above the lowest missing block. -/
theorem reaches_iff_forked :
    ∃ scene, Shows scene ∧ ¬(HasChainOf scene.node scene.peer ∨ InReach scene.peer scene.node) := by
  obtain ⟨scene, shows⟩ := shown
  refine ⟨scene, shows, fun reach => ?_⟩
  obtain ⟨count, _, has⟩ :=
    ((shows.syncs.reaches_iff Shows.orderly).2 shows.keepsHead).mpr reach
  exact shows.lacks count has

/-- Sync does not always bring the longer chain of the peer. -/
theorem fork_never_synced :
    ¬∀ (args : GenesisArgs) (checkpoint peerCheckpoint : Option Checkpoint)
      (peer start : P2PNode),
      Syncs args checkpoint peerCheckpoint peer start →
      start.service.chain.head.index < peer.service.chain.head.index →
      Reaches peer start := by
  intro claim
  obtain ⟨scene, shows⟩ := shown
  obtain ⟨count, _, has⟩ := claim _ _ _ _ _ shows.syncs shows.longer
  exact shows.lacks count has

end SyncSample

end Mindees
