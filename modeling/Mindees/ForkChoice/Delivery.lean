import Mindees.ForkChoice.Conflicts
import Mindees.ForkChoice.Convergence

/-!
# Delivery

What the delivery of one block of a set can do to a tree, and what a tree has
that was given all of them.
-/

namespace Mindees

open Library ProofOfStakeChain

section

variable [Primitives] {args : GenesisArgs} {blocks : Finset Block} {store : Dict Str Block}
  {chain : ProofOfStakeChain} {block : Block}

/-- Some branch inside the set has both the block and the checkpoint. -/
def Compatible
    (args : GenesisArgs)
    (blocks : Finset Block)
    (checkpoint : Checkpoint)
    (block : Block) : Prop :=
  ∃ chain, Inside args blocks chain ∧ chain.Passes checkpoint ∧
    block.hash ∈ chain.chain.map Block.hash

/-! ## Orders -/

/-- The parent of a block of the set is genesis or a lower block of the set. -/
theorem Deliverable.parent
    (deliverable : Deliverable args blocks)
    (member : block ∈ blocks) :
    block.previousHash = genesisHash args ∨
      ∃ parent ∈ blocks, parent.hash = block.previousHash ∧ parent.index < block.index := by
  obtain ⟨before, after, inside, submitted⟩ := deliverable.valid block member
  have accepted := submitted_of_submitBlock submitted
  cases inside with
  | genesis initialised =>
      left
      rw [accepted.previous, head_init initialised]
  | @block earlier _ parent _ parentMember parentSubmitted =>
      have newest := head_submitBlock parentSubmitted
      refine .inr ⟨parent, parentMember, ?_, ?_⟩
      · rw [accepted.previous, newest]
      · rw [accepted.index, newest]
        omega

/-- A deliverable set has an order that puts parents first. -/
theorem Deliverable.exists_order
    (deliverable : Deliverable args blocks) :
    ∃ order : List Block, (∀ block, block ∈ order ↔ block ∈ blocks) ∧
      ParentsFirst args order := by
  let lower (left right : Block) : Bool := left.index ≤ right.index
  have sorted : (blocks.toList.mergeSort lower).Pairwise fun left right =>
      lower left right = true := by
    apply List.pairwise_mergeSort
    · intro left middle right first second
      exact decide_eq_true ((of_decide_eq_true first).trans (of_decide_eq_true second))
    · intro left right
      rw [Bool.or_eq_true]
      exact (le_total left.index right.index).imp decide_eq_true decide_eq_true
  have members : ∀ block, block ∈ blocks.toList.mergeSort lower ↔ block ∈ blocks := by
    intro block
    rw [List.mem_mergeSort, Finset.mem_toList]
  refine ⟨blocks.toList.mergeSort lower, members, fun position inside => ?_⟩
  have member := (members _).mp (List.getElem_mem inside)
  refine (deliverable.parent member).imp_right ?_
  rintro ⟨parent, parentMember, same, below⟩
  obtain ⟨place, placed, rfl⟩ := List.mem_iff_getElem.mp ((members parent).mpr parentMember)
  have earlier : place < position := by
    by_contra late
    rcases Nat.lt_or_eq_of_le (not_lt.mp late) with after | rfl
    · have ordered := List.pairwise_iff_getElem.mp sorted position place inside placed after
      exact absurd below (not_lt.mpr (of_decide_eq_true ordered))
    · exact lt_irrefl _ below
  refine ⟨_, List.mem_take_iff_getElem.mpr ⟨place, ?_, rfl⟩, same⟩
  exact lt_min earlier placed

/-- Parents stay first when a block follows whose parent is there. -/
theorem ParentsFirst.append
    {order later : List Block}
    (parentsFirst : ParentsFirst args order)
    (parents : ∀ block ∈ later, block.previousHash = genesisHash args ∨
      ∃ parent ∈ order, parent.hash = block.previousHash) :
    ParentsFirst args (order ++ later) := by
  intro position inside
  rcases Nat.lt_or_ge position order.length with old | new
  · rw [List.getElem_append_left old, List.take_append_of_le_length old.le]
    exact parentsFirst position old
  · rw [List.getElem_append_right new]
    refine (parents _ (List.getElem_mem _)).imp_right ?_
    rintro ⟨parent, found, same⟩
    refine ⟨parent, ?_, same⟩
    rw [List.take_append]
    apply List.mem_append_left
    rw [List.take_of_length_le new]
    exact found

/-- Parents stay first when the rest of such an order follows. -/
theorem ParentsFirst.append_rest
    {order given : List Block}
    (givenFirst : ParentsFirst args given)
    (parentsFirst : ParentsFirst args order) :
    ParentsFirst args (given ++ order.filter (· ∉ given)) := by
  intro position inside
  rcases Nat.lt_or_ge position given.length with old | new
  · rw [List.getElem_append_left old, List.take_append_of_le_length old.le]
    exact givenFirst position old
  · rw [List.getElem_append_right new, List.take_append, List.take_of_length_le new]
    have later : position - given.length < (order.filter (· ∉ given)).length := by
      rw [List.length_append] at inside
      omega
    have split := (List.take_append_drop (position - given.length) (order.filter (· ∉ given))).symm
    rw [List.drop_eq_getElem_cons later] at split
    generalize (order.filter (· ∉ given))[position - given.length] = block at split ⊢
    generalize (order.filter (· ∉ given)).take (position - given.length) = earlier at split ⊢
    obtain ⟨before, after, whole, kept, follows⟩ := List.filter_eq_append_iff.mp split
    obtain ⟨skipped, remaining, rfl, dropped, _, _⟩ := List.filter_eq_cons_iff.mp follows
    rw [← List.append_assoc] at whole
    refine (parentsFirst.of_split whole).imp_right ?_
    rintro ⟨parent, found, same⟩
    refine ⟨parent, ?_, same⟩
    by_cases there : parent ∈ given
    · exact List.mem_append_left _ there
    · apply List.mem_append_right
      rcases List.mem_append.mp found with inBefore | inSkipped
      · rw [← kept]
        exact List.mem_filter.mpr ⟨inBefore, decide_eq_true there⟩
      · exact absurd (decide_eq_true there) (dropped parent inSkipped)

/-- A branch inside the set is a reference branch, up to seals. -/
theorem Deliverable.reference_of_inside
    (deliverable : Deliverable args blocks)
    (reference : Reference blocks store)
    (inside : Inside args blocks chain) :
    ∃ left weight, Branch args store chain.head.hash left weight ∧ chain.bare = left.bare := by
  induction inside with
  | genesis initialised =>
      rw [head_init initialised]
      exact ⟨_, 0, .genesis initialised, rfl⟩
  | block earlier member submitted inductionHypothesis =>
      obtain ⟨left, weight, branch, bare⟩ := inductionHypothesis
      obtain ⟨right, extended, sameBare⟩ :=
        deliverable.reference_extend reference earlier branch bare member submitted
      rw [head_submitBlock submitted]
      exact ⟨right, _, extended, sameBare⟩

/-! ## One delivery -/

namespace BlockTree

variable {tree start : BlockTree} {twin : Block} {order : List Block}

/-- A block of the set is valid on the stored branch of its parent. -/
theorem Draws.submits
    {before : ProofOfStakeChain}
    {weight : Int}
    (draws : Draws args blocks tree)
    (deliverable : Deliverable args blocks)
    (member : block ∈ blocks)
    (parentBranch : tree.HasBranch block.previousHash before weight) :
    ∃ after, before.submitBlock block = .ok after := by
  obtain ⟨parent, extended, inside, submitted⟩ := deliverable.valid block member
  have stored : Inside args blocks before := by
    rw [HasBranch, draws.args_eq] at parentBranch
    exact inside_of_branch draws.drawn parentBranch
  have sameHead : parent.head.hash = before.head.hash := by
    rw [parentBranch.head_hash, (submitted_of_submitBlock submitted).previous]
  obtain ⟨after, accepted, _⟩ :=
    submitBlock_of_bare (deliverable.bare_unique inside stored sameHead) submitted
  exact ⟨after, accepted⟩

/-- The guard alone refuses a block of the set. -/
theorem Draws.examines
    {before : ProofOfStakeChain}
    {weight : Int}
    (draws : Draws args blocks tree)
    (deliverable : Deliverable args blocks)
    (member : block ∈ blocks)
    (new : tree.weight.contains block.hash = false)
    (parentBranch : tree.HasBranch block.previousHash before weight)
    (passes : before.Passes tree.frontier) :
    ∃ admission, tree.examine block = .ok admission := by
  obtain ⟨after, submitted⟩ := draws.submits deliverable member parentBranch
  refine ⟨⟨before.head.index + 1, after, weight + before.stakeOf block.validator⟩, ?_⟩
  refine (draws.invariant.examine_eq_ok new _).mpr
    ⟨before, weight, ⟨parentBranch, submitted, rfl, rfl⟩, passes, ?_⟩
  intro checkpoint trusted
  rw [draws.untrusting] at trusted
  cases trusted

/-- What becomes of a block of the set whose parent is known: it was there, it is
stored, or it is refused with a validation error and nothing changes. -/
theorem Draws.addBlock_member
    (draws : Draws args blocks tree)
    (deliverable : Deliverable args blocks)
    (member : block ∈ blocks)
    (known : tree.weight.contains block.previousHash = true) :
    tree.addBlock block = (.ok false, tree) ∨ (tree.addBlock block).1 = .ok true ∨
      ∃ message, tree.addBlock block = (.error (.validation message), tree) := by
  cases new : tree.weight.contains block.hash with
  | true =>
      left
      rw [BlockTree.addBlock, if_pos new]
  | false =>
      obtain ⟨weight, found⟩ := (Dict.contains_iff _ _).mp known
      obtain ⟨before, parentBranch, _⟩ := draws.invariant.store.branch _ weight found
      right
      by_cases passes : before.Passes tree.frontier
      · obtain ⟨admission, admitted⟩ :=
          draws.examines deliverable member new parentBranch passes
        exact .inl (draws.invariant.addBlock_of_examine new admitted).2
      · exact .inr (draws.invariant.refuses_off_frontier new parentBranch passes)

/-- A block whose parent is unknown changes nothing. -/
theorem Draws.addBlock_orphan
    (draws : Draws args blocks tree)
    (unknown : tree.weight.contains block.previousHash = false) :
    (tree.addBlock block).2 = tree := by
  refine draws.invariant.unchanged fun accepted => ?_
  rw [(draws.invariant.of_accepted accepted).2.1] at unknown
  cases unknown

/-- After a block its twin changes nothing. -/
theorem Draws.addBlock_twin
    (draws : Draws args blocks tree)
    (deliverable : Deliverable args blocks)
    (member : block ∈ blocks)
    (twinMember : twin ∈ blocks)
    (same : twin.hash = block.hash) :
    ((tree.addBlock block).2.addBlock twin).2 = (tree.addBlock block).2 := by
  have invariant := draws.invariant
  rcases invariant.addBlock_cases block with
    ⟨known, unchanged⟩ | ⟨new, refused, _, unchanged⟩ | ⟨_, _, _, _, _, _, _, _, grows, _⟩
  · rw [unchanged, BlockTree.addBlock, if_pos (by rw [same]; exact known)]
  · rw [unchanged]
    refine invariant.unchanged fun accepted => ?_
    have unsealed := deliverable.distinct twin twinMember block member same
    have previous := Block.previousHash_eq_of_unsealed unsealed
    -- what admits the twin admits the block
    rcases invariant.addBlock_cases twin with
      ⟨_, known⟩ | ⟨_, _, _, refusedToo⟩ | ⟨_, _, before, weight, child, passes, _⟩
    · rw [known] at accepted
      cases accepted
    · rw [refusedToo] at accepted
      cases accepted
    · have parentBranch := child.parent
      rw [previous] at parentBranch
      obtain ⟨admission, admitted⟩ :=
        draws.examines deliverable member new parentBranch passes
      exact refused admission admitted
  · have known : (tree.addBlock block).2.weight.contains twin.hash = true := by
      rw [grows.weight, Dict.contains_set, same]
      simp
    rw [BlockTree.addBlock, if_pos known]

/-- The blocks of the set with the hash of a block. -/
noncomputable def twinsOf (blocks : Finset Block) (block : Block) : List Block :=
  block :: (blocks.filter fun twin => twin.hash = block.hash).toList

theorem mem_twinsOf
    {blocks : Finset Block}
    (member : block ∈ blocks) :
    twin ∈ twinsOf blocks block ↔ twin ∈ blocks ∧ twin.hash = block.hash := by
  rw [twinsOf, List.mem_cons, Finset.mem_toList, Finset.mem_filter]
  refine ⟨fun either => either.elim ?_ id, .inr⟩
  rintro rfl
  exact ⟨member, rfl⟩

/-- A block and its twins do to a tree what the block does. -/
theorem Draws.deliver_twinsOf
    (draws : Draws args blocks tree)
    (deliverable : Deliverable args blocks)
    (member : block ∈ blocks) :
    tree.deliver (twinsOf blocks block) = (tree.addBlock block).2 := by
  have twins : ∀ twin ∈ (blocks.filter fun twin => twin.hash = block.hash).toList,
      twin ∈ blocks ∧ twin.hash = block.hash := by
    intro twin inside
    exact Finset.mem_filter.mp (Finset.mem_toList.mp inside)
  rw [twinsOf, deliver_cons]
  generalize (blocks.filter fun twin => twin.hash = block.hash).toList = rest at twins
  induction rest with
  | nil => rfl
  | cons twin rest inductionHypothesis =>
      obtain ⟨⟨twinMember, same⟩, others⟩ := List.forall_mem_cons.mp twins
      rw [deliver_cons, draws.addBlock_twin deliverable member twinMember same]
      exact inductionHypothesis others

/-! ## Many deliveries -/

/-- Blocks that change nothing one by one change nothing together. -/
theorem deliver_unchanged
    (idle : ∀ block ∈ order, (tree.addBlock block).2 = tree) :
    tree.deliver order = tree := by
  induction order with
  | nil => rfl
  | cons block rest inductionHypothesis =>
      obtain ⟨first, others⟩ := List.forall_mem_cons.mp idle
      rw [deliver_cons, first]
      exact inductionHypothesis others

/-- A known hash is genesis or that of a delivered block. -/
theorem known_deliver
    {hash : Str}
    (draws : Draws args blocks start)
    (initialised : init args none = .ok start)
    (members : ∀ block ∈ order, block ∈ blocks)
    (known : (start.deliver order).weight.contains hash = true) :
    hash = ProofOfStakeChain.genesisHash args ∨ ∃ block ∈ order, block.hash = hash := by
  induction order using List.reverseRecOn with
  | nil =>
      obtain ⟨first, started, rfl⟩ := (init_eq_ok args none start).mp initialised
      left
      rw [deliver_nil, Dict.contains_set, Bool.or_eq_true, decide_eq_true_iff,
        head_init started] at known
      exact known.elim Eq.symm nofun
  | append_singleton earlier last inductionHypothesis =>
      have earlierMembers : ∀ block ∈ earlier, block ∈ blocks :=
        fun block inside => members block (List.mem_append_left _ inside)
      have invariant := (draws.deliver earlierMembers).invariant
      rw [deliver_append] at known
      rcases invariant.known_of_addBlock known with same | old
      · exact .inr ⟨last, by simp, same⟩
      · refine (inductionHypothesis earlierMembers old).imp_right ?_
        rintro ⟨block, inside, same⟩
        exact ⟨block, List.mem_append_left _ inside, same⟩

/-- A tree that covers the set has every block compatible with its frontier. -/
theorem Covers.stores_compatible
    (covers : Covers args store tree)
    (draws : Draws args blocks tree)
    (deliverable : Deliverable args blocks)
    (reference : Reference blocks store)
    (member : block ∈ blocks)
    (compatible : Compatible args blocks tree.frontier block) :
    ∃ stored, tree.blocks.get? block.hash = some stored ∧ stored.unsealed = block.unsealed := by
  obtain ⟨top, inside, passes, present⟩ := compatible
  obtain ⟨copy, weight, branch, bare⟩ := deliverable.reference_of_inside reference inside
  obtain ⟨_, final, _, finalBranch, finalized⟩ := draws.invariant.frontier_finalized
  obtain ⟨fork, forkBranch, forkBare⟩ := draws.reference deliverable reference finalBranch
  have forkFinal : fork.finalizedCheckpoint = tree.frontier := by
    rw [← finalized, finalizedCheckpoint, finalizedCheckpoint, state_eq_of_bare forkBare]
  have reached : tree.finalizedHeight ≤ fork.finalizedCheckpoint.2 := by
    rw [forkFinal]
    exact le_refl _
  obtain ⟨kept, keptBranch, keptBare⟩ := covers _ _ _ forkBranch reached _ _ _ branch
    (by rw [forkFinal]; exact passes_of_bare bare passes)
  have present : block.hash ∈ kept.chain.map Block.hash := by
    have sameHashes : kept.chain.map Block.hash = top.chain.map Block.hash := by
      have unsealed := blocks_eq_of_bare (keptBare.trans bare.symm)
      have hashes := congrArg (List.map Block.hash) unsealed
      simpa only [List.map_map, Function.comp_def, Block.hash_unsealed] using hashes
    rw [sameHashes]
    exact present
  obtain ⟨position, passesThere⟩ := passes_of_present present
  obtain ⟨lower, lowerWeight, lowerBranch, _⟩ := keptBranch.ancestor passesThere
  rcases (draws.invariant.store.stored_iff _).mpr ⟨lower, lowerWeight, lowerBranch⟩ with
    first | found
  · rw [draws.invariant.store.genesisHash_eq, draws.args_eq] at first
    exact absurd first (deliverable.fresh block member)
  · obtain ⟨stored, there⟩ := (Dict.contains_iff _ _).mp found
    have sameHash := (draws.invariant.store.block_sound _ _ there).1
    exact ⟨stored, there,
      deliverable.distinct _ (draws.drawn _ _ there) _ member sameHash⟩

end BlockTree

end

end Mindees
