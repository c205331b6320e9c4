import Mindees.Core.Codec
import Mindees.Node.Calls

/-!
# A node does not equivocate

A node remembers what it has sealed in its tree and its store only.  That is
enough: a block with a stored child is never the head again, and a restart
stores every child again.
-/

namespace Mindees

open Library

section

variable [Primitives]

/-! ## The tree and the store -/

/-- What is hashed for stored blocks and for genesis. -/
def hashed (args : GenesisArgs) (store : List Block) : Set Bytes :=
  insert (canonical (genesisBlock args.timestamp).header)
    {bytes | ∃ block ∈ store, bytes = canonical block.header}

theorem genesis_mem_hashed (args : GenesisArgs) (store : List Block) :
    canonical (genesisBlock args.timestamp).header ∈ hashed args store := .inl rfl

theorem mem_hashed
    {store : List Block}
    {block : Block}
    (args : GenesisArgs)
    (inside : block ∈ store) :
    canonical block.header ∈ hashed args store := .inr ⟨block, inside, rfl⟩

theorem hashed_mono
    {earlier later : List Block}
    (args : GenesisArgs)
    (subset : earlier ⊆ later) :
    hashed args earlier ⊆ hashed args later := by
  apply Set.insert_subset_insert
  rintro bytes ⟨block, inside, rfl⟩
  exact ⟨block, subset inside, rfl⟩

namespace BlockTree

/-- The tree and a store hold the same blocks. -/
structure Mirrors (tree : BlockTree) (store : List Block) : Prop where
  known : ∀ block ∈ store, tree.weight.contains block.hash = true
  stored : ∀ hash block, tree.blocks.get? hash = some block → block ∈ store

variable {args : GenesisArgs} {checkpoint : Option Checkpoint} {tree : BlockTree}
  {store : List Block} {block : Block}

theorem mirrors_init
    (initialised : init args checkpoint = .ok tree) :
    tree.Mirrors [] := by
  obtain ⟨chain, _, rfl⟩ := (init_eq_ok _ _ _).mp initialised
  constructor
  · intro block inside
    cases inside
  · intro hash block found
    rw [Dict.get?_empty] at found
    cases found

/-- A block that the tree takes joins the store. -/
theorem Mirrors.addBlock
    (mirrors : tree.Mirrors store)
    (reachable : Reachable args checkpoint tree)
    {new : Bool}
    (added : (tree.addBlock block).1 = .ok new) :
    (tree.addBlock block).2.Mirrors (store ++ [block]) := by
  have cases := reachable.invariant.addBlock_cases block
  rcases cases with ⟨known, same⟩ | ⟨_, _, error, refused⟩ | ⟨_, _, _, _, _, _, _, _, grows, _⟩
  · rw [same]
    constructor
    · intro other inside
      rcases List.mem_append.mp inside with old | last
      · exact mirrors.known other old
      · rw [List.mem_singleton.mp last]
        exact known
    · intro hash other found
      exact List.mem_append_left _ (mirrors.stored hash other found)
  · rw [refused] at added
    cases added
  · constructor
    · intro other inside
      rw [grows.weight, Dict.contains_set, Bool.or_eq_true]
      rcases List.mem_append.mp inside with old | last
      · exact .inr (mirrors.known other old)
      · exact .inl (decide_eq_true (congrArg Block.hash (List.mem_singleton.mp last)).symm)
    · intro hash other found
      rw [grows.blocks, Dict.get?_set] at found
      rw [List.mem_append, List.mem_singleton]
      split_ifs at found
      · exact .inr (Option.some.inj found).symm
      · exact .inl (mirrors.stored hash other found)

/-- The head has no stored child. -/
theorem Mirrors.previousHash_ne_head
    (mirrors : tree.Mirrors store)
    (reachable : Reachable args checkpoint tree)
    (free : CollisionFree (hashed args store))
    (inside : block ∈ store)
    (above : 0 < block.index) :
    block.previousHash ≠ tree.headHash := by
  intro onHead
  have invariant := reachable.invariant
  have here := mem_hashed args inside
  have distinct : ¬tree.Collides block := by
    rintro (genesis | ⟨stored, found, other⟩)
    · rw [invariant.store.genesisHash_eq, reachable.args_eq] at genesis
      have header := free.header here (genesis_mem_hashed args store) genesis
      have index : block.index = 0 := by
        rw [header.1]
        unfold genesisBlock Block.postInit
        split <;> rfl
      omega
    · have kept := mirrors.stored _ stored found
      have same := (invariant.store.block_sound _ _ found).1
      have header := free.header (mem_hashed args kept) here same
      exact other header.2.1
  have new := invariant.new_of_onHead onHead distinct
  rw [mirrors.known block inside] at new
  cases new

end BlockTree

/-! ## Runs -/

namespace NodeService

/-- The runs of a node, with the blocks that `produce_block` has returned in
them.  Between two calls the node may restart from its store. -/
inductive Publishes (args : GenesisArgs) : NodeService → List Json → Prop
  | start {persisted : List Block} {validator : Option Wallet} {autoproduce : Bool}
      {checkpoint : Option Checkpoint} {service : NodeService} :
      NodeService.init args persisted validator autoproduce checkpoint = .ok service →
      Publishes args service []
  | call {service : NodeService} {published : List Json} (next : Call) :
      Publishes args service published →
      Publishes args (service.call next).2 (published ++ (service.call next).1)
  | restart {service after : NodeService} {published : List Json} {validator : Option Wallet}
      {autoproduce : Bool} {checkpoint : Option Checkpoint} :
      Publishes args service published →
      NodeService.init args service.store validator autoproduce checkpoint = .ok after →
      Publishes args after published

/-- What a run keeps: the tree mirrors the store, and the returned blocks are
stored children of pairwise distinct parents. -/
structure Honest
    (args : GenesisArgs)
    (service : NodeService)
    (published : List Json) : Prop where
  consistent : ∃ checkpoint, service.Consistent args checkpoint
  mirrors : service.tree.Mirrors service.store
  blocks : ∃ blocks : List Block, published = blocks.map Block.encodeBlock ∧
    (∀ block ∈ blocks, block ∈ service.store ∧ 0 < block.index ∧ block.postInit = block) ∧
    (blocks.map Block.previousHash).Nodup

variable {args : GenesisArgs} {checkpoint : Option Checkpoint} {service after : NodeService}
  {published : List Json}

/-- A rebuilt node has the store it was built from, and its tree mirrors it. -/
theorem mirrors_of_init
    {persisted : List Block}
    {validator : Option Wallet}
    {autoproduce : Bool}
    (initialised :
      NodeService.init args persisted validator autoproduce checkpoint = .ok service) :
    service.store = persisted ∧ service.tree.Mirrors persisted := by
  simp only [NodeService.init, bind_eq_ok, pure_eq_ok] at initialised
  obtain ⟨genesis, start, tree, replayed, rfl⟩ := initialised
  refine ⟨rfl, ?_⟩
  have traced := foldlM_traces
    (fun earlier tree => BlockTree.Reachable args checkpoint tree ∧ tree.Mirrors earlier)
    ?_ ⟨.init start, BlockTree.mirrors_init start⟩ replayed
  · exact traced.2
  · intro earlier block later _ before next held stepped
    obtain ⟨reached, mirrors⟩ := held
    simp only [bind_eq_ok, pure_eq_ok] at stepped
    obtain ⟨_, added, rfl⟩ := stepped
    exact ⟨reached.add block, mirrors.addBlock reached added⟩

/-- No call forgets a stored block. -/
theorem Consistent.store_subset_call
    (consistent : service.Consistent args checkpoint)
    (next : Call) :
    service.store ⊆ (service.call next).2.store := by
  have cases := consistent.call_cases next
  rcases cases with ⟨_, keeps⟩ | ⟨_, _, block, _, commits⟩ | ⟨block, _, _, commits⟩
  · rw [keeps.store]
    exact List.Subset.refl _
  · rw [commits.store]
    exact List.subset_append_left _ _
  · rw [commits.store]
    exact List.subset_append_left _ _

/-- A restart changes nothing that a run keeps. -/
theorem Honest.restart
    {validator : Option Wallet}
    {autoproduce : Bool}
    (honest : Honest args service published)
    (initialised :
      NodeService.init args service.store validator autoproduce checkpoint = .ok after) :
    Honest args after published := by
  obtain ⟨store, mirrors⟩ := mirrors_of_init initialised
  have reachable : Reachable args checkpoint after := .init initialised
  refine ⟨⟨checkpoint, reachable.consistent⟩, ?_, ?_⟩
  · rw [store]
    exact mirrors
  · rw [store]
    exact honest.blocks

/-- A call keeps the returned blocks children of distinct parents. -/
theorem Honest.call
    (honest : Honest args service published)
    (free : CollisionFree (hashed args service.store))
    (next : Call) :
    Honest args (service.call next).2 (published ++ (service.call next).1) := by
  obtain ⟨⟨checkpoint, consistent⟩, mirrors, blocks, rfl, facts, distinct⟩ := honest
  have grown := consistent.store_subset_call next
  have later : Consistent args checkpoint (service.call next).2 := consistent.call next
  have kept : ∀ block ∈ blocks, block ∈ (service.call next).2.store ∧ 0 < block.index ∧
      block.postInit = block :=
    fun block inside => ⟨grown (facts block inside).1, (facts block inside).2⟩
  have mirroring : ∀ {block}, service.Commits (service.call next).2 block →
      (service.call next).2.tree.Mirrors (service.call next).2.store := by
    intro block commits
    obtain ⟨⟨new, added⟩, tree, store⟩ := commits
    rw [tree, store]
    exact mirrors.addBlock consistent.tree added
  have cases := consistent.call_cases next
  rcases cases with ⟨nothing, keeps⟩ | ⟨nothing, _, block, _, commits⟩ | ⟨block, onHead, answer, commits⟩
  · refine ⟨⟨checkpoint, later⟩, ?_, blocks, ?_, kept, distinct⟩
    · rw [keeps.tree, keeps.store]
      exact mirrors
    · rw [nothing, List.append_nil]
  · refine ⟨⟨checkpoint, later⟩, mirroring commits, blocks, ?_, kept, distinct⟩
    rw [nothing, List.append_nil]
  · obtain ⟨wallet, transactions, sealedBy⟩ := onHead
    obtain ⟨_, headBranch⟩ := consistent.tree.invariant.head
    have headHash : block.previousHash = service.tree.headHash := by
      rw [sealedBy.previous]
      exact headBranch.head_hash
    have above : 0 < block.index := by
      rw [sealedBy.index_eq]
      have height := headBranch.reachable.hashAt_head.1
      exact Int.lt_add_one_of_le height
    refine ⟨⟨checkpoint, later⟩, mirroring commits, blocks ++ [block], ?_, ?_, ?_⟩
    · rw [answer, List.map_append, List.map_singleton]
    · intro other inside
      rcases List.mem_append.mp inside with old | last
      · exact kept other old
      · rw [List.mem_singleton.mp last]
        refine ⟨?_, above, sealedBy.postInit_eq⟩
        rw [commits.store]
        exact List.mem_append_right _ List.mem_cons_self
    · rw [List.map_append, List.map_singleton, ← List.concat_eq_append, List.nodup_concat]
      refine ⟨?_, distinct⟩
      intro again
      obtain ⟨other, inside, same⟩ := List.mem_map.mp again
      obtain ⟨stored, positive, _⟩ := facts other inside
      have apart := mirrors.previousHash_ne_head consistent.tree free stored positive
      exact apart (same.trans headHash)

/-- A run leads to consistent nodes. -/
theorem Publishes.consistent
    (run : Publishes args service published) :
    ∃ checkpoint, service.Consistent args checkpoint := by
  induction run with
  | @start _ _ _ checkpoint _ initialised =>
      have reachable : Reachable args checkpoint _ := .init initialised
      exact ⟨checkpoint, reachable.consistent⟩
  | call next _ inductionHypothesis =>
      obtain ⟨checkpoint, consistent⟩ := inductionHypothesis
      exact ⟨checkpoint, consistent.call next⟩
  | @restart _ _ _ _ _ checkpoint _ initialised _ =>
      have reachable : Reachable args checkpoint _ := .init initialised
      exact ⟨checkpoint, reachable.consistent⟩

/-- Every run without a collision is honest. -/
theorem Publishes.honest
    (run : Publishes args service published)
    (free : CollisionFree (hashed args service.store)) :
    Honest args service published := by
  induction run with
  | @start _ _ _ checkpoint _ initialised =>
      obtain ⟨store, mirrors⟩ := mirrors_of_init initialised
      have reachable : Reachable args checkpoint _ := .init initialised
      refine ⟨⟨checkpoint, reachable.consistent⟩, store ▸ mirrors, [], rfl, ?_, List.nodup_nil⟩
      intro block inside
      cases inside
  | call next earlier inductionHypothesis =>
      obtain ⟨_, consistent⟩ := earlier.consistent
      have fewer := free.mono (hashed_mono args (consistent.store_subset_call next))
      exact (inductionHypothesis fewer).call fewer next
  | restart earlier initialised inductionHypothesis =>
      have store := (mirrors_of_init initialised).1
      rw [store] at free
      exact (inductionHypothesis free).restart initialised

/-- Among the blocks that `produce_block` returned in a run, any interleaving of
calls and restarts, two on one parent have one hash, and no pair proves an
equivocation. -/
theorem Publishes.no_equivocation
    (run : Publishes args service published)
    (free : CollisionFree (hashed args service.store))
    {first second : Json}
    (firstReturned : first ∈ published)
    (secondReturned : second ∈ published) :
    ∃ left right, decodeBlock first = .ok left ∧ decodeBlock second = .ok right ∧
      (left.previousHash = right.previousHash → left.hash = right.hash) ∧
      succeeded (verifyEquivocation left right) = false := by
  obtain ⟨blocks, rfl, facts, distinct⟩ := (run.honest free).blocks
  obtain ⟨left, leftInside, rfl⟩ := List.mem_map.mp firstReturned
  obtain ⟨right, rightInside, rfl⟩ := List.mem_map.mp secondReturned
  have read : ∀ block ∈ blocks, decodeBlock block.encodeBlock = .ok block := by
    intro block inside
    rw [decodeBlock_encodeBlock, (facts block inside).2.2]
  have oneParent : left.previousHash = right.previousHash → left.hash = right.hash := by
    intro same
    rw [List.inj_on_of_nodup_map distinct leftInside rightInside same]
  refine ⟨left, right, read left leftInside, read right rightInside, oneParent, ?_⟩
  rw [← Bool.not_eq_true, succeeded_iff]
  rintro ⟨offense, proven⟩
  simp only [verifyEquivocation, rejectIf, bind_eq_ok, raiseIf_eq_ok, exists_unit, ne_eq,
    not_not] at proven
  obtain ⟨_, sameParent, _, different, _⟩ := proven
  exact different (oneParent sameParent)

end NodeService

/-- Distinct digests of the headers leave no collision. -/
theorem collisionFree_of_nodup
    {args : GenesisArgs}
    {store : List Block}
    (distinct : ((genesisBlock args.timestamp :: store).map
      fun block => sha256 (canonical block.header)).Nodup) :
    CollisionFree (hashed args store) := by
  have listed : ∀ bytes ∈ hashed args store,
      ∃ block ∈ genesisBlock args.timestamp :: store, bytes = canonical block.header := by
    rintro bytes (rfl | ⟨block, inside, rfl⟩)
    · exact ⟨_, List.mem_cons_self, rfl⟩
    · exact ⟨block, List.mem_cons_of_mem _ inside, rfl⟩
  intro left leftInside right rightInside same
  obtain ⟨leftBlock, leftListed, rfl⟩ := listed left leftInside
  obtain ⟨rightBlock, rightListed, rfl⟩ := listed right rightInside
  have equal := List.inj_on_of_nodup_map distinct leftListed rightListed same
  rw [equal]

end

/-! ## A block before and a block after a restart -/

namespace EquivocationSample

open NodeService

attribute [local instance] Symbolic.primitives

/-- A validator produces, restarts from its store and produces again. -/
def history : Except Error (NodeService × Json × Json) := do
  let before ← NodeService.init ProductionSample.args [] (some (Symbolic.wallet 1))
  let (first, before) := before.call (.produceBlock 1700000010 0)
  let after ← NodeService.init ProductionSample.args before.store (some (Symbolic.wallet 1))
  let (second, after) := after.call (.produceBlock 1700000020 0)
  raiseIf (¬((genesisBlock 0 :: after.store).map
    fun block => sha256 (canonical block.header)).Nodup) Error.valueError
  match first, second with
  | [first], [second] => pure (after, first, second)
  | _, _ => .error .valueError

theorem ran : succeeded history = true := by decide +kernel

/-- Two blocks of one validator, and no evidence in them. -/
theorem no_equivocation_restarted :
    ∃ service first second, history = .ok (service, first, second) ∧
      ∃ left right, decodeBlock first = .ok left ∧ decodeBlock second = .ok right ∧
        (left.previousHash = right.previousHash → left.hash = right.hash) ∧
        succeeded (verifyEquivocation left right) = false := by
  obtain ⟨⟨service, first, second⟩, ended⟩ := (succeeded_iff history).mp ran
  refine ⟨service, first, second, ended, ?_⟩
  simp only [history, bind_eq_ok, raiseIf_eq_ok, exists_unit, not_not] at ended
  obtain ⟨before, started, after, restarted, distinct, ended⟩ := ended
  split at ended
  · rename_i firstReturned secondReturned
    simp only [pure_eq_ok, Prod.mk.injEq] at ended
    obtain ⟨rfl, rfl, rfl⟩ := ended
    have opened : Publishes ProductionSample.args before [] := .start started
    have produced := opened.call (.produceBlock 1700000010 0)
    have again := (produced.restart restarted).call (.produceBlock 1700000020 0)
    rw [firstReturned, secondReturned] at again
    exact again.no_equivocation (collisionFree_of_nodup distinct) (by simp) (by simp)
  · cases ended

end EquivocationSample

end Mindees
