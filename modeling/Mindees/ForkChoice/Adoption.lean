import Mindees.ForkChoice.Following
import Mindees.ForkChoice.HeadChoice
import Mindees.ForkChoice.Linear

/-!
# A tree that is given another chain

A tree that holds a part of a chain is given the blocks of the chain in their
order.  If no guard refuses one it takes them all, and its head afterwards is the
old head or the last of them, whichever is better.
-/

namespace Mindees

open Library ProofOfStakeChain

namespace ProofOfStakeChain

/-- The height of a chain counts its blocks above genesis. -/
theorem index_submitBlocks
    [Primitives]
    {args : GenesisArgs}
    {start left : ProofOfStakeChain}
    {blocks : List Block}
    (initialised : init args = .ok start)
    (replayed : start.submitBlocks blocks = .ok left) :
    left.head.index = blocks.length := by
  induction blocks using List.reverseRecOn generalizing left with
  | nil =>
      cases replayed
      exact index_init initialised
  | append_singleton blocks block inductionHypothesis =>
      obtain ⟨middle, earlier, submitted⟩ := (foldlM_concat_eq_ok _ _ _ _).mp replayed
      have accepted := submitted_of_submitBlock submitted
      rw [accepted.newest, accepted.index, inductionHypothesis earlier, List.length_append]
      rfl

end ProofOfStakeChain

namespace BlockTree

variable [Primitives] {tree other : BlockTree} {blocks earlier later : List Block}
  {block last : Block} {start left right : ProofOfStakeChain} {hash : Str}

/-! ## Delivered blocks -/

theorem Invariant.deliver
    (invariant : tree.Invariant)
    (blocks : List Block) :
    (tree.deliver blocks).Invariant := by
  induction blocks generalizing tree with
  | nil => exact invariant
  | cons block rest inductionHypothesis => exact inductionHypothesis (invariant.addBlock block)

theorem Invariant.args_deliver
    (invariant : tree.Invariant)
    (blocks : List Block) :
    (tree.deliver blocks).genesisArgs = tree.genesisArgs := by
  induction blocks generalizing tree with
  | nil => rfl
  | cons block rest inductionHypothesis =>
      rw [deliver_cons, inductionHypothesis (invariant.addBlock block)]
      rcases invariant.addBlock_cases block with ⟨_, same⟩ | ⟨_, _, _, same⟩ |
        ⟨_, _, _, _, _, _, _, _, grows, _⟩
      · rw [same]
      · rw [same]
      · exact grows.args

/-- What is stored after a delivery was stored or has been delivered. -/
theorem Invariant.stored_deliver
    {stored : Block}
    (invariant : tree.Invariant)
    (found : (tree.deliver blocks).blocks.get? hash = some stored) :
    tree.blocks.get? hash = some stored ∨ stored ∈ blocks ∧ stored.hash = hash := by
  induction blocks using List.reverseRecOn with
  | nil => exact .inl found
  | append_singleton blocks block inductionHypothesis =>
      rw [deliver_append, deliver_cons, deliver_nil] at found
      have before : (tree.deliver blocks).blocks.get? hash = some stored →
          tree.blocks.get? hash = some stored ∨ stored ∈ blocks ++ [block] ∧ stored.hash = hash :=
        fun older => (inductionHypothesis older).imp_right fun delivered =>
          ⟨List.mem_append_left _ delivered.1, delivered.2⟩
      rcases (invariant.deliver blocks).addBlock_cases block with ⟨_, same⟩ | ⟨_, _, _, same⟩ |
        ⟨_, _, _, _, _, _, _, _, grows, _⟩
      · rw [same] at found
        exact before found
      · rw [same] at found
        exact before found
      · rw [grows.blocks, Dict.get?_set] at found
        split_ifs at found with here
        · obtain rfl := Option.some.inj found
          exact .inr ⟨by simp, here⟩
        · exact before found

/-- What is known after a delivery was known or has been delivered. -/
theorem Invariant.known_deliver
    (invariant : tree.Invariant)
    (known : (tree.deliver blocks).weight.contains hash = true) :
    tree.weight.contains hash = true ∨ ∃ block ∈ blocks, block.hash = hash := by
  induction blocks using List.reverseRecOn with
  | nil => exact .inl known
  | append_singleton blocks block inductionHypothesis =>
      rw [deliver_append, deliver_cons, deliver_nil] at known
      rcases (invariant.deliver blocks).known_of_addBlock known with rfl | older
      · exact .inr ⟨block, by simp, rfl⟩
      · refine (inductionHypothesis older).imp_right ?_
        rintro ⟨earlier, inside, same⟩
        exact ⟨earlier, List.mem_append_left _ inside, same⟩

/-- What was known stays known. -/
theorem Invariant.keeps_deliver
    (invariant : tree.Invariant)
    (known : tree.weight.contains hash = true) :
    (tree.deliver blocks).weight.contains hash = true := by
  induction blocks generalizing tree with
  | nil => exact known
  | cons block rest inductionHypothesis =>
      exact inductionHypothesis (invariant.addBlock block) (invariant.known_addBlock block known)

/-- Known blocks change nothing. -/
theorem deliver_known
    (known : ∀ block ∈ blocks, tree.weight.contains block.hash = true) :
    tree.deliver blocks = tree := by
  induction blocks with
  | nil => rfl
  | cons block rest inductionHypothesis =>
      obtain ⟨here, others⟩ := List.forall_mem_cons.mp known
      rw [deliver_cons, BlockTree.addBlock, if_pos here]
      exact inductionHypothesis others

/-- The head of a chain is known with its blocks. -/
theorem Invariant.known_head
    (invariant : tree.Invariant)
    (initialised : ProofOfStakeChain.init tree.genesisArgs = .ok start)
    (replayed : start.submitBlocks blocks = .ok left)
    (known : ∀ block ∈ blocks, tree.weight.contains block.hash = true) :
    tree.weight.contains left.head.hash = true := by
  induction blocks using List.reverseRecOn with
  | nil =>
      cases replayed
      rw [head_init initialised, ← invariant.store.genesisHash_eq]
      exact invariant.store.genesis_known
  | append_singleton blocks block _ =>
      obtain ⟨before, _, submitted⟩ := (foldlM_concat_eq_ok _ _ _ _).mp replayed
      rw [(submitted_of_submitBlock submitted).newest]
      exact known block (by simp)

/-! ## Stored chains -/

/-- The blocks of a branch above genesis are stored. -/
theorem HasBranch.stored_of_mem
    {chain : ProofOfStakeChain}
    {weight : Int}
    (branch : tree.HasBranch hash chain weight)
    (inside : block ∈ chain.chain.tail) :
    tree.blocks.get? block.hash = some block ∧
      block.hash ≠ ProofOfStakeChain.genesisHash tree.genesisArgs := by
  induction branch with
  | genesis initialised =>
      obtain ⟨_, _, _, _, _, _, _, _, blocks⟩ :=
        (ProofOfStakeChain.init_eq_ok _ _).mp initialised
      rw [blocks] at inside
      cases inside
  | @extend _ before _ newest _ _ stored fresh _ submitted inductionHypothesis =>
      rw [(submitted_of_submitBlock submitted).blocks, List.tail_append_of_ne_nil before.nonempty]
        at inside
      rcases List.mem_append.mp inside with below | here
      · exact inductionHypothesis below
      · obtain rfl := List.mem_singleton.mp here
        exact ⟨stored, fresh⟩

/-- Hashes tell the blocks of the canonical chain from the stored ones. -/
theorem Invariant.tells_canonical
    (invariant : tree.Invariant) :
    tree.TellsApart tree.canonical.chain.tail := by
  intro block inside
  obtain ⟨_, branch⟩ := invariant.head
  obtain ⟨stored, fresh⟩ := branch.stored_of_mem inside
  refine ⟨invariant.store.genesisHash_eq ▸ fresh, fun other found => ?_⟩
  rw [Option.some.inj (stored.symm.trans found)]

/-! ## Weights along a chain -/

/-- Two trees that hold a chain give its head the same weight. -/
theorem Invariant.same_weight
    (invariant : tree.Invariant)
    (otherInvariant : other.Invariant)
    (sameArgs : other.genesisArgs = tree.genesisArgs)
    (initialised : ProofOfStakeChain.init tree.genesisArgs = .ok start)
    (replayed : start.submitBlocks blocks = .ok left)
    (tells : tree.TellsApart blocks)
    (otherTells : other.TellsApart blocks)
    (known : tree.weight.contains left.head.hash = true)
    (otherKnown : other.weight.contains left.head.hash = true) :
    ∃ kept otherKept weight, tree.HasBranch left.head.hash kept weight ∧
      other.HasBranch left.head.hash otherKept weight ∧
      left.bare = kept.bare ∧ left.bare = otherKept.bare := by
  induction blocks using List.reverseRecOn generalizing left with
  | nil =>
      cases replayed
      rw [head_init initialised]
      refine ⟨start, start, 0, .genesis initialised, ?_, rfl, rfl⟩
      rw [← sameArgs]
      exact .genesis (sameArgs ▸ initialised)
  | append_singleton blocks block inductionHypothesis =>
      obtain ⟨before, reached, submitted⟩ := (foldlM_concat_eq_ok _ _ _ _).mp replayed
      have accepted := submitted_of_submitBlock submitted
      rw [accepted.newest] at known otherKnown ⊢
      obtain ⟨stored, parent, after, weight, alike, parentBranch, again, branch⟩ :=
        invariant.store.stored_of_known (tells block (by simp)) known
      obtain ⟨otherStored, otherParent, otherAfter, otherWeight, otherAlike, otherParentBranch,
        otherAgain, otherBranch⟩ :=
        otherInvariant.store.stored_of_known (otherTells block (by simp)) otherKnown
      rw [accepted.previous] at parentBranch otherParentBranch
      obtain ⟨kept, otherKept, weight', keptBranch, otherKeptBranch, same, otherSame⟩ :=
        inductionHypothesis reached
          (fun inner inside => tells inner (List.mem_append_left _ inside))
          (fun inner inside => otherTells inner (List.mem_append_left _ inside))
          ((Dict.contains_iff _ _).mpr ⟨_, (invariant.store.recorded parentBranch).1⟩)
          ((Dict.contains_iff _ _).mpr ⟨_, (otherInvariant.store.recorded otherParentBranch).1⟩)
      obtain ⟨rfl, rfl⟩ := parentBranch.unique keptBranch
      obtain ⟨rfl, rfl⟩ := otherParentBranch.unique otherKeptBranch
      have stakes :
          otherParent.stakeOf otherStored.validator = parent.stakeOf stored.validator := by
        rw [stakeOf, stakeOf, ← state_eq_of_bare otherSame, state_eq_of_bare same,
          Block.validator_eq_of_unsealed otherAlike, Block.validator_eq_of_unsealed alike]
      refine ⟨after, otherAfter, _, branch, stakes ▸ otherBranch, ?_, ?_⟩
      · exact bare_submitBlock same alike.symm submitted again
      · exact bare_submitBlock otherSame otherAlike.symm submitted otherAgain

/-- Weights rise along a chain. -/
theorem Invariant.weight_rises
    (invariant : tree.Invariant)
    (onward : left.submitBlocks later = .ok right)
    (tells : tree.TellsApart later)
    (nonempty : later ≠ [])
    (known : tree.weight.contains right.head.hash = true) :
    tree.weight.getD left.head.hash 0 < tree.weight.getD right.head.hash 0 := by
  induction later using List.reverseRecOn generalizing right with
  | nil => exact absurd rfl nonempty
  | append_singleton later block inductionHypothesis =>
      obtain ⟨before, reached, submitted⟩ := (foldlM_concat_eq_ok _ _ _ _).mp onward
      have accepted := submitted_of_submitBlock submitted
      rw [accepted.newest] at known ⊢
      obtain ⟨stored, parent, after, weight, _, parentBranch, again, branch⟩ :=
        invariant.store.stored_of_known (tells block (by simp)) known
      rw [accepted.previous] at parentBranch
      have positive : 0 < parent.stakeOf stored.validator :=
        checkProposer_pos (submitted_of_submitBlock again).proposer
      have parentRecorded := (invariant.store.recorded parentBranch).1
      rw [Dict.getD_eq_of_get? (invariant.store.recorded branch).1]
      have step : tree.weight.getD left.head.hash 0 ≤ weight := by
        rw [← Dict.getD_eq_of_get? parentRecorded 0]
        by_cases first : later = []
        · subst first
          cases reached
          exact le_rfl
        · exact (inductionHypothesis reached
            (fun inner inside => tells inner (List.mem_append_left _ inside)) first
            ((Dict.contains_iff _ _).mpr ⟨_, parentRecorded⟩)).le
      omega

/-- The head is the one that beats all others above the frontier. -/
theorem Invariant.head_eq
    {chain : ProofOfStakeChain}
    {weight : Int}
    (invariant : tree.Invariant)
    (branch : tree.HasBranch hash chain weight)
    (passes : chain.Passes tree.frontier)
    (best : ∀ other otherChain otherWeight, tree.HasBranch other otherChain otherWeight →
      otherChain.Passes tree.frontier → other = hash ∨ tree.beats hash other = true) :
    tree.headHash = hash := by
  obtain ⟨_, headBranch⟩ := invariant.head
  refine (best _ _ _ headBranch invariant.head_passes).resolve_right fun wins => ?_
  rcases invariant.head_best _ _ _ branch passes with same | loses
  · have against := tree.beats_strictTotal.asymm _ _ wins
    rw [same] at wins against
    rw [wins] at against
    cases against
  · rw [tree.beats_strictTotal.asymm _ _ wins] at loses
    cases loses

/-- A block that is accepted on the head becomes the head. -/
theorem headHash_addBlock
    (accepted : (tree.addBlock block).1 = .ok true)
    (onHead : block.previousHash = tree.headHash) :
    (tree.addBlock block).2.headHash = block.hash := by
  have extended : tree.extendsHead block = true := decide_eq_true onHead
  unfold BlockTree.addBlock at accepted ⊢
  split_ifs at accepted ⊢ with known
  · simp at accepted
  · split at accepted
    · cases accepted
    · dsimp only at accepted ⊢
      split at accepted
      · cases accepted
      · rfl

/-! ## Taking a chain -/

/-- A tree can be given the blocks of a chain in their order: hashes tell them from the stored
blocks and from each other, and no guard refuses one. -/
structure Takes (tree : BlockTree) (blocks : List Block) : Prop where
  invariant : tree.Invariant
  replayed : ∃ start chain, ProofOfStakeChain.init tree.genesisArgs = .ok start ∧
    start.submitBlocks blocks = .ok chain
  apart : tree.TellsApart blocks
  distinct : (blocks.map Block.hash).Nodup
  unrefused : ∀ earlier block later, blocks = earlier ++ block :: later →
    (tree.deliver earlier).weight.contains block.hash = false →
    succeeded ((tree.deliver earlier).guard block) = true

namespace Takes

/-- The hashes tell the blocks from what is stored later, too. -/
theorem apart_deliver
    (takes : tree.Takes (earlier ++ later)) :
    (tree.deliver earlier).TellsApart (earlier ++ later) := by
  intro block inside
  obtain ⟨fresh, alike⟩ := takes.apart block inside
  refine ⟨?_, fun stored found => ?_⟩
  · rw [(takes.invariant.deliver earlier).store.genesisHash_eq, takes.invariant.args_deliver,
      ← takes.invariant.store.genesisHash_eq]
    exact fresh
  · rcases takes.invariant.stored_deliver found with older | ⟨delivered, same⟩
    · exact alike stored older
    · rw [List.inj_on_of_nodup_map takes.distinct (List.mem_append_left _ delivered) inside same]

/-- The first blocks of a chain can be taken, too. -/
theorem initial
    (takes : tree.Takes (earlier ++ later)) :
    tree.Takes earlier := by
  obtain ⟨start, _, initialised, replayed⟩ := takes.replayed
  obtain ⟨left, reached, _⟩ := (foldlM_append_eq_ok _ _ _ _).mp replayed
  have distinct := takes.distinct
  rw [List.map_append] at distinct
  refine ⟨takes.invariant, ⟨start, left, initialised, reached⟩,
    fun block inside => takes.apart block (List.mem_append_left _ inside),
    distinct.of_append_left, ?_⟩
  · rintro first block rest rfl
    exact takes.unrefused first block (rest ++ later) (by simp)

/-- The next block is accepted if it is unknown and the blocks before it are known. -/
theorem accepts_of_known
    (takes : tree.Takes (earlier ++ block :: later))
    (known : ∀ block ∈ earlier, (tree.deliver earlier).weight.contains block.hash = true)
    (new : (tree.deliver earlier).weight.contains block.hash = false) :
    ((tree.deliver earlier).addBlock block).1 = .ok true := by
  have invariant := takes.invariant.deliver earlier
  obtain ⟨start, chain, initialised, replayed⟩ := takes.replayed
  obtain ⟨left, reached, onward⟩ := (foldlM_append_eq_ok _ _ _ _).mp replayed
  obtain ⟨next, submitted, _⟩ := (foldlM_cons_eq_ok _ _ _ _).mp onward
  have apart := takes.apart_deliver
  rw [← takes.invariant.args_deliver earlier] at initialised
  obtain ⟨⟨kept, weight, branch, same⟩, _⟩ := invariant.branch_of_known initialised
    (fun other before => apart other (List.mem_append_left _ before)) reached
    (invariant.known_head initialised reached known)
  exact invariant.accepts_next branch same submitted new (takes.unrefused _ _ _ rfl new)

/-- Every delivered block is known. -/
theorem known
    (takes : tree.Takes blocks) :
    ∀ block ∈ blocks, (tree.deliver blocks).weight.contains block.hash = true := by
  induction blocks using List.reverseRecOn with
  | nil => exact fun block inside => absurd inside List.not_mem_nil
  | append_singleton blocks block inductionHypothesis =>
      have before := inductionHypothesis takes.initial
      have invariant := takes.invariant.deliver blocks
      rw [deliver_append, deliver_cons, deliver_nil]
      refine List.forall_mem_append.mpr
        ⟨fun other inside => invariant.known_addBlock block (before other inside), ?_⟩
      rw [List.forall_mem_singleton]
      cases new : (tree.deliver blocks).weight.contains block.hash with
      | true => exact invariant.known_addBlock block new
      | false =>
          obtain ⟨_, _, stored⟩ := invariant.of_accepted (takes.accepts_of_known before new)
          exact ((invariant.addBlock block).store.block_sound _ _ stored).2.2.2

/-- Every unknown block is accepted in its turn. -/
theorem accepts
    (takes : tree.Takes (earlier ++ block :: later))
    (new : (tree.deliver earlier).weight.contains block.hash = false) :
    ((tree.deliver earlier).addBlock block).1 = .ok true :=
  takes.accepts_of_known takes.initial.known new

/-- With the last block of a chain the tree knows all of it. -/
theorem known_below
    (takes : tree.Takes (earlier ++ [last]))
    (known : tree.weight.contains last.hash = true) :
    ∀ block ∈ earlier ++ [last], tree.weight.contains block.hash = true := by
  obtain ⟨start, chain, initialised, replayed⟩ := takes.replayed
  obtain ⟨before, _, submitted⟩ := (foldlM_concat_eq_ok _ _ _ _).mp replayed
  refine (takes.invariant.branch_of_known initialised takes.apart replayed ?_).2
  rwa [(submitted_of_submitBlock submitted).newest]

/-- The parent of a block is known in its turn. -/
theorem parent_known
    (takes : tree.Takes (earlier ++ block :: later)) :
    (tree.deliver earlier).weight.contains block.previousHash = true := by
  obtain ⟨start, chain, initialised, replayed⟩ := takes.replayed
  obtain ⟨left, reached, onward⟩ := (foldlM_append_eq_ok _ _ _ _).mp replayed
  obtain ⟨next, submitted, _⟩ := (foldlM_cons_eq_ok _ _ _ _).mp onward
  rw [← takes.invariant.args_deliver earlier] at initialised
  rw [(submitted_of_submitBlock submitted).previous]
  exact (takes.invariant.deliver earlier).known_head initialised reached takes.initial.known

/-! ## The head afterwards -/

/-- A last block that is new is new in its turn. -/
theorem unknown_last
    (takes : tree.Takes (earlier ++ [last]))
    (new : tree.weight.contains last.hash = false) :
    (tree.deliver earlier).weight.contains last.hash = false := by
  by_contra known
  rcases takes.invariant.known_deliver (Bool.not_eq_false _ ▸ known) with
    older | ⟨block, inside, same⟩
  · rw [new] at older
    cases older
  · have distinct := takes.distinct
    rw [List.map_append, List.nodup_append] at distinct
    exact distinct.2.2 _ (List.mem_map_of_mem inside) _ (List.mem_map_of_mem (by simp)) same

/-- The last block ends a branch that passes the frontier. -/
theorem last_passes
    (takes : tree.Takes (earlier ++ [last]))
    (new : tree.weight.contains last.hash = false) :
    ∃ chain weight, (tree.deliver (earlier ++ [last])).HasBranch last.hash chain weight ∧
      chain.Passes (tree.deliver (earlier ++ [last])).frontier := by
  have invariant := takes.invariant.deliver earlier
  have unknown := takes.unknown_last new
  have accepted := takes.accepts unknown
  rw [deliver_append, deliver_cons, deliver_nil]
  rcases invariant.addBlock_cases last with ⟨known, _⟩ | ⟨_, _, _, refused⟩ |
    ⟨_, admission, before, weight, child, passes, _, _, grows, _⟩
  · rw [unknown] at known
    cases known
  · rw [refused] at accepted
    cases accepted
  · refine ⟨_, _, grows.new_branch invariant.store unknown child, ?_⟩
    rw [grows.frontier]
    exact (Invariant.validated_passes child passes).2

/-- Whatever passes the frontier is the last block or the old head, or one of the two beats
it. -/
theorem beaten
    {chain : ProofOfStakeChain}
    {weight : Int}
    (takes : tree.Takes (earlier ++ [last]))
    (branch : (tree.deliver (earlier ++ [last])).HasBranch hash chain weight)
    (passes : chain.Passes (tree.deliver (earlier ++ [last])).frontier) :
    (hash = last.hash ∨ (tree.deliver (earlier ++ [last])).beats last.hash hash = true) ∨
      (hash = tree.headHash ∨
        (tree.deliver (earlier ++ [last])).beats tree.headHash hash = true) := by
  have invariant := takes.invariant.deliver (earlier ++ [last])
  have leads := takes.invariant.leadsTo_deliver (earlier ++ [last])
  have recorded := (invariant.store.recorded branch).1
  rcases takes.invariant.known_deliver ((Dict.contains_iff _ _).mpr ⟨_, recorded⟩) with
    older | ⟨block, inside, rfl⟩
  · right
    obtain ⟨oldWeight, found⟩ := (Dict.contains_iff _ _).mp older
    obtain ⟨oldChain, oldBranch, _⟩ := takes.invariant.store.branch _ _ found
    have kept := leads.branches _ _ _ oldBranch
    obtain ⟨rfl, rfl⟩ := kept.unique branch
    obtain ⟨headWeight, headBranch⟩ := takes.invariant.head
    have headKept := leads.branches _ _ _ headBranch
    refine (takes.invariant.head_best _ _ _ oldBranch (leads.passes kept passes)).imp_right ?_
    rw [beats_iff, beats_iff,
      Dict.getD_eq_of_get? (takes.invariant.store.recorded headBranch).1,
      Dict.getD_eq_of_get? (takes.invariant.store.recorded oldBranch).1,
      Dict.getD_eq_of_get? (invariant.store.recorded headKept).1,
      Dict.getD_eq_of_get? recorded]
    exact id
  · left
    rcases List.mem_append.mp inside with before | newest
    · right
      obtain ⟨first, rest, rfl⟩ := List.append_of_mem before
      obtain ⟨start, final, initialised, replayed⟩ := takes.replayed
      have known := takes.known last (by simp)
      have split : first ++ block :: rest ++ [last] = (first ++ [block]) ++ (rest ++ [last]) := by
        simp
      rw [split] at replayed
      obtain ⟨left, reached, onward⟩ := (foldlM_append_eq_ok _ _ _ _).mp replayed
      obtain ⟨_, _, submitted⟩ := (foldlM_concat_eq_ok _ _ _ _).mp reached
      obtain ⟨_, _, submittedLast⟩ := (foldlM_concat_eq_ok _ _ _ _).mp onward
      have here := (submitted_of_submitBlock submitted).newest
      have there := (submitted_of_submitBlock submittedLast).newest
      have tells : (tree.deliver (first ++ block :: rest ++ [last])).TellsApart
          (rest ++ [last]) := by
        intro other inner
        have whole : tree.Takes ((first ++ block :: rest ++ [last]) ++ []) := by simpa using takes
        refine whole.apart_deliver other ?_
        rw [List.append_nil, split]
        exact List.mem_append_right _ inner
      have rises := invariant.weight_rises onward tells (by simp) (by rwa [there])
      rw [here, there] at rises
      exact (beats_iff _ _ _).mpr (.inl rises)
    · exact .inl (by rw [List.mem_singleton.mp newest])

/-- A last block that beats the old head becomes the head. -/
theorem head_of_beats
    (takes : tree.Takes (earlier ++ [last]))
    (new : tree.weight.contains last.hash = false)
    (wins : (tree.deliver (earlier ++ [last])).beats last.hash tree.headHash = true) :
    (tree.deliver (earlier ++ [last])).headHash = last.hash := by
  obtain ⟨chain, weight, branch, passes⟩ := takes.last_passes new
  refine (takes.invariant.deliver _).head_eq branch passes fun other _ _ otherBranch above => ?_
  rcases takes.beaten otherBranch above with weaker | rfl | beaten
  · exact weaker
  · exact .inr wins
  · exact .inr ((beats_strictTotal _).trans _ _ _ wins beaten)

/-- An old head that is still eligible and not beaten stays the head. -/
theorem head_of_not_beats
    {chain : ProofOfStakeChain}
    {weight : Int}
    (takes : tree.Takes (earlier ++ [last]))
    (new : tree.weight.contains last.hash = false)
    (branch : (tree.deliver (earlier ++ [last])).HasBranch tree.headHash chain weight)
    (passes : chain.Passes (tree.deliver (earlier ++ [last])).frontier)
    (stands : ¬(tree.deliver (earlier ++ [last])).beats last.hash tree.headHash = true) :
    (tree.deliver (earlier ++ [last])).headHash = tree.headHash := by
  have order := (tree.deliver (earlier ++ [last])).beats_strictTotal
  have apart : last.hash ≠ tree.headHash := by
    obtain ⟨headWeight, headBranch⟩ := takes.invariant.head
    intro same
    rw [same, Dict.contains, (takes.invariant.store.recorded headBranch).1] at new
    cases new
  have wins := (order.total _ _ apart).resolve_left stands
  refine (takes.invariant.deliver _).head_eq branch passes fun other _ _ otherBranch above => ?_
  rcases takes.beaten otherBranch above with (rfl | beaten) | stronger
  · exact .inr wins
  · exact .inr (order.trans _ _ _ wins beaten)
  · exact stronger

/-- A block on the head becomes the head. -/
theorem head_of_extends
    (takes : tree.Takes (earlier ++ [last]))
    (new : tree.weight.contains last.hash = false)
    (onHead : last.previousHash = (tree.deliver earlier).headHash) :
    (tree.deliver (earlier ++ [last])).headHash = last.hash := by
  rw [deliver_append, deliver_cons, deliver_nil]
  exact headHash_addBlock (takes.accepts (takes.unknown_last new)) onHead

/-! ## A head on the chain -/

/-- A block names the one before it. -/
theorem previous
    (takes : tree.Takes (earlier ++ last :: block :: later)) :
    block.previousHash = last.hash := by
  obtain ⟨start, chain, initialised, replayed⟩ := takes.replayed
  obtain ⟨left, _, onward⟩ := (foldlM_append_eq_ok _ _ _ _).mp replayed
  obtain ⟨middle, submitted, onward⟩ := (foldlM_cons_eq_ok _ _ _ _).mp onward
  obtain ⟨next, submittedNext, _⟩ := (foldlM_cons_eq_ok _ _ _ _).mp onward
  rw [(submitted_of_submitBlock submittedNext).previous,
    (submitted_of_submitBlock submitted).newest]

/-- A head on the chain moves up the chain. -/
theorem head_moves
    {more : List Block}
    (takes : tree.Takes (earlier ++ last :: more))
    (new : ∀ block ∈ more, tree.weight.contains block.hash = false)
    (head : (tree.deliver (earlier ++ [last])).headHash = last.hash) :
    ∃ below tip, earlier ++ last :: more = below ++ [tip] ∧
      (tree.deliver (below ++ [tip])).headHash = tip.hash := by
  induction more generalizing earlier last with
  | nil => exact ⟨earlier, last, rfl, head⟩
  | cons block more inductionHypothesis =>
      obtain ⟨newBlock, newMore⟩ := List.forall_mem_cons.mp new
      have split : earlier ++ last :: block :: more = (earlier ++ [last]) ++ block :: more := by
        simp
      have onHead := takes.previous
      rw [split] at takes ⊢
      have part : tree.Takes ((earlier ++ [last]) ++ [block]) := by
        have whole : (earlier ++ [last]) ++ block :: more =
            ((earlier ++ [last]) ++ [block]) ++ more := by simp
        rw [whole] at takes
        exact takes.initial
      exact inductionHypothesis takes newMore
        (part.head_of_extends newBlock (onHead.trans head.symm))

/-- The height of a head on the chain. -/
theorem head_index
    (takes : tree.Takes (earlier ++ [last]))
    (head : (tree.deliver (earlier ++ [last])).headHash = last.hash) :
    (tree.deliver (earlier ++ [last])).canonical.head.index = (earlier.length + 1 : Nat) := by
  have invariant := takes.invariant.deliver (earlier ++ [last])
  obtain ⟨start, chain, initialised, replayed⟩ := takes.replayed
  obtain ⟨before, reached, submitted⟩ := (foldlM_concat_eq_ok _ _ _ _).mp replayed
  have accepted := submitted_of_submitBlock submitted
  have apart : (tree.deliver (earlier ++ [last])).TellsApart (earlier ++ [last]) := by
    have whole : tree.Takes ((earlier ++ [last]) ++ []) := by simpa using takes
    simpa using whole.apart_deliver
  rw [← takes.invariant.args_deliver (earlier ++ [last])] at initialised
  obtain ⟨⟨kept, weight, branch, same⟩, _⟩ := invariant.branch_of_known initialised apart replayed
    (by rw [accepted.newest]; exact takes.known last (by simp))
  obtain ⟨headWeight, headBranch⟩ := invariant.head
  rw [accepted.newest, ← head] at branch
  obtain ⟨rfl, _⟩ := branch.unique headBranch
  rw [← head_index_eq_of_bare same]
  rw [index_submitBlocks initialised replayed, List.length_append]
  rfl

end Takes

end BlockTree

end Mindees
