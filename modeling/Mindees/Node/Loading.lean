import Mindees.Consensus.GenesisIdentity
import Mindees.ForkChoice.Linear
import Mindees.Node.Restart

/-!
# The linear loader

A store can be loaded in two ways: as a single chain that submits every block,
and by a node that adds every block to its tree.  The two agree on every store
in which each block extends the one before it, and the first refuses all others.
-/

namespace Mindees

open Library ProofOfStakeChain

section

variable [Primitives]

/-- Every block names the hash of the one before it. -/
def Unforked (blocks : List Block) : Prop :=
  blocks.IsChain fun earlier later => later.previousHash = earlier.hash

namespace BlockTree.Linear

variable {tree final : BlockTree} {blocks : List Block} {chain : ProofOfStakeChain}

/-- The hashes of a chain and of blocks to come are pairwise distinct. -/
abbrev Apart (chain : ProofOfStakeChain) (blocks : List Block) : Prop :=
  ((chain.chain ++ blocks).map Block.hash).Nodup

theorem absent_of_apart
    {block : Block}
    (apart : Apart chain (block :: blocks)) :
    block.hash ∉ chain.chain.map Block.hash := by
  intro present
  rw [Apart, List.map_append, List.nodup_append'] at apart
  exact apart.2.2 present List.mem_cons_self

theorem apart_of_submitBlock
    {block : Block}
    {after : ProofOfStakeChain}
    (apart : Apart chain (block :: blocks))
    (submitted : chain.submitBlock block = .ok after) :
    Apart after blocks := by
  rw [Apart, (submitted_of_submitBlock submitted).blocks, List.append_assoc]
  exact apart

/-- The tree takes the blocks of a chain one by one. -/
theorem replay_of_submitBlocks
    (linear : tree.Linear)
    (apart : Apart tree.canonical blocks)
    (submitted : tree.canonical.submitBlocks blocks = .ok chain) :
    ∃ final, blocks.foldlM NodeService.replayBlock tree = .ok final ∧ final.Linear ∧
      final.canonical = chain := by
  induction blocks generalizing tree with
  | nil => exact ⟨tree, rfl, linear, Except.ok.inj submitted⟩
  | cons block rest inductionHypothesis =>
      rw [submitBlocks, List.foldlM_cons, bind_eq_ok] at submitted
      obtain ⟨after, here, later⟩ := submitted
      obtain ⟨accepted, canonical, linearNext⟩ := linear.addBlock (absent_of_apart apart) here
      have apartNext := apart_of_submitBlock apart here
      rw [← canonical] at apartNext later
      obtain ⟨final, replayed, linearFinal, same⟩ :=
        inductionHypothesis linearNext apartNext later
      refine ⟨final, ?_, linearFinal, same⟩
      rw [List.foldlM_cons, bind_eq_ok]
      refine ⟨_, ?_, replayed⟩
      rw [NodeService.replayBlock, accepted]
      rfl

/-- Blocks that extend each other are taken by the tree only if the chain takes
them. -/
theorem submitBlocks_of_replay
    (linear : tree.Linear)
    (apart : Apart tree.canonical blocks)
    (unforked : Unforked (tree.canonical.head :: blocks))
    (replayed : blocks.foldlM NodeService.replayBlock tree = .ok final) :
    tree.canonical.submitBlocks blocks = .ok final.canonical := by
  induction blocks generalizing tree with
  | nil =>
      obtain rfl := Except.ok.inj replayed
      rfl
  | cons block rest inductionHypothesis =>
      obtain ⟨onHead, others⟩ := List.isChain_cons_cons.mp unforked
      rw [List.foldlM_cons, bind_eq_ok] at replayed
      obtain ⟨next, stepped, later⟩ := replayed
      simp only [NodeService.replayBlock, bind_eq_ok, pure_eq_ok] at stepped
      obtain ⟨_, added, rfl⟩ := stepped
      have absent := absent_of_apart apart
      obtain ⟨after, submitted⟩ := linear.submitted_of_accepted absent onHead added
      obtain ⟨_, canonical, linearNext⟩ := linear.addBlock absent submitted
      have apartNext := apart_of_submitBlock apart submitted
      have unforkedNext : Unforked (after.head :: rest) := by
        rw [(submitted_of_submitBlock submitted).newest]
        exact others
      rw [← canonical] at apartNext unforkedNext
      have run := inductionHypothesis linearNext apartNext unforkedNext later
      rw [submitBlocks, List.foldlM_cons, bind_eq_ok]
      refine ⟨after, submitted, ?_⟩
      rwa [canonical] at run

end BlockTree.Linear

namespace ProofOfStakeChain

theorem chain_init
    {args : GenesisArgs}
    {start : ProofOfStakeChain}
    (initialised : init args = .ok start) :
    start.chain = [genesisBlock args.timestamp] := by
  obtain ⟨_, _, _, _, _, _, _, _, blocks⟩ := (init_eq_ok _ _).mp initialised
  exact blocks

/-- Submitted blocks extend each other. -/
theorem unforked_of_submitBlocks
    {start chain : ProofOfStakeChain}
    {blocks : List Block}
    (submitted : start.submitBlocks blocks = .ok chain) :
    Unforked (start.head :: blocks) := by
  induction blocks generalizing start with
  | nil => exact List.isChain_singleton _
  | cons block rest inductionHypothesis =>
      rw [submitBlocks, List.foldlM_cons, bind_eq_ok] at submitted
      obtain ⟨after, here, later⟩ := submitted
      have facts := submitted_of_submitBlock here
      refine List.isChain_cons_cons.mpr ⟨facts.previous, ?_⟩
      rw [← facts.newest]
      exact inductionHypothesis later

end ProofOfStakeChain

namespace BlockStore

variable {disk : BlockStore} {chain : ProofOfStakeChain}

/-- The blocks on disk and the genesis block have pairwise distinct hashes. -/
def Distinct (disk : BlockStore) : Prop :=
  ∀ args blocks, disk.genesisParams = .ok args → disk.iterBlocks = .ok blocks →
    ((genesisBlock args.timestamp :: blocks).map Block.hash).Nodup

theorem Distinct.apart
    {args : GenesisArgs}
    {blocks : List Block}
    {start : ProofOfStakeChain}
    (distinct : disk.Distinct)
    (params : disk.genesisParams = .ok args)
    (iterated : disk.iterBlocks = .ok blocks)
    (initialised : ProofOfStakeChain.init args = .ok start) :
    BlockTree.Linear.Apart start blocks := by
  rw [BlockTree.Linear.Apart, chain_init initialised]
  exact distinct args blocks params iterated

/-- Loading a store as one chain succeeds exactly when a node boots from it and
its blocks extend each other, and both come to the same chain. -/
theorem load_iff_ofStore
    (distinct : disk.Distinct)
    (validator : Option Wallet)
    (autoproduce : Bool) :
    disk.load = .ok chain ↔
      ∃ service, NodeService.ofStore disk validator autoproduce = .ok service ∧
        service.chain = chain ∧
        ∀ args, disk.genesisParams = .ok args →
          Unforked (genesisBlock args.timestamp :: service.store) := by
  rw [load_eq_ok]
  constructor
  · rintro ⟨args, start, blocks, params, initialised, iterated, submitted⟩
    have tree := (BlockTree.init_eq_ok args none _).mpr ⟨start, initialised, rfl⟩
    have apart := distinct.apart params iterated initialised
    obtain ⟨final, replayed, _, same⟩ :=
      (BlockTree.Linear.init tree).replay_of_submitBlocks apart submitted
    refine ⟨_, (NodeService.ofStore_eq_ok _ _ _ _ _).mpr ⟨args, blocks, params, iterated,
      (NodeService.init_eq_ok _ _ _ _ _ _).mpr ⟨_, final, tree, replayed, rfl⟩⟩, same, ?_⟩
    intro other otherParams
    obtain rfl := Except.ok.inj (params.symm.trans otherParams)
    rw [← head_eq_genesisBlock initialised]
    exact unforked_of_submitBlocks submitted
  · rintro ⟨service, booted, rfl, unforked⟩
    obtain ⟨args, blocks, params, iterated, ready⟩ :=
      (NodeService.ofStore_eq_ok _ _ _ _ _).mp booted
    obtain ⟨genesis, tree, initialised, replayed, rfl⟩ :=
      (NodeService.init_eq_ok _ _ _ _ _ _).mp ready
    have linear := BlockTree.Linear.init initialised
    obtain ⟨start, started, rfl⟩ := (BlockTree.init_eq_ok _ _ _).mp initialised
    have chained := unforked args params
    rw [← head_eq_genesisBlock started] at chained
    exact ⟨args, start, blocks, params, started, iterated,
      linear.submitBlocks_of_replay (distinct.apart params iterated started) chained replayed⟩

end BlockStore

end

/-! ## Two blocks on disk -/

namespace LoadingSample

open NodeService RestartSample

attribute [local instance] Symbolic.reading

/-- What a node left on disk that produced two blocks. -/
def disk : BlockStore := (start.run calls).written fresh

/-- The blocks that were read, and genesis, have different hashes. -/
def apart : Except Error GenesisArgs → Except Error (List Block) → Bool
  | .ok args, .ok blocks => ((genesisBlock args.timestamp :: blocks).map Block.hash).Nodup
  | _, _ => true

theorem apart_disk : apart disk.genesisParams disk.iterBlocks = true := by decide +kernel

theorem loaded : succeeded disk.load = true := by decide +kernel

theorem load_iff_ofStore_two_blocks :
    ∃ service, ofStore disk none false = .ok service ∧ disk.load = .ok service.chain := by
  have distinct : disk.Distinct := by
    intro args blocks params iterated
    have apart := apart_disk
    rw [params, iterated] at apart
    exact of_decide_eq_true apart
  have loads := eq_ok_outcome disk.load loaded
  obtain ⟨service, booted, same, _⟩ :=
    (BlockStore.load_iff_ofStore distinct none false).mp loads
  exact ⟨service, booted, loads.trans (congrArg Except.ok same.symm)⟩

end LoadingSample

end Mindees
