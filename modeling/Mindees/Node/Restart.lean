import Mindees.Node.Calls
import Mindees.Node.GenesisFile

/-!
# Restarting a node

A node starts from its directory and writes every block that its tree takes.
Whatever else it was asked to do has left no trace in the tree, so the
directory holds what is needed to build the same tree again.
-/

namespace Mindees

open Library

section

variable [Primitives]

namespace NodeService

/-- Add a persisted block to the tree; an exception ends the start. -/
def replayBlock (tree : BlockTree) (block : Block) : Except Error BlockTree := do
  let _ ← (tree.addBlock block).1
  pure (tree.addBlock block).2

/-- The constructor: read the parameters of genesis and replay the persisted
blocks.  The store of a node is the list of the blocks that it holds. -/
def ofStore
    (disk : BlockStore)
    (validator : Option Wallet := none)
    (autoproduce : Bool := false)
    (checkpoint : Option Checkpoint := none) : Except Error NodeService := do
  let args ← disk.genesisParams
  let genesis ← BlockTree.init args checkpoint
  let tree ← disk.forBlocks replayBlock genesis
  let store ← disk.iterBlocks
  pure { tree, mempool := .init, validator, autoproduce, store }

/-- A directory after a node has written its blocks to it. -/
def written (service : NodeService) (fresh : BlockStore) : BlockStore :=
  service.store.foldl BlockStore.append fresh

/-- A committed block is one more line in the directory. -/
@[simp] theorem written_commit
    (service : NodeService)
    (tree : BlockTree)
    (block : Block)
    (fresh : BlockStore) :
    (service.commit tree block).written fresh = (service.written fresh).append block := by
  unfold written commit
  rw [List.foldl_append]
  rfl

variable {args : GenesisArgs} {checkpoint : Option Checkpoint} {service after : NodeService}

theorem init_eq_ok
    (args : GenesisArgs)
    (persisted : List Block)
    (validator : Option Wallet)
    (autoproduce : Bool)
    (checkpoint : Option Checkpoint)
    (service : NodeService) :
    NodeService.init args persisted validator autoproduce checkpoint = .ok service ↔
      ∃ genesis tree, BlockTree.init args checkpoint = .ok genesis ∧
        persisted.foldlM replayBlock genesis = .ok tree ∧
        service = { tree, mempool := .init, validator, autoproduce, store := persisted } := by
  simp only [NodeService.init, bind_eq_ok, pure_eq_ok]
  constructor
  · rintro ⟨genesis, start, tree, replayed, rfl⟩
    exact ⟨genesis, tree, start, replayed, rfl⟩
  · rintro ⟨genesis, tree, start, replayed, rfl⟩
    exact ⟨genesis, start, tree, replayed, rfl⟩

/-- A start from a directory is a start from the blocks that it holds. -/
theorem ofStore_eq_ok
    (disk : BlockStore)
    (validator : Option Wallet)
    (autoproduce : Bool)
    (checkpoint : Option Checkpoint)
    (service : NodeService) :
    ofStore disk validator autoproduce checkpoint = .ok service ↔
      ∃ args blocks, disk.genesisParams = .ok args ∧ disk.iterBlocks = .ok blocks ∧
        NodeService.init args blocks validator autoproduce checkpoint = .ok service := by
  simp only [ofStore, bind_eq_ok, pure_eq_ok, BlockStore.forBlocks_eq_ok, init_eq_ok]
  constructor
  · rintro ⟨args, params, genesis, start, tree, ⟨blocks, read, replayed⟩, again, same, rfl⟩
    obtain rfl := Except.ok.inj (read.symm.trans same)
    exact ⟨args, blocks, params, read, genesis, tree, start, replayed, rfl⟩
  · rintro ⟨args, blocks, params, read, genesis, tree, start, replayed, rfl⟩
    exact ⟨args, params, genesis, start, tree, ⟨blocks, read, replayed⟩, blocks, read, rfl⟩

/-! ## What a run keeps -/

/-- The stored blocks replay to the tree. -/
structure Replays
    (args : GenesisArgs)
    (checkpoint : Option Checkpoint)
    (service : NodeService) : Prop where
  consistent : service.Consistent args checkpoint
  replay : ∃ genesis, BlockTree.init args checkpoint = .ok genesis ∧
    service.store.foldlM replayBlock genesis = .ok service.tree
  built : ∀ block ∈ service.store, block.postInit = block

/-- A committed block is the last one of the replay. -/
theorem Replays.commits
    {block : Block}
    (replays : service.Replays args checkpoint)
    (consistent : after.Consistent args checkpoint)
    (commits : service.Commits after block)
    (complete : block.postInit = block) :
    after.Replays args checkpoint := by
  obtain ⟨genesis, start, replayed⟩ := replays.replay
  obtain ⟨⟨new, added⟩, tree, store⟩ := commits
  refine ⟨consistent, ⟨genesis, start, ?_⟩, ?_⟩
  · rw [store, tree, foldlM_concat_eq_ok]
    refine ⟨service.tree, replayed, ?_⟩
    simp only [replayBlock, bind_eq_ok, pure_eq_ok, and_true]
    exact ⟨new, added⟩
  · intro other inside
    rw [store] at inside
    rcases List.mem_append.mp inside with old | last
    · exact replays.built other old
    · rw [List.mem_singleton.mp last]
      exact complete

/-- One call keeps the replay: what it changes in the tree it appends to the
store. -/
theorem Replays.call
    (replays : service.Replays args checkpoint)
    (next : Call) :
    Replays args checkpoint (service.call next).2 := by
  have later : Consistent args checkpoint (service.call next).2 := replays.consistent.call next
  have cases := replays.consistent.call_cases next
  rcases cases with ⟨_, keeps⟩ | ⟨_, data, block, decoded, commits⟩ | ⟨block, onHead, _, commits⟩
  · refine ⟨later, ?_, ?_⟩
    · rw [keeps.store, keeps.tree]
      exact replays.replay
    · rw [keeps.store]
      exact replays.built
  · exact replays.commits later commits (postInit_of_decodeBlock decoded)
  · obtain ⟨wallet, transactions, sealedBy⟩ := onHead
    exact replays.commits later commits sealedBy.postInit_eq

/-- Any sequence of calls keeps the replay. -/
theorem Replays.run
    (replays : service.Replays args checkpoint)
    (calls : List Call) :
    Replays args checkpoint (service.run calls) := by
  induction calls generalizing service with
  | nil => exact replays
  | cons next rest inductionHypothesis => exact inductionHypothesis (replays.call next)

/-- A node that starts on a directory without blocks has replayed nothing. -/
theorem replays_start
    {fresh : BlockStore}
    {validator : Option Wallet}
    {autoproduce : Bool}
    (empty : fresh.blocks = none)
    (started : ofStore fresh validator autoproduce checkpoint = .ok service) :
    ∃ args, fresh.genesisParams = .ok args ∧ service.Replays args checkpoint := by
  obtain ⟨args, blocks, params, read, initialised⟩ := (ofStore_eq_ok _ _ _ _ _).mp started
  have nothing := BlockStore.iterBlocks_of_empty empty
  obtain rfl := Except.ok.inj (nothing.symm.trans read)
  have reachable : Reachable args checkpoint service := .init initialised
  obtain ⟨genesis, tree, start, replayed, rfl⟩ := (init_eq_ok _ _ _ _ _ _).mp initialised
  refine ⟨args, params, reachable.consistent, ⟨genesis, start, replayed⟩, ?_⟩
  intro block inside
  cases inside

/-- A node starts on a new directory when the tree accepts the parameters. -/
theorem ofStore_writeGenesis
    {fresh : BlockStore}
    {genesis : BlockTree}
    (initialised : BlockStore.writeGenesis none args = .ok fresh)
    (reads : Primitives.jsonLoads fresh.genesis = some (genesisPayload args).sorted)
    (accepted : BlockTree.init args.keySorted checkpoint = .ok genesis)
    (validator : Option Wallet)
    (autoproduce : Bool) :
    ofStore fresh validator autoproduce checkpoint =
      .ok { tree := genesis, mempool := .init, validator, autoproduce, store := [] } := by
  have params := genesisParams_writeGenesis initialised reads
  have nothing : fresh.iterBlocks = .ok [] :=
    BlockStore.iterBlocks_of_empty (BlockStore.blocks_writeGenesis initialised)
  exact (ofStore_eq_ok _ _ _ _ _).mpr ⟨_, [], params, nothing,
    (init_eq_ok _ _ _ _ _ _).mpr ⟨genesis, genesis, accepted, rfl, rfl⟩⟩

/-! ## The restart -/

/-- After any calls to a node on a new directory, a new node on the same
directory and with the same checkpoint starts without an exception and has the
same tree: blocks, parents, heights, weights, head, finalized checkpoint and
canonical chain with its state. -/
theorem restart_equivalence
    {fresh : BlockStore}
    {start : NodeService}
    {validator : Option Wallet}
    {autoproduce : Bool}
    (initialised : BlockStore.writeGenesis none args = .ok fresh)
    (started : ofStore fresh validator autoproduce checkpoint = .ok start)
    (calls : List Call)
    (reads : ∀ block ∈ (start.run calls).store, BlockStore.ReadsBack block)
    (laterValidator : Option Wallet)
    (laterAutoproduce : Bool) :
    ∃ restarted,
      ofStore ((start.run calls).written fresh) laterValidator laterAutoproduce checkpoint =
        .ok restarted ∧
      restarted.tree = (start.run calls).tree ∧ restarted.store = (start.run calls).store := by
  have empty := BlockStore.blocks_writeGenesis initialised
  obtain ⟨found, params, replays⟩ := replays_start empty started
  have ran := replays.run calls
  obtain ⟨genesis, begun, replayed⟩ := ran.replay
  have holds : ((start.run calls).written fresh).text =
      logText '\n' ((start.run calls).store.map BlockStore.line) ++ [] := by
    rw [written, BlockStore.text_foldl_append, BlockStore.text, empty, List.append_nil]
    rfl
  have read := BlockStore.iterBlocks_of_text holds rfl reads ran.built
  have sameParams : ((start.run calls).written fresh).genesisParams = .ok found := by
    rw [written, BlockStore.genesisParams_foldl_append, params]
  refine ⟨_, (ofStore_eq_ok _ _ _ _ _).mpr ⟨found, _, sameParams, read,
    (init_eq_ok _ _ _ _ _ _).mpr ⟨genesis, _, begun, replayed, rfl⟩⟩, rfl, rfl⟩

end NodeService

end

/-! ## A node that produced and refused -/

namespace RestartSample

open NodeService

attribute [local instance] Symbolic.reading

/-- One validator. -/
def args : GenesisArgs where
  allocations := Dict.empty.set (Symbolic.wallet 1).address MAX_SUPPLY_UNITS
  initialStakes := Dict.empty.set (Symbolic.wallet 1).address 500

/-- Its new directory. -/
def fresh : BlockStore where
  genesis := jsonDumps (genesisPayload args).sorted
  blocks := none

theorem accepted : succeeded (BlockTree.init args.keySorted) = true := by decide +kernel

/-- The node that starts on it. -/
def start : NodeService where
  tree := outcome (BlockTree.init args.keySorted) accepted
  mempool := .init
  validator := some (Symbolic.wallet 1)
  autoproduce := false
  store := []

theorem started : ofStore fresh (some (Symbolic.wallet 1)) = .ok start := by
  have reads : Primitives.jsonLoads fresh.genesis = some (genesisPayload args).sorted :=
    Json.read_render _ (List.forall_mem_singleton.mpr rfl) (readable_genesisPayload args).sorted
  exact ofStore_writeGenesis rfl reads (eq_ok_outcome _ accepted) _ _

/-- Two blocks of its own, and something that is no block between them. -/
def calls : List Call :=
  [.produceBlock 1700000010 0, .receiveBlock .null, .produceBlock 1700000020 0]

theorem stored : (start.run calls).store.length = 2 := by decide +kernel

/-- The directory holds two blocks, and a node without a key starts on it with
the same tree. -/
theorem restart_equivalence_sample :
    ∃ restarted, ofStore ((start.run calls).written fresh) none false none = .ok restarted ∧
      restarted.tree = (start.run calls).tree ∧ restarted.store.length = 2 := by
  have reads : ∀ block ∈ (start.run calls).store, BlockStore.ReadsBack block := by
    intro block _
    exact Json.read_render _ (List.forall_mem_singleton.mpr rfl) (readable_encodeBlock block)
  obtain ⟨restarted, begun, tree, store⟩ := restart_equivalence rfl started calls reads none false
  refine ⟨restarted, begun, tree, ?_⟩
  rw [store, stored]

end RestartSample

end Mindees
