import Mindees.Consensus.Embedding
import Mindees.Library.Runs
import Mindees.Node.Untyped

/-!
# How much waits for a parent

A block whose parent is unknown is kept until the parent arrives.  The bound on
the buffer counts the parents that are waited for, so what it holds grows with
every new block that names a parent that is waited for already.
-/

namespace Mindees

open Library

namespace Untyped

namespace P2PNode

/-- How many blocks wait, over all parents. -/
def held (orphans : Dict Json.HashKey (List Json)) : Int :=
  orphans.sumBy fun _ waiting => (waiting.length : Int)

/-- How many blocks wait at a node. -/
def buffered (node : P2PNode) : Int := held node.orphans

theorem held_erase
    (orphans : Dict Json.HashKey (List Json))
    (parent : Json.HashKey) :
    held (orphans.erase parent) =
      held orphans - ((orphans.get? parent).map fun waiting => (waiting.length : Int)).getD 0 := by
  rw [held, Dict.sumBy_erase, Dict.quantityAt]
  cases orphans.get? parent <;> rfl

/-- A block that waits adds one. -/
theorem held_set
    (orphans : Dict Json.HashKey (List Json))
    (parent : Json.HashKey)
    (data : Json) :
    held (orphans.set parent (orphans.getD parent [] ++ [data])) = held orphans + 1 := by
  rw [held, held, Dict.sumBy_set, Dict.quantityAt, Dict.getD]
  cases orphans.get? parent with
  | none => simp
  | some waiting => simp; ring

/-- No list is empty, and what is held is the parents and so many blocks more at most. -/
structure Crowding (extra : Nat) (orphans : Dict Json.HashKey (List Json)) : Prop where
  waited : ∀ parent waiting, orphans.get? parent = some waiting → waiting ≠ []
  held_le : held orphans ≤ orphans.size + extra

theorem Crowding.erase
    {extra : Nat}
    {orphans : Dict Json.HashKey (List Json)}
    (crowding : Crowding extra orphans)
    (parent : Json.HashKey) :
    Crowding extra (orphans.erase parent) ∧ held (orphans.erase parent) ≤ held orphans := by
  have waited : ∀ other waiting, (orphans.erase parent).get? other = some waiting →
      waiting ≠ [] := by
    intro other waiting found
    rw [Dict.get?_erase] at found
    split_ifs at found
    exact crowding.waited other waiting found
  have bound := crowding.held_le
  cases found : orphans.get? parent with
  | none =>
      rw [Dict.erase_of_none found]
      exact ⟨crowding, le_rfl⟩
  | some waiting =>
      have less := orphans.size_erase found
      have some_wait : 0 < waiting.length := List.length_pos_iff.mpr (crowding.waited _ _ found)
      have gone := held_erase orphans parent
      rw [found, Option.map_some, Option.getD_some] at gone
      exact ⟨⟨waited, by omega⟩, by omega⟩

/-- One more block for a parent: a parent more, or a block more than parents. -/
theorem Crowding.set
    {extra : Nat}
    {orphans : Dict Json.HashKey (List Json)}
    (crowding : Crowding extra orphans)
    (parent : Json.HashKey)
    (data : Json) :
    Crowding (extra + if orphans.contains parent then 1 else 0)
      (orphans.set parent (orphans.getD parent [] ++ [data])) := by
  refine ⟨fun other waiting found => ?_, ?_⟩
  · rw [Dict.get?_set] at found
    split_ifs at found
    · rw [← Option.some.inj found]
      simp
    · exact crowding.waited other waiting found
  · have bound := crowding.held_le
    rw [held_set, Dict.size_set_eq]
    split_ifs <;> push_cast <;> omega

variable [Primitives] {node : P2PNode} {delivery : Delivery} {deliveries : List Delivery}
  {block : Block} {id : Str} {parent : Json.HashKey}

/-! ## What one message does -/

/-- The parent for which a message makes a node keep a block: the block is new, the tree does
not know its parent, and fewer parents than the bound are waited for. -/
def keepsFor (node : P2PNode) (delivery : Delivery) : Option Json.HashKey :=
  match Json.field delivery.msg Key.type with
  | some (.str kind) =>
      if kind = Key.block then
        match decodeBlock (carried delivery.msg) with
        | .error _ => none
        | .ok block =>
            match blockWireId block, node.service.tree.knows block.previousHash with
            | .ok id, .ok false =>
                if node.seenBlock.contains id = false ∧ node.orphans.size < MAX_ORPHANS then
                  block.previousHash.hashKey
                else none
            | _, _ => none
      else none
  | _ => none

/-- The message makes the node keep a block whose parent is waited for already. -/
def crowds (node : P2PNode) (delivery : Delivery) : Bool :=
  match node.keepsFor delivery with
  | some parent => node.orphans.contains parent
  | none => false

/-- How many blocks of a run were kept for a parent that was waited for already. -/
def crowded : P2PNode → List Delivery → Nat
  | _, [] => 0
  | node, delivery :: rest =>
      (if node.crowds delivery then 1 else 0) + crowded (node.onMessage delivery).2 rest

/-- A block that is kept waits behind those that wait for its parent. -/
theorem onMessage_of_keepsFor
    (keeps : node.keepsFor delivery = some parent) :
    (node.onMessage delivery).2.orphans =
        node.orphans.set parent (node.orphans.getD parent [] ++ [carried delivery.msg]) ∧
      (node.onMessage delivery).2.service = node.service ∧ node.orphans.size < MAX_ORPHANS := by
  unfold keepsFor at keeps
  split at keeps
  · rename_i kind type
    split_ifs at keeps with isBlock
    subst isBlock
    split at keeps
    · cases keeps
    · rename_i block decoded
      split at keeps
      · rename_i id identified unknown
        split_ifs at keeps with new
        have unseen : ¬node.seenBlock.contains id = true := by
          rw [new.1]
          exact Bool.false_ne_true
        rw [onMessage_block node type, onBlock_eq node decoded identified, if_neg unseen]
        simp only [applyOrBuffer, keeps, unknown, ne_eq, reduceCtorEq, Except.ok.injEq,
          not_false_eq_true, if_true, buffer, and_self, new.2]
      · cases keeps
  · cases keeps

/-- A message that keeps no block leaves what waits alone, or brings a block that the tree
accepts. -/
theorem onMessage_of_keepsFor_none
    (node : P2PNode)
    (keeps : node.keepsFor delivery = none) :
    (node.onMessage delivery).2.orphans = node.orphans ∨
      ∃ (marked : P2PNode) (block : Block), marked.orphans = node.orphans ∧
        marked.service = node.service ∧ decodeBlock (carried delivery.msg) = .ok block ∧
        (node.service.tree.addBlock block).1 = .ok true ∧
        (node.onMessage delivery).2 =
          (applyOrBuffer delivery.broadcast marked block (carried delivery.msg)).2 := by
  by_cases isBlock : IsBlock delivery.msg
  · rw [onMessage_block node isBlock]
    unfold keepsFor at keeps
    rw [IsBlock] at isBlock
    simp only [isBlock, if_true] at keeps
    cases decoded : decodeBlock (carried delivery.msg) with
    | error error => simp only [onBlock, decoded, true_or]
    | ok block =>
        cases identified : blockWireId block with
        | error error => simp only [onBlock, decoded, identified, true_or]
        | ok id =>
            simp only [decoded, identified] at keeps
            rw [onBlock_eq node decoded identified]
            split_ifs with seen
            · exact .inl rfl
            · set marked : P2PNode :=
                { node with seenBlock := (Mindees.P2PNode.remember node.seenBlock id).2 }
              by_cases accepted : (node.service.tree.addBlock block).1 = .ok true
              · exact .inr ⟨marked, block, rfl, rfl, rfl, accepted, rfl⟩
              · left
                rcases applyOrBuffer_of_refused delivery.broadcast marked decoded accepted
                  with ⟨same, _⟩ | ⟨parent, unknown, hashable, waits⟩
                · exact same
                · rw [waits, buffer]
                  split_ifs with room
                  · have looked : node.service.tree.knows block.previousHash = .ok false := unknown
                    rw [looked] at keeps
                    dsimp only at keeps
                    rw [if_pos ⟨eq_false_of_ne_true seen, room⟩, hashable] at keeps
                    cases keeps
                  · rfl
  · exact .inl (orphans_onMessage node isBlock)

/-- What popping a parent keeps, a message that keeps no block keeps. -/
theorem keptByPops
    (property : Dict Json.HashKey (List Json) → Prop)
    (pops : ∀ orphans parent, property orphans → property (orphans.erase parent))
    (keeps : node.keepsFor delivery = none)
    (holds : property node.orphans) :
    property (node.onMessage delivery).2.orphans := by
  have kept : KeptByReleases fun after => property after.orphans :=
    ⟨fun _ holds => holds, fun parent => pops _ parent⟩
  rcases node.onMessage_of_keepsFor_none keeps with
    same | ⟨marked, block, same, service, _, accepted, after⟩
  · rwa [same]
  · rw [after]
    refine kept.applyOrBuffer (fun parent unknown _ => ?_) (same ▸ holds)
    rw [service] at unknown
    exact absurd (BlockTree.of_accepted accepted).2.1 unknown

/-- A message that keeps no block and leaves the weights alone leaves what waits alone. -/
theorem orphans_onMessage_of_weight
    (keeps : node.keepsFor delivery = none)
    (unchanged : (node.onMessage delivery).2.service.tree.weight = node.service.tree.weight) :
    (node.onMessage delivery).2.orphans = node.orphans := by
  rcases node.onMessage_of_keepsFor_none keeps with
    same | ⟨marked, block, _, service, decoded, accepted, after⟩
  · exact same
  · have new := (BlockTree.of_accepted accepted).1
    have stored := kept_applyOrBuffer delivery.broadcast marked decoded
      (by rw [service]; exact accepted)
    rw [← after] at stored
    rw [← unchanged, stored.2] at new
    cases new

/-! ## Runs -/

theorem crowded_concat
    (node : P2PNode)
    (earlier : List Delivery)
    (delivery : Delivery) :
    node.crowded (earlier ++ [delivery]) =
      node.crowded earlier + if (node.hear earlier).crowds delivery then 1 else 0 := by
  induction earlier generalizing node with
  | nil =>
      rw [List.nil_append, crowded, crowded, crowded, hear_nil]
      exact Nat.add_comm _ _
  | cons first rest inductionHypothesis =>
      rw [List.cons_append, crowded, crowded, inductionHypothesis, hear_cons, Nat.add_assoc]

theorem crowds_eq
    (node : P2PNode)
    (keeps : node.keepsFor delivery = some parent) :
    node.crowds delivery = node.orphans.contains parent := by
  rw [crowds, keeps]

theorem crowds_of_none
    (node : P2PNode)
    (keeps : node.keepsFor delivery = none) :
    node.crowds delivery = false := by
  rw [crowds, keeps]

/-- If the next message keeps a block, the parents that are waited for and the blocks of the run
that were kept for a parent already waited for are together below the bound. -/
def HasRoom (node : P2PNode) (earlier : List Delivery) (delivery : Delivery) : Prop :=
  (node.hear earlier).keepsFor delivery ≠ none →
    (node.hear earlier).orphans.size + node.crowded earlier < MAX_ORPHANS

/-- As long as there was room, what waits is the parents and the blocks that crowded at most. -/
theorem crowding_hear
    (empty : node.orphans = Dict.empty)
    (rooms : ∀ earlier delivery later, deliveries = earlier ++ delivery :: later →
      node.HasRoom earlier delivery) :
    Crowding (node.crowded deliveries) (node.hear deliveries).orphans ∧
      held (node.hear deliveries).orphans ≤ MAX_ORPHANS := by
  induction deliveries using List.reverseRecOn with
  | nil =>
      rw [hear_nil, empty]
      have waited : ∀ parent waiting,
          (Dict.empty : Dict Json.HashKey (List Json)).get? parent = some waiting →
            waiting ≠ [] := by
        intro _ _ found
        cases found
      exact ⟨⟨waited, Int.le_refl 0⟩, by decide⟩
  | append_singleton earlier delivery inductionHypothesis =>
      obtain ⟨crowding, bounded⟩ := inductionHypothesis fun first next last split =>
        rooms first next (last ++ [delivery]) (by rw [split]; simp)
      have room := rooms earlier delivery [] rfl
      rw [crowded_concat, hear_append, hear_cons, hear_nil]
      cases keeps : (node.hear earlier).keepsFor delivery with
      | none =>
          rw [(node.hear earlier).crowds_of_none keeps]
          exact keptByPops (fun orphans => Crowding _ orphans ∧ held orphans ≤ _)
            (fun orphans parent holds =>
              ⟨(holds.1.erase parent).1, (holds.1.erase parent).2.trans holds.2⟩)
            keeps ⟨crowding, bounded⟩
      | some parent =>
          obtain ⟨waits, _, _⟩ := onMessage_of_keepsFor keeps
          have below := room (by rw [keeps]; simp)
          have most := crowding.held_le
          rw [waits, (node.hear earlier).crowds_eq keeps, held_set]
          exact ⟨crowding.set parent _, by omega⟩

/-- In a run that stores nothing, what waits is exactly that. -/
theorem held_hear
    (deliveries : List Delivery)
    (empty : node.orphans = Dict.empty)
    (unchanged : ∀ earlier, earlier <+: deliveries →
      (node.hear earlier).service.tree.weight = node.service.tree.weight) :
    held (node.hear deliveries).orphans =
      (node.hear deliveries).orphans.size + node.crowded deliveries := by
  induction deliveries using List.reverseRecOn with
  | nil =>
      rw [hear_nil, empty]
      rfl
  | append_singleton earlier delivery inductionHypothesis =>
      have before := unchanged earlier (List.prefix_append earlier [delivery])
      have after := unchanged (earlier ++ [delivery]) List.prefix_rfl
      have start := inductionHypothesis fun first inside =>
        unchanged first (inside.trans (List.prefix_append earlier [delivery]))
      rw [hear_append, hear_cons, hear_nil] at after ⊢
      rw [crowded_concat]
      cases keeps : (node.hear earlier).keepsFor delivery with
      | none =>
          rw [(node.hear earlier).crowds_of_none keeps,
            orphans_onMessage_of_weight keeps (after.trans before.symm), start]
          simp
      | some parent =>
          obtain ⟨waits, _, _⟩ := onMessage_of_keepsFor keeps
          rw [waits, (node.hear earlier).crowds_eq keeps, held_set, Dict.size_set_eq, start]
          split_ifs <;> push_cast <;> ring

/-- The buffer stays within its bound in every state of a run whose messages find room, and in a
run that stores nothing only in such a run. -/
theorem buffer_bounded_iff
    (empty : node.orphans = Dict.empty)
    (deliveries : List Delivery) :
    ((∀ earlier delivery later, deliveries = earlier ++ delivery :: later →
        node.HasRoom earlier delivery) →
      ∀ earlier, earlier <+: deliveries → (node.hear earlier).buffered ≤ MAX_ORPHANS) ∧
    ((∀ earlier, earlier <+: deliveries →
        (node.hear earlier).service.tree.weight = node.service.tree.weight) →
      ((∀ earlier, earlier <+: deliveries → (node.hear earlier).buffered ≤ MAX_ORPHANS) ↔
        ∀ earlier delivery later, deliveries = earlier ++ delivery :: later →
          node.HasRoom earlier delivery)) := by
  have enough : (∀ earlier delivery later, deliveries = earlier ++ delivery :: later →
      node.HasRoom earlier delivery) →
      ∀ earlier, earlier <+: deliveries → (node.hear earlier).buffered ≤ MAX_ORPHANS := by
    rintro rooms earlier ⟨rest, rfl⟩
    refine (crowding_hear empty fun first next last split => ?_).2
    exact rooms first next (last ++ rest) (by rw [split]; simp)
  refine ⟨enough, fun unchanged => ⟨?_, enough⟩⟩
  rintro bounded earlier delivery later rfl keeps
  obtain ⟨parent, keeps⟩ := Option.ne_none_iff_exists'.mp keeps
  obtain ⟨waits, _, _⟩ := onMessage_of_keepsFor keeps
  have here := held_hear earlier empty fun first inside =>
    unchanged first (inside.trans (List.prefix_append _ _))
  have next := bounded (earlier ++ [delivery]) (by simp)
  rw [hear_append, hear_cons, hear_nil, buffered, waits, held_set, here] at next
  omega

/-! ## One parent, many blocks -/

/-- The node waits for one unknown parent at most. -/
structure WaitsFor (hash : Str) (node : P2PNode) : Prop where
  unknown : node.service.tree.weight.contains hash = false
  only : ∀ other value, node.orphans.get? other = some value → other = .str hash

omit [Primitives] in
theorem WaitsFor.room
    {hash : Str}
    (waits : WaitsFor hash node) :
    node.orphans.size < MAX_ORPHANS := by
  by_contra full
  have several : 1 < node.orphans.size := by
    have : 1 < MAX_ORPHANS := by decide
    omega
  obtain ⟨other, value, different, found⟩ := Dict.exists_other_key several (.str hash)
  exact different (waits.only other value found).symm

/-- A new block that names the parent waits for it, and the node for no other. -/
theorem WaitsFor.onMessage
    {hash : Str}
    (waits : WaitsFor hash node)
    (isBlock : IsBlock delivery.msg)
    (decoded : decodeBlock (carried delivery.msg) = .ok block)
    (names : block.previousHash = .str hash)
    (identified : blockWireId block = .ok id)
    (unseen : node.seenBlock.contains id = false) :
    WaitsFor hash (node.onMessage delivery).2 ∧
      (node.onMessage delivery).2.buffered = node.buffered + 1 ∧
      (node.onMessage delivery).2.service = node.service := by
  have looked : node.service.tree.knows (.str hash) = .ok false := by
    rw [BlockTree.knows, waits.unknown]
  have keeps : node.keepsFor delivery = some (.str hash) := by
    rw [IsBlock] at isBlock
    simp only [keepsFor, isBlock, decoded, identified, names, looked, if_true, unseen, true_and,
      waits.room]
    rfl
  obtain ⟨orphans, service, _⟩ := onMessage_of_keepsFor keeps
  refine ⟨⟨by rw [service]; exact waits.unknown, fun other value found => ?_⟩, ?_, service⟩
  · rw [orphans, Dict.get?_set] at found
    split_ifs at found with same
    · exact same.symm
    · exact waits.only other value found
  · rw [buffered, buffered, orphans, held_set]

/-- New blocks that name one unknown parent fill the buffer without end. -/
theorem WaitsFor.hear
    {hash : Str}
    (waits : WaitsFor hash node)
    (blocks : List Mindees.Block)
    (built : ∀ block ∈ blocks, block.postInit = block ∧ block.previousHash = hash)
    (unseen : ∀ block ∈ blocks, node.seenBlock.contains (Mindees.blockWireId block) = false)
    (distinct : (blocks.map Mindees.blockWireId).Nodup) :
    (node.hear (blocks.map fun block => ⟨blockMessage block.encodeBlock, .ok ()⟩)).buffered =
        node.buffered + blocks.length ∧
      (node.hear (blocks.map fun block => ⟨blockMessage block.encodeBlock, .ok ()⟩)).service =
        node.service := by
  induction blocks generalizing node with
  | nil => simp
  | cons block rest inductionHypothesis =>
      obtain ⟨⟨whole, names⟩, others⟩ := List.forall_mem_cons.mp built
      obtain ⟨new, laterUnseen⟩ := List.forall_mem_cons.mp unseen
      rw [List.map_cons, List.nodup_cons] at distinct
      set delivery : Delivery := ⟨blockMessage block.encodeBlock, .ok ()⟩
      have isBlock : IsBlock delivery.msg := isBlock_blockMessage block.encodeBlock
      have decoded : decodeBlock (carried delivery.msg) = .ok (.ofTyped block) :=
        @decodeBlock_of_typed _ block.encodeBlock _ (by rw [decodeBlock_encodeBlock, whole])
      have identified : blockWireId (.ofTyped block) = .ok (Mindees.blockWireId block) := rfl
      obtain ⟨still, grown, service⟩ :=
        waits.onMessage isBlock decoded (by rw [← names]; rfl) identified new
      have later : ∀ other ∈ rest, (node.onMessage delivery).2.seenBlock.contains
          (Mindees.blockWireId other) = false := by
        intro other inside
        rw [node.seenBlock_onMessage isBlock decoded identified, Bool.eq_false_iff]
        intro known
        rcases Mindees.P2PNode.contains_of_remember known with before | same
        · exact Bool.false_ne_true ((laterUnseen other inside).symm.trans before)
        · exact distinct.1 (same ▸ List.mem_map_of_mem inside)
      obtain ⟨count, kept⟩ := inductionHypothesis still others later distinct.2
      rw [List.map_cons, hear_cons, count, kept, grown, service, List.length_cons]
      refine ⟨?_, rfl⟩
      push_cast
      ring

end P2PNode

end Untyped

/-! ## Five thousand and one siblings -/

namespace OrphanBufferSample

open Untyped Untyped.P2PNode

/-- The stand-in primitives with a hash function that keeps everything. -/
@[reducible] def verbatim : Primitives := { Symbolic.primitives with sha256 := id }

attribute [local instance] verbatim

def args : GenesisArgs where
  allocations := Dict.empty.set (Symbolic.wallet 1).address MAX_SUPPLY_UNITS
  initialStakes := Dict.empty.set (Symbolic.wallet 1).address 500

theorem treeBuilt : succeeded (Untyped.BlockTree.init args) = true := by decide +kernel

@[irreducible] def tree : Untyped.BlockTree := outcome (Untyped.BlockTree.init args) treeBuilt

/-- A node that has heard nothing yet. -/
def node : Untyped.P2PNode := .init { tree, mempool := .init, store := [] }

/-- A block on a parent that nobody knows, told from its siblings by the length of its seal. -/
def sibling (number : Nat) : Mindees.Block where
  index := 2
  previousHash := ['f']
  timestamp := 0
  transactions := []
  validator := []
  merkleRoot := ['f']
  validatorSig := List.replicate number 'a'

theorem blockWireId_sibling_injective :
    Function.Injective fun number => Mindees.blockWireId (sibling number) := by
  have length : ∀ number, (((sibling number).hash ++ (sibling number).validatorSig ++
      (sibling number).proposerPubkey).flatMap String.utf8EncodeChar).length =
      ((sibling 0).hash.flatMap String.utf8EncodeChar).length + number := by
    intro number
    have hash : (sibling number).hash = (sibling 0).hash := rfl
    have letter : 'a'.utf8Size = 1 := by decide
    rw [hash, List.flatMap_append, List.flatMap_append, List.length_append, List.length_append]
    simp [sibling, letter]
  intro left right same
  have encoded : ((sibling left).hash ++ (sibling left).validatorSig ++
      (sibling left).proposerPubkey).flatMap String.utf8EncodeChar =
      ((sibling right).hash ++ (sibling right).validatorSig ++
        (sibling right).proposerPubkey).flatMap String.utf8EncodeChar := hex_injective same
  have lengths := congrArg List.length encoded
  rw [length, length] at lengths
  omega

/-- The messages with the siblings, sent on to peers that all listen. -/
def siblings (count : Nat) : List Delivery :=
  ((List.range count).map sibling).map fun block => ⟨blockMessage block.encodeBlock, .ok ()⟩

theorem waits : WaitsFor ['f'] node where
  unknown := by decide +kernel
  only other value found := by cases found

theorem hear_siblings
    (count : Nat) :
    (node.hear (siblings count)).buffered = count ∧
      (node.hear (siblings count)).service = node.service := by
  have start : node.buffered = 0 := rfl
  have distinct : (((List.range count).map sibling).map Mindees.blockWireId).Nodup := by
    rw [List.map_map]
    exact List.nodup_range.map blockWireId_sibling_injective
  have built : ∀ block ∈ (List.range count).map sibling,
      block.postInit = block ∧ block.previousHash = ['f'] := by
    intro block inside
    obtain ⟨number, _, rfl⟩ := List.mem_map.mp inside
    exact ⟨rfl, rfl⟩
  obtain ⟨all, kept⟩ := waits.hear _ built (fun _ _ => rfl) distinct
  refine ⟨all.trans ?_, kept⟩
  rw [start]
  simp

/-- A parent that is named often enough outgrows the bound. -/
theorem buffer_overfilled :
    (node.hear (siblings 5001)).buffered = 5001 ∧
      ¬(node.hear (siblings 5001)).buffered ≤ MAX_ORPHANS := by
  rw [(hear_siblings 5001).1]
  decide

theorem siblings_initial
    {count : Nat}
    {earlier : List Delivery}
    (inside : earlier <+: siblings count) :
    earlier = siblings earlier.length := by
  have short : earlier.length ≤ count := by
    have := inside.length_le
    simpa [siblings] using this
  have taken := List.prefix_iff_eq_take.mp inside
  rw [taken, siblings, siblings, ← List.map_take, ← List.map_take, List.take_range,
    min_eq_left short]
  simp

/-- One sibling less stays within it. -/
theorem buffer_bounded_iff_calm : (node.hear (siblings 5000)).buffered ≤ MAX_ORPHANS := by
  refine (buffer_bounded_iff rfl (siblings 5000)).1 ?_ (siblings 5000) List.prefix_rfl
  intro earlier delivery later split _
  have inside : earlier <+: siblings 5000 := ⟨delivery :: later, split.symm⟩
  have short : earlier.length < 5000 := by
    have := congrArg List.length split
    simp [siblings] at this
    omega
  have waiting := @held_hear _ node earlier rfl fun first front => by
    rw [siblings_initial (front.trans inside), (hear_siblings first.length).2]
  have all := (hear_siblings earlier.length).1
  rw [← siblings_initial inside] at all
  rw [buffered, waiting] at all
  have bound : MAX_ORPHANS = 5000 := rfl
  omega

end OrphanBufferSample

end Mindees
