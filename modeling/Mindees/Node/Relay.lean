import Mindees.Node.BlockMessages
import Mindees.Node.OutOfOrder

/-!
# Relayed blocks

What a peer sends on while it handles a block: every block that its tree accepts, and
nothing else.
-/

namespace Mindees

open Library

namespace P2PNode

section

variable [Primitives]

/-! ## What is sent -/

/-- The blocks broadcast while waiting blocks are released. -/
def drainLoopSends
    (drain : P2PNode → Str → Except Error Unit × P2PNode)
    (sends : P2PNode → Str → List Json) : List Json → P2PNode → List Json
  | [], _ => []
  | data :: rest, node =>
      match decodeBlock data with
      | .error _ => []
      | .ok child =>
          match node.receiveBlock data with
          | (.error error, node) =>
              if error.isValidation then drainLoopSends drain sends rest node else []
          | (.ok receipt, node) =>
              if receipt.accepted then
                data :: sends node child.hash ++
                  match drain node child.hash with
                  | (.error _, _) => []
                  | (.ok _, node) => drainLoopSends drain sends rest node
              else drainLoopSends drain sends rest node

/-- The blocks broadcast while the blocks that waited for a parent are released. -/
def drainSends : (fuel : Nat) → P2PNode → Str → List Json
  | fuel, node, parent =>
      match node.orphans.get? parent with
      | none => []
      | some waiting =>
          match fuel with
          | 0 => []
          | fuel + 1 =>
              drainLoopSends (drainOrphans fuel) (drainSends fuel) waiting
                { node with orphans := node.orphans.erase parent }

/-- The blocks broadcast while a block is handed over.  For one whose parent is unknown
the peers are asked to send blocks. -/
def applySends (node : P2PNode) (block : Block) (data : Json) : List Json :=
  if node.service.tree.weight.contains block.previousHash = false then []
  else
    match node.receiveBlock data with
    | (.error _, _) => []
    | (.ok receipt, node) =>
        if receipt.accepted then data :: drainSends Primitives.nesting node block.hash else []

/-- The blocks broadcast while a block message is handled. -/
def blockSends (node : P2PNode) (data : Json) : List Json :=
  match decodeBlock data with
  | .error _ => []
  | .ok block =>
      let (new, seenBlock) := remember node.seenBlock (blockWireId block)
      if new = false then [] else applySends { node with seenBlock } block data

/-! ## Reports -/

/-- What was sent is what the tree accepted, each block once. -/
structure Reports (fits : Block → Prop) (before after : BlockTree) (sent : List Json) :
    Prop where
  valid : ∀ data ∈ sent, ∃ block, fits block ∧ decodeBlock data = .ok block
  new : ∀ data ∈ sent, ∀ block, decodeBlock data = .ok block →
    before.weight.contains block.hash = false
  knows : ∀ hash, after.weight.contains hash = true ↔
    before.weight.contains hash = true ∨
      ∃ data ∈ sent, ∃ block, decodeBlock data = .ok block ∧ block.hash = hash
  apart : (sent.map fun data => (decodeBlock data).toOption.map Block.hash).Nodup

namespace Reports

variable {fits : Block → Prop} {first second third : BlockTree} {sent more : List Json}

theorem refl (tree : BlockTree) : Reports fits tree tree [] where
  valid _ inside := absurd inside List.not_mem_nil
  new _ inside := absurd inside List.not_mem_nil
  knows hash := by simp
  apart := List.nodup_nil

theorem trans
    (one : Reports fits first second sent)
    (two : Reports fits second third more) :
    Reports fits first third (sent ++ more) where
  valid := List.forall_mem_append.mpr ⟨one.valid, two.valid⟩
  new := by
    refine List.forall_mem_append.mpr ⟨one.new, fun data inside block decoded => ?_⟩
    have unknown := two.new data inside block decoded
    rw [← Bool.not_eq_true] at unknown ⊢
    exact fun known => unknown ((one.knows _).mpr (.inl known))
  knows hash := by
    rw [two.knows, one.knows, or_assoc]
    simp only [List.mem_append, or_and_right, exists_or]
  apart := by
    rw [List.map_append]
    refine one.apart.append two.apart ?_
    intro hash inside insideToo
    obtain ⟨data, member, rfl⟩ := List.mem_map.mp inside
    obtain ⟨other, otherMember, same⟩ := List.mem_map.mp insideToo
    obtain ⟨block, _, decoded⟩ := one.valid data member
    obtain ⟨otherBlock, _, otherDecoded⟩ := two.valid other otherMember
    rw [decoded, otherDecoded] at same
    have hashes : otherBlock.hash = block.hash := Option.some.inj same
    have unknown := two.new other otherMember otherBlock otherDecoded
    rw [hashes, (one.knows _).mpr (.inr ⟨data, member, block, decoded, rfl⟩)] at unknown
    cases unknown

/-- A call of the tree reports the block, if it is accepted. -/
theorem addBlock
    {data : Json}
    {block : Block}
    (invariant : first.Invariant)
    (member : fits block)
    (decoded : decodeBlock data = .ok block) :
    ((first.addBlock block).1 = .ok true → Reports fits first (first.addBlock block).2 [data]) ∧
      ((first.addBlock block).1 ≠ .ok true → Reports fits first (first.addBlock block).2 []) := by
  rcases invariant.addBlock_cases block with ⟨_, known⟩ | ⟨_, _, _, refused⟩ |
    ⟨new, _, _, _, _, _, _, accepted, grows, _⟩
  · rw [known]
    exact ⟨nofun, fun _ => refl first⟩
  · rw [refused]
    exact ⟨nofun, fun _ => refl first⟩
  · refine ⟨fun _ => ⟨?_, ?_, fun hash => ?_, List.nodup_singleton _⟩,
      fun other => absurd accepted other⟩
    · exact List.forall_mem_singleton.mpr ⟨block, member, decoded⟩
    · intro given inside other otherDecoded
      rw [List.mem_singleton.mp inside] at otherDecoded
      rw [← Except.ok.inj (decoded.symm.trans otherDecoded)]
      exact new
    · rw [grows.weight, Dict.contains_set, Bool.or_eq_true, decide_eq_true_iff, or_comm]
      simp [decoded]

end Reports

/-- Every block that waits can be read and fits, and the tree is one that calls lead to. -/
structure Holds (fits : Block → Prop) (node : P2PNode) : Prop where
  invariant : node.service.tree.Invariant
  waiting : ∀ parent, ∀ data ∈ node.orphans.getD parent [],
    ∃ block, fits block ∧ decodeBlock data = .ok block

/-- A call keeps what holds, and reports what the tree accepts in it. -/
structure Relays (fits : Block → Prop) (before after : P2PNode) (sent : List Json) : Prop where
  holds : Holds fits after
  reports : Reports fits before.service.tree after.service.tree sent

variable {fits : Block → Prop} {node after : P2PNode} {data : Json} {block : Block}

theorem Relays.refl (holds : Holds fits node) : Relays fits node node [] :=
  ⟨holds, .refl _⟩

theorem Relays.trans
    {middle : P2PNode}
    {sent more : List Json}
    (one : Relays fits node middle sent)
    (two : Relays fits middle after more) :
    Relays fits node after (sent ++ more) :=
  ⟨two.holds, one.reports.trans two.reports⟩

/-- What the hand-over of a block means for what is sent. -/
theorem Holds.receiveBlock
    (holds : Holds fits node)
    (member : fits block)
    (decoded : decodeBlock data = .ok block) :
    match node.receiveBlock data with
    | (.error _, after) => Relays fits node after []
    | (.ok receipt, after) =>
        Relays fits node after (if receipt.accepted then [data] else []) := by
  have answer := receiveBlock_fst node decoded
  have tree := tree_receiveBlock node decoded
  have orphans : (node.receiveBlock data).2.orphans = node.orphans := rfl
  obtain ⟨whenAccepted, otherwise⟩ := Reports.addBlock holds.invariant member decoded
  have kept := holds.invariant.addBlock block
  rw [← tree] at whenAccepted otherwise kept
  rw [← answer] at whenAccepted otherwise
  generalize node.receiveBlock data = handed at *
  obtain ⟨result, after⟩ := handed
  have holdsAfter : Holds fits after := by
    refine ⟨kept, ?_⟩
    dsimp only at orphans
    rw [orphans]
    exact holds.waiting
  cases result with
  | error error => exact ⟨holdsAfter, otherwise nofun⟩
  | ok receipt =>
      dsimp only
      cases accepted : receipt.accepted with
      | true => exact ⟨holdsAfter, whenAccepted (congrArg Except.ok accepted)⟩
      | false =>
          refine ⟨holdsAfter, otherwise fun same => ?_⟩
          exact Bool.false_ne_true (accepted.symm.trans (Except.ok.inj same))

/-- Releasing waiting blocks reports what is accepted if every nested release does. -/
theorem relays_drainLoop
    {drain : P2PNode → Str → Except Error Unit × P2PNode}
    {sends : P2PNode → Str → List Json}
    (nested : ∀ node parent, Holds fits node →
      Relays fits node (drain node parent).2 (sends node parent))
    {waiting : List Json}
    (ready : ∀ data ∈ waiting, ∃ block, fits block ∧ decodeBlock data = .ok block)
    (holds : Holds fits node) :
    Relays fits node (drainLoop drain waiting node).2
      (drainLoopSends drain sends waiting node) := by
  induction waiting generalizing node with
  | nil => exact .refl holds
  | cons data rest inductionHypothesis =>
      obtain ⟨⟨block, member, decoded⟩, others⟩ := List.forall_mem_cons.mp ready
      have received := holds.receiveBlock member decoded
      rw [drainLoop, drainLoopSends, decoded]
      dsimp only
      generalize node.receiveBlock data = handed at received ⊢
      obtain ⟨result, after⟩ := handed
      cases result with
      | error error =>
          dsimp only at received ⊢
          split_ifs
          · exact received.trans (inductionHypothesis others received.holds)
          · exact received
      | ok receipt =>
          dsimp only at received ⊢
          split_ifs at received ⊢ with accepted
          · have drained := nested after block.hash received.holds
            generalize drain after block.hash = outcome at drained ⊢
            obtain ⟨ended, last⟩ := outcome
            cases ended with
            | error error =>
                dsimp only at drained ⊢
                rw [List.append_nil]
                exact received.trans drained
            | ok _ =>
                dsimp only at drained ⊢
                exact received.trans (drained.trans (inductionHypothesis others drained.holds))
          · exact received.trans (inductionHypothesis others received.holds)

theorem Holds.erase
    (holds : Holds fits node)
    (parent : Str) :
    Holds fits { node with orphans := node.orphans.erase parent } := by
  refine ⟨holds.invariant, fun other data inside => ?_⟩
  rw [Dict.getD_erase] at inside
  split_ifs at inside
  · exact absurd inside List.not_mem_nil
  · exact holds.waiting other data inside

theorem relays_drainOrphans
    (fuel : Nat)
    (parent : Str)
    (holds : Holds fits node) :
    Relays fits node (drainOrphans fuel node parent).2 (drainSends fuel node parent) := by
  induction fuel generalizing node parent with
  | zero =>
      rw [drainOrphans, drainSends]
      cases node.orphans.get? parent <;> exact .refl holds
  | succ fuel inductionHypothesis =>
      rw [drainOrphans, drainSends]
      cases found : node.orphans.get? parent with
      | none => exact .refl holds
      | some waiting =>
          have ready : ∀ data ∈ waiting, ∃ block, fits block ∧ decodeBlock data = .ok block := by
            intro data inside
            apply holds.waiting parent
            rwa [Dict.getD, found]
          have released := relays_drainLoop
            (fun node parent holds => inductionHypothesis parent holds) ready (holds.erase parent)
          exact ⟨released.holds, released.reports⟩

/-- Handing a block over reports what is accepted; keeping it reports nothing. -/
theorem Holds.applyOrBuffer
    (holds : Holds fits node)
    (member : fits block)
    (decoded : decodeBlock data = .ok block) :
    Relays fits node (node.applyOrBuffer block data).2 (node.applySends block data) := by
  unfold P2PNode.applyOrBuffer applySends
  split_ifs with unknown room
  · refine ⟨⟨holds.invariant, fun parent item inside => ?_⟩, .refl _⟩
    rw [Dict.getD_set] at inside
    split_ifs at inside
    · rcases List.mem_append.mp inside with old | new
      · exact holds.waiting _ item old
      · rw [List.mem_singleton.mp new]
        exact ⟨block, member, decoded⟩
    · exact holds.waiting parent item inside
  · exact .refl holds
  · have received := holds.receiveBlock member decoded
    generalize node.receiveBlock data = handed at received ⊢
    obtain ⟨result, after⟩ := handed
    cases result with
    | error error => exact received
    | ok receipt =>
        dsimp only at received ⊢
        split_ifs at received ⊢ with accepted
        · exact received.trans (relays_drainOrphans _ _ received.holds)
        · exact received

/-- A block message reports what is accepted. -/
theorem Holds.blockSends
    (holds : Holds fits node)
    (readable : ∀ block, decodeBlock data = .ok block → fits block) :
    Relays fits node (node.onMessage (blockMessage data)).2 (node.blockSends data) := by
  unfold P2PNode.blockSends
  cases decoded : decodeBlock data with
  | error error =>
      rw [onMessage_malformed node (isBlock_blockMessage data) decoded]
      exact .refl holds
  | ok block =>
      rw [onMessage_block node (isBlock_blockMessage data) decoded]
      dsimp only
      cases seen : node.seenBlock.contains (blockWireId block) with
      | true =>
          rw [remember_seen seen]
          exact .refl holds
      | false =>
          rw [if_neg Bool.false_ne_true, remember_new seen, if_neg (by decide)]
          have handed : Holds fits { node with
              seenBlock := (remember node.seenBlock (blockWireId block)).2 } :=
            ⟨holds.invariant, holds.waiting⟩
          have relays := handed.applyOrBuffer (readable block decoded) decoded
          exact ⟨relays.holds, relays.reports⟩

/-! ## Runs -/

/-- Only blocks wait. -/
theorem orphans_onMessage
    {msg : List (Str × Json)}
    (node : P2PNode)
    (noBlock : ¬IsBlock msg) :
    (node.onMessage msg).2.orphans = node.orphans := by
  unfold onMessage
  dsimp only
  split
  · rename_i kind type
    have other : kind ≠ Key.block := by
      rintro rfl
      exact noBlock type
    rw [if_neg other]
    split_ifs
    · split
      · rfl
      · split_ifs
        · rfl
        · split <;> rfl
    · rfl
  · rfl

/-- Nothing that matters for blocks has changed. -/
structure Unaffected (node after : P2PNode) : Prop where
  tree : after.service.tree = node.service.tree
  orphans : after.orphans = node.orphans
  seenBlock : after.seenBlock = node.seenBlock

/-- Only block messages matter for blocks. -/
theorem unaffected_onMessage
    {msg : List (Str × Json)}
    (node : P2PNode)
    (noBlock : ¬IsBlock msg) :
    node.Unaffected (node.onMessage msg).2 := by
  refine ⟨?_, orphans_onMessage node noBlock, ?_⟩
  all_goals
    unfold onMessage
    dsimp only
    split
    · rename_i kind type
      have other : kind ≠ Key.block := by
        rintro rfl
        exact noBlock type
      rw [if_neg other]
      split_ifs
      · split
        · rfl
        · split_ifs
          · rfl
          · split <;> rfl
      · rfl
    · rfl

/-- The blocks broadcast while a message is handled. -/
def relays (node : P2PNode) (msg : List (Str × Json)) : List Json :=
  match Json.field msg Key.type with
  | some (.str kind) => if kind = Key.block then node.blockSends (carried msg) else []
  | _ => []

/-- The blocks broadcast while messages are handled one after the other. -/
def relayed : P2PNode → List (List (Str × Json)) → List Json
  | _, [] => []
  | node, msg :: rest => node.relays msg ++ relayed (node.onMessage msg).2 rest

/-- Of a block message only its block counts. -/
theorem onMessage_carried
    {msg : List (Str × Json)}
    (node : P2PNode)
    (isBlock : IsBlock msg) :
    node.onMessage msg = node.onMessage (blockMessage (carried msg)) := by
  have other : IsBlock (blockMessage (carried msg)) := isBlock_blockMessage _
  have same : (Json.field (blockMessage (carried msg)) Key.data).getD .null =
      (Json.field msg Key.data).getD .null := rfl
  rw [IsBlock] at isBlock other
  simp only [onMessage, isBlock, other, same]

theorem relays_message
    (msg : List (Str × Json))
    (holds : Holds (fun _ => True) node) :
    Relays (fun _ => True) node (node.onMessage msg).2 (node.relays msg) := by
  by_cases isBlock : IsBlock msg
  · have sends : node.relays msg = node.blockSends (carried msg) := by
      rw [IsBlock] at isBlock
      simp only [P2PNode.relays, isBlock, if_true]
    rw [sends, onMessage_carried node isBlock]
    exact holds.blockSends fun _ _ => trivial
  · have sends : node.relays msg = [] := by
      unfold P2PNode.relays
      split
      · rename_i kind type
        apply if_neg
        rintro rfl
        exact isBlock type
      · rfl
    have unaffected := node.unaffected_onMessage isBlock
    rw [sends]
    refine ⟨⟨?_, ?_⟩, ?_⟩
    · rw [unaffected.tree]
      exact holds.invariant
    · rw [unaffected.orphans]
      exact holds.waiting
    · rw [unaffected.tree]
      exact .refl _

/-- A run reports what is accepted in it. -/
theorem relays_hear
    (msgs : List (List (Str × Json)))
    (holds : Holds (fun _ => True) node) :
    Relays (fun _ => True) node (node.hear msgs) (relayed node msgs) := by
  induction msgs generalizing node with
  | nil => exact .refl holds
  | cons msg rest inductionHypothesis =>
      have first := relays_message msg holds
      rw [hear_cons, relayed]
      exact first.trans (inductionHypothesis first.holds)

/-- Whatever a node hears, it passes on exactly the blocks that its tree comes to know, each
of them once. -/
theorem relayed_exactly_once
    {args : GenesisArgs}
    {checkpoint : Option Checkpoint}
    {service : NodeService}
    (reachable : NodeService.Reachable args checkpoint service)
    (msgs : List (List (Str × Json))) :
    ((relayed (init service) msgs).map fun data =>
      (decodeBlock data).toOption.map Block.hash).Nodup ∧
    (∀ data ∈ relayed (init service) msgs, ∃ block, decodeBlock data = .ok block ∧
      service.tree.weight.contains block.hash = false) ∧
    ∀ hash, ((init service).hear msgs).service.tree.weight.contains hash = true ↔
      service.tree.weight.contains hash = true ∨
        ∃ data ∈ relayed (init service) msgs, ∃ block,
          decodeBlock data = .ok block ∧ block.hash = hash := by
  have holds : Holds (fun _ => True) (init service) :=
    ⟨reachable.consistent.tree.invariant, fun _ _ inside => absurd inside List.not_mem_nil⟩
  obtain ⟨_, reports⟩ := relays_hear msgs holds
  refine ⟨reports.apart, fun data inside => ?_, reports.knows⟩
  obtain ⟨block, _, decoded⟩ := reports.valid data inside
  exact ⟨block, decoded, reports.new data inside block decoded⟩

end

end P2PNode

/-! ## Relaying a scrambled run -/

namespace ForkSample

open P2PNode

attribute [local instance] Symbolic.primitives

theorem listener_reachable : NodeService.Reachable args none listener.service := by
  have initial : BlockTree.init args none = .ok start := by
    unfold start
    exact eq_ok_outcome _ initialised
  refine @NodeService.Reachable.init _ args none [] none false _ ?_
  rw [NodeService.init, initial]
  rfl

/-- Of the finalizing branch every block is passed on, and the rival block is not. -/
theorem relayed_exactly_once_scrambled :
    (relayed (init listener.service) scrambledMsgs).length = 3 ∧
      ((relayed (init listener.service) scrambledMsgs).map fun data =>
        (decodeBlock data).toOption.map Block.hash).Nodup :=
  ⟨by decide +kernel, (relayed_exactly_once listener_reachable scrambledMsgs).1⟩

end ForkSample

end Mindees
