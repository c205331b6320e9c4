import Mindees.Node.Production

/-!
# Calls

The three calls that write to a node, as one step.  A call leaves the tree and
the store alone, or commits one block to both; a block that the node returns has
been committed and was sealed on the head.
-/

namespace Mindees

open Library

section

variable [Primitives]

namespace NodeService

/-- A call that may write. -/
inductive Call
  | submitTx (data : Json) (timestamp : Int) (randomness : Nat)
  | receiveBlock (data : Json)
  | produceBlock (timestamp : Int) (randomness : Nat)

/-- The block that `produce_block` returned to its caller. -/
def returned : Except Error Json → List Json
  | .ok data => [data]
  | .error _ => []

/-- The block under `mined` in the answer of `submit_tx`. -/
def mined : Except Error (Str × Option Json) → List Json
  | .ok (_, some data) => [data]
  | _ => []

/-- Make a call.  The first part of the result lists the blocks that
`produce_block` returned in it. -/
def call (service : NodeService) : Call → List Json × NodeService
  | .submitTx data timestamp randomness =>
      let (answer, after) := service.submitTx data timestamp randomness
      (mined answer, after)
  | .receiveBlock data => ([], (service.receiveBlock data).2)
  | .produceBlock timestamp randomness =>
      let (answer, after) := service.produceBlock timestamp randomness
      (returned answer, after)

/-- The node after some calls. -/
def run (service : NodeService) (calls : List Call) : NodeService :=
  calls.foldl (fun service next => (service.call next).2) service

/-! ## What one call does -/

/-- The tree and the store are as they were. -/
structure Keeps (before after : NodeService) : Prop where
  tree : after.tree = before.tree
  store : after.store = before.store

/-- The tree took a block without an exception, and the block is the last one in
the store. -/
structure Commits (before after : NodeService) (block : Block) : Prop where
  added : ∃ new, (before.tree.addBlock block).1 = .ok new
  tree : after.tree = (before.tree.addBlock block).2
  store : after.store = before.store ++ [block]

/-- The block was sealed on the head of the node. -/
def SealedOnHead (service : NodeService) (block : Block) : Prop :=
  ∃ wallet transactions,
    SealedBy wallet service.chain.head.hash (service.chain.head.index + 1) transactions block

variable {args : GenesisArgs} {checkpoint : Option Checkpoint} {service : NodeService}

/-- The call raises and changes nothing, or seals a block on the head, commits it and
returns it. -/
theorem produceBlock_cases
    (service : NodeService)
    (invariant : service.tree.Invariant)
    (timestamp : Int)
    (randomness : Nat) :
    (returned (service.produceBlock timestamp randomness).1 = [] ∧
      (service.produceBlock timestamp randomness).2 = service) ∨
    ∃ block, service.SealedOnHead block ∧
      (service.produceBlock timestamp randomness).1 = .ok block.encodeBlock ∧
      service.Commits (service.produceBlock timestamp randomness).2 block := by
  unfold NodeService.produceBlock
  split
  · exact .inl ⟨rfl, rfl⟩
  · exact .inl ⟨rfl, rfl⟩
  · left
    split <;> exact ⟨rfl, rfl⟩
  · rename_i wallet _ _
    have spec := sealBlock_spec service.tree.canonical.head.hash
      (service.tree.canonical.head.index + 1) wallet (service.mempool.select service.chain)
      timestamp 0 randomness
    obtain ⟨block, built, sealedBy⟩ := spec
    have next : service.nextBlock wallet timestamp randomness = .ok block := built
    have onHead : service.SealedOnHead block := ⟨wallet, _, sealedBy⟩
    have cases := invariant.addBlock_cases block
    rw [next]
    dsimp only
    rcases cases with ⟨_, known⟩ | ⟨_, _, error, refused⟩ | ⟨_, _, _, _, _, _, _, accepted, _⟩
    · right
      refine ⟨block, onHead, ?_⟩
      rw [known]
      exact ⟨rfl, ⟨false, congrArg Prod.fst known⟩, (congrArg Prod.snd known).symm, rfl⟩
    · left
      rw [refused]
      exact ⟨rfl, rfl⟩
    · right
      refine ⟨block, onHead, ?_⟩
      cases result : service.tree.addBlock block with
      | mk answer tree =>
          rw [result] at accepted
          obtain rfl : answer = .ok true := accepted
          exact ⟨rfl, ⟨true, congrArg Prod.fst result⟩, (congrArg Prod.snd result).symm, rfl⟩

theorem Consistent.produceBlock_cases
    (consistent : service.Consistent args checkpoint)
    (timestamp : Int)
    (randomness : Nat) :
    (returned (service.produceBlock timestamp randomness).1 = [] ∧
      (service.produceBlock timestamp randomness).2 = service) ∨
    ∃ block, service.SealedOnHead block ∧
      (service.produceBlock timestamp randomness).1 = .ok block.encodeBlock ∧
      service.Commits (service.produceBlock timestamp randomness).2 block :=
  service.produceBlock_cases consistent.tree.invariant timestamp randomness

/-- A received block is committed, or nothing changes. -/
theorem Consistent.receiveBlock_cases
    (consistent : service.Consistent args checkpoint)
    (data : Json) :
    (service.receiveBlock data).2 = service ∨
    ∃ block, decodeBlock data = .ok block ∧
      service.Commits (service.receiveBlock data).2 block := by
  unfold NodeService.receiveBlock
  cases decoded : decodeBlock data with
  | error error => exact .inl rfl
  | ok block =>
      have cases := consistent.tree.invariant.addBlock_cases block
      dsimp only
      rcases cases with ⟨_, known⟩ | ⟨_, _, error, refused⟩ | ⟨_, _, _, _, _, _, _, accepted, _⟩
      · left
        rw [known]
        rfl
      · left
        rw [refused]
      · right
        refine ⟨block, rfl, ?_⟩
        cases result : service.tree.addBlock block with
        | mk answer tree =>
            rw [result] at accepted
            obtain rfl : answer = .ok true := accepted
            exact ⟨⟨true, congrArg Prod.fst result⟩, (congrArg Prod.snd result).symm, rfl⟩

/-- A submitted transaction changes the pool only, unless the node seals a block
at once. -/
theorem Consistent.submitTx_cases
    (consistent : service.Consistent args checkpoint)
    (data : Json)
    (timestamp : Int)
    (randomness : Nat) :
    (mined (service.submitTx data timestamp randomness).1 = [] ∧
      service.Keeps (service.submitTx data timestamp randomness).2) ∨
    ∃ block, service.SealedOnHead block ∧
      mined (service.submitTx data timestamp randomness).1 = [block.encodeBlock] ∧
      service.Commits (service.submitTx data timestamp randomness).2 block := by
  unfold NodeService.submitTx
  dsimp only
  split
  · exact .inl ⟨rfl, rfl, rfl⟩
  · rename_i tx mempool admitted
    simp only [bind_eq_ok, pure_eq_ok, Prod.exists, Prod.mk.injEq] at admitted
    obtain ⟨_, _, new, _, added, rfl, rfl⟩ := admitted
    have grown := consistent.add added
    split
    · split
      · exact .inl ⟨rfl, rfl, rfl⟩
      · exact .inl ⟨rfl, rfl, rfl⟩
      · have produced := grown.produceBlock_cases timestamp randomness
        rcases produced with ⟨nothing, same⟩ | ⟨block, onHead, answer, commits⟩
        · left
          split
          · rename_i error after result
            rw [result] at same
            obtain rfl : after = _ := same
            exact ⟨rfl, rfl, rfl⟩
          · rename_i result
            rw [result] at nothing
            cases nothing
        · right
          refine ⟨block, onHead, ?_⟩
          split
          · rename_i result
            rw [result] at answer
            cases answer
          · rename_i result
            rw [result] at answer commits
            obtain rfl := Except.ok.inj answer
            exact ⟨rfl, commits.added, commits.tree, commits.store⟩
    · exact .inl ⟨rfl, rfl, rfl⟩

/-- What a call does: it returns no block and keeps the tree and the store, or
commits a block from a peer, or commits a block that the node sealed on its head
and returns it. -/
theorem Consistent.call_cases
    (consistent : service.Consistent args checkpoint)
    (next : Call) :
    ((service.call next).1 = [] ∧ service.Keeps (service.call next).2) ∨
    ((service.call next).1 = [] ∧
      ∃ data block, decodeBlock data = .ok block ∧ service.Commits (service.call next).2 block) ∨
    ∃ block, service.SealedOnHead block ∧ (service.call next).1 = [block.encodeBlock] ∧
      service.Commits (service.call next).2 block := by
  cases next with
  | submitTx data timestamp randomness =>
      exact (consistent.submitTx_cases data timestamp randomness).imp_right .inr
  | receiveBlock data =>
      rcases consistent.receiveBlock_cases data with same | ⟨block, decoded, commits⟩
      · left
        refine ⟨rfl, ?_, ?_⟩ <;> rw [NodeService.call, same]
      · exact .inr (.inl ⟨rfl, data, block, decoded, commits⟩)
  | produceBlock timestamp randomness =>
      rcases consistent.produceBlock_cases timestamp randomness with
        ⟨nothing, same⟩ | ⟨block, onHead, answer, commits⟩
      · left
        refine ⟨nothing, ?_, ?_⟩ <;> rw [NodeService.call, same]
      · right
        right
        have published : (service.call (.produceBlock timestamp randomness)).1 =
            returned (.ok block.encodeBlock) := congrArg returned answer
        exact ⟨block, onHead, published, commits⟩

/-- Calls keep a node consistent. -/
theorem Consistent.call
    (consistent : service.Consistent args checkpoint)
    (next : Call) :
    Consistent args checkpoint (service.call next).2 := by
  cases next with
  | submitTx data timestamp randomness => exact consistent.submitTx data timestamp randomness
  | receiveBlock data => exact consistent.receiveBlock data
  | produceBlock timestamp randomness => exact consistent.produceBlock timestamp randomness

end NodeService

end

end Mindees
