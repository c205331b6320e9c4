import Mindees.ForkChoice.Branch

/-!
# Chains that differ in seals

The hash of a block leaves its proposer's seal out, so two nodes can hold
different seals of one block.  Chains that are equal without their seals accept
the same blocks and stay so.
-/

namespace Mindees

open Library

theorem Block.previousHash_eq_of_unsealed
    {left right : Block}
    (same : left.unsealed = right.unsealed) :
    left.previousHash = right.previousHash := by
  have unsealed : left.unsealed.previousHash = right.unsealed.previousHash := by rw [same]
  exact unsealed

theorem Block.validator_eq_of_unsealed
    {left right : Block}
    (same : left.unsealed = right.unsealed) :
    left.validator = right.validator := by
  have unsealed : left.unsealed.validator = right.unsealed.validator := by rw [same]
  exact unsealed

namespace ProofOfStakeChain

/-- The chain without the seals of its blocks. -/
def bare (chain : ProofOfStakeChain) : ProofOfStakeChain :=
  { chain with
    chain := chain.chain.map Block.unsealed
    nonempty := fun empty => chain.nonempty (List.map_eq_nil_iff.mp empty) }

variable {args : GenesisArgs} {before other after otherAfter : ProofOfStakeChain}
  {block variant : Block} {checkpoint : Checkpoint}

theorem state_eq_of_bare
    (same : before.bare = other.bare) :
    before.state = other.state := by
  have bare : before.bare.state = other.bare.state := by rw [same]
  exact bare

theorem config_eq_of_bare
    (same : before.bare = other.bare) :
    before.config = other.config := by
  have bare : before.bare.config = other.bare.config := by rw [same]
  exact bare

theorem blocks_eq_of_bare
    (same : before.bare = other.bare) :
    before.chain.map Block.unsealed = other.chain.map Block.unsealed := by
  have bare : before.bare.chain = other.bare.chain := by rw [same]
  exact bare

theorem bare_eq
    (config : before.config = other.config)
    (state : before.state = other.state)
    (blocks : before.chain.map Block.unsealed = other.chain.map Block.unsealed) :
    before.bare = other.bare := by
  simp only [bare, ProofOfStakeChain.mk.injEq]
  exact ⟨config, state, blocks⟩

theorem head_eq_of_bare
    (same : before.bare = other.bare) :
    before.head.unsealed = other.head.unsealed := by
  have blocks := blocks_eq_of_bare same
  have lasts := congrArg List.getLast? blocks
  rw [List.getLast?_map, List.getLast?_map, List.getLast?_eq_some_getLast before.nonempty,
    List.getLast?_eq_some_getLast other.nonempty] at lasts
  exact Option.some.inj lasts

variable [Primitives]

theorem head_hash_eq_of_bare
    (same : before.bare = other.bare) :
    before.head.hash = other.head.hash :=
  Block.hash_eq_of_unsealed_eq (head_eq_of_bare same)

omit [Primitives] in
theorem head_index_eq_of_bare
    (same : before.bare = other.bare) :
    before.head.index = other.head.index := by
  have unsealed : before.head.unsealed.index = other.head.unsealed.index := by
    rw [head_eq_of_bare same]
  exact unsealed

/-- The hashes of a chain do not depend on its seals. -/
theorem passes_of_bare
    (same : before.bare = other.bare)
    (passes : before.Passes checkpoint) :
    other.Passes checkpoint := by
  obtain ⟨nonneg, here⟩ := passes
  have hashes : other.chain.map Block.hash = before.chain.map Block.hash := by
    have blocks := congrArg (List.map Block.hash) (blocks_eq_of_bare same)
    rw [List.map_map, List.map_map] at blocks
    exact blocks.symm
  refine ⟨nonneg, ?_⟩
  rw [hashAt, ← List.getElem?_map] at here ⊢
  rw [hashes]
  exact here

/-- A chain without its seals decides which blocks it accepts. -/
theorem submitBlock_of_bare
    (same : before.bare = other.bare)
    (submitted : before.submitBlock block = .ok after) :
    ∃ otherAfter, other.submitBlock block = .ok otherAfter ∧ after.bare = otherAfter.bare := by
  obtain ⟨applied, config, blocks⟩ := (submitBlock_eq_ok _ _ _).mp submitted
  have sameState := state_eq_of_bare same
  have sameConfig := config_eq_of_bare same
  have appliedThere : other.apply block = .ok after.state := by
    rw [apply_eq_ok, applyChecked_eq_ok] at applied ⊢
    rw [← head_hash_eq_of_bare same, ← head_index_eq_of_bare same, ← sameState, ← sameConfig]
    exact applied
  let otherAfter : ProofOfStakeChain :=
    { config := other.config, state := after.state, chain := other.chain ++ [block],
      nonempty := by simp }
  refine ⟨otherAfter, (submitBlock_eq_ok _ _ _).mpr ⟨appliedThere, rfl, rfl⟩, ?_⟩
  refine bare_eq (config.trans sameConfig) rfl ?_
  have extended : otherAfter.chain = other.chain ++ [block] := rfl
  rw [blocks, extended, List.map_append, List.map_append, blocks_eq_of_bare same]

/-- The seal of a block plays no part in its effect. -/
theorem bare_submitBlock
    (same : before.bare = other.bare)
    (unsealed : block.unsealed = variant.unsealed)
    (submitted : before.submitBlock block = .ok after)
    (submittedThere : other.submitBlock variant = .ok otherAfter) :
    after.bare = otherAfter.bare := by
  have here := submitted_of_submitBlock submitted
  have there := submitted_of_submitBlock submittedThere
  have sameConfig := config_eq_of_bare same
  refine bare_eq ?_ ?_ ?_
  · rw [here.config, there.config, sameConfig]
  · have ran : applyTxs before.config block.unsealed before.state.justified
        (applyBlockPre before.config block.unsealed before.state) block.unsealed.transactions =
        .ok after.state := here.ran
    rw [unsealed, sameConfig, state_eq_of_bare same] at ran
    exact Except.ok.inj (ran.symm.trans there.ran)
  · rw [here.blocks, there.blocks, List.map_append, List.map_append, blocks_eq_of_bare same,
      List.map_singleton, List.map_singleton, unsealed]

end ProofOfStakeChain

end Mindees
