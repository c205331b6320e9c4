import Mindees.Consensus.State

/-!
# Proposer election

The elected proposer is a stake-weighted choice that depends only on the active
stakes, the parent hash and the height.
-/

namespace Mindees

open Library

/-- The validators in address order. -/
def sortedValidators (stakes : Dict Str Int) : List Str :=
  ((stakes.entries.filter fun entry => 0 < entry.2).map Prod.fst).insertionSort (· ≤ ·)

/-- Walk the cumulative stakes until they pass the pick. -/
def electLoop
    (stakes : Dict Str Int)
    (pick : Int) : List Str → (cumulative : Int) → Option Str
  | [], _ => none
  | address :: rest, cumulative =>
      let cumulative := cumulative + stakes.getD address 0
      if pick < cumulative then some address else electLoop stakes pick rest cumulative

/-- Deterministic stake-weighted proposer selection. -/
def electValidator (stakes : Dict Str Int) (seed : Bytes) : Except Error Str := do
  let validators := sortedValidators stakes
  let total := (validators.map fun address => stakes.getD address 0).sum
  rejectIf (total = 0) "no active validators"
  let pick := (intFromBytes seed : Int) % total
  match electLoop stakes pick validators 0 with
  | some address => pure address
  | none => require validators.getLast? .indexError

/-- `index.to_bytes(8, "big")`. -/
def toBytes8 (index : Int) : Except Error Bytes := do
  raiseIf (index < 0 ∨ 2 ^ 64 ≤ index) .overflowError
  let value := index.toNat
  pure ([56, 48, 40, 32, 24, 16, 8, 0].map fun shift => UInt8.ofNat (value / 2 ^ shift % 256))

section

variable [Primitives]

/-- The election seed of a height on top of a parent. -/
def seed (previousHash : Str) (index : Int) : Except Error Bytes := do
  let parent ← require (fromHex previousHash) .valueError
  let height ← toBytes8 index
  pure (sha256 (parent ++ height))

/-- The address elected to produce a block. -/
def elect
    (stakes : Dict Str Int)
    (previousHash : Str)
    (index : Int) : Except Error Str := do
  let drawn ← seed previousHash index
  electValidator stakes drawn

/-- The address that is allowed to produce the next block. -/
def ProofOfStakeChain.nextValidator (chain : ProofOfStakeChain) : Except Error Str :=
  elect chain.state.stakes chain.head.hash (chain.head.index + 1)

/-- Parse attacker-controlled hexadecimal. -/
def hexBytes (text : Str) : Except Error Bytes :=
  require (fromHex text) (.validation "malformed hex field")

/-- The proposer is the elected one and sealed the block. -/
def checkProposer (stakes : Dict Str Int) (block : Block) : Except Error Unit := do
  let expected ← elect stakes block.previousHash block.index
  rejectIf (block.validator ≠ expected)
    s!"wrong proposer: expected {text expected}, got {text block.validator}"
  rejectIf (block.proposerPubkey = [] ∨ block.validatorSig = [])
    "missing validator block signature"
  let publicKey ← hexBytes block.proposerPubkey
  rejectIf (addressFromPublicKey publicKey ≠ block.validator)
    "proposer pubkey does not match validator address"
  let message ← require (fromHex block.hash) .valueError
  let signature ← hexBytes block.validatorSig
  rejectIf (verifySignature publicKey message signature = false)
    "invalid validator block signature"

end

/-! ## What an election returns -/

theorem mem_sortedValidators
    (stakes : Dict Str Int)
    (address : Str) :
    address ∈ sortedValidators stakes ↔ 0 < stakes.getD address 0 := by
  rw [sortedValidators, (List.perm_insertionSort _ _).mem_iff]
  simp only [List.mem_map, List.mem_filter, decide_eq_true_eq, Dict.getD]
  constructor
  · rintro ⟨⟨key, value⟩, ⟨inside, positive⟩, rfl⟩
    rw [(stakes.mem_entries_iff key value).mp inside]
    exact positive
  · intro positive
    cases found : stakes.get? address with
    | none => simp [found] at positive
    | some value =>
        rw [found] at positive
        exact ⟨(address, value), ⟨(stakes.mem_entries_iff address value).mpr found, positive⟩,
          rfl⟩

theorem electLoop_mem
    (stakes : Dict Str Int)
    (pick : Int)
    {validators : List Str}
    {cumulative : Int}
    {address : Str}
    (found : electLoop stakes pick validators cumulative = some address) :
    address ∈ validators := by
  induction validators generalizing cumulative with
  | nil => cases found
  | cons first rest inductionHypothesis =>
      simp only [electLoop] at found
      split at found
      · cases found
        exact List.mem_cons_self
      · exact List.mem_cons_of_mem first (inductionHypothesis found)

/-- Only an address with positive stake is ever elected. -/
theorem electValidator_pos
    {stakes : Dict Str Int}
    {drawn : Bytes}
    {address : Str}
    (elected : electValidator stakes drawn = .ok address) :
    0 < stakes.getD address 0 := by
  rw [← mem_sortedValidators]
  simp only [electValidator, bind_eq_ok] at elected
  obtain ⟨_, _, chosen⟩ := elected
  split at chosen
  · rename_i winner found
    cases chosen
    exact electLoop_mem stakes _ found
  · rw [require_eq_ok] at chosen
    exact List.mem_of_getLast? chosen

theorem elect_pos
    [Primitives]
    {stakes : Dict Str Int}
    {previousHash address : Str}
    {index : Int}
    (elected : elect stakes previousHash index = .ok address) :
    0 < stakes.getD address 0 := by
  simp only [elect, bind_eq_ok] at elected
  obtain ⟨drawn, _, chosen⟩ := elected
  exact electValidator_pos chosen

/-- A block that passes the proposer check comes from a validator with stake. -/
theorem checkProposer_pos
    [Primitives]
    {stakes : Dict Str Int}
    {block : Block}
    (checked : checkProposer stakes block = .ok ()) :
    0 < stakes.getD block.validator 0 := by
  simp only [checkProposer, rejectIf, bind_eq_ok, raiseIf_eq_ok] at checked
  obtain ⟨expected, elected, _, same, _⟩ := checked
  rw [not_not.mp same]
  exact elect_pos elected

end Mindees
