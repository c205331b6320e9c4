import Mathlib.Data.Finset.Insert
import Mindees.Library.Dict
import Mindees.Core.Block
import Mindees.Vesting

/-!
# The state of a proof-of-stake chain

The ledger, the slashing record and the finality bookkeeping that a block
updates, the genesis configuration that no block updates, and the chain that
holds both together with its blocks.
-/

namespace Mindees

open Library

/-- A checkpoint: a block hash and a height. -/
abbrev Checkpoint := Str × Int

/-- An unstaked amount on its way back to the liquid balance. -/
structure Unbonding where
  amount : Int
  bondHeight : Int
  releaseHeight : Int
  deriving DecidableEq

/-- What was punished: a double-signed height, or a pair of votes.  The two
kinds of key never coincide. -/
inductive Offense
  | block (offender : Str) (height : Int)
  | vote (offenseId : Str)
  deriving DecidableEq

/-- Everything that applying a block reads and writes. -/
structure LedgerState where
  balances : Dict Str Int
  nonces : Dict Str Int
  stakes : Dict Str Int
  /-- Address to the entries that are unbonding, oldest first. -/
  unbonding : Dict Str (List Unbonding)
  slashed : Finset Offense
  /-- Proven-Byzantine validators, excluded from the finality quorum. -/
  slashedAddrs : Finset Str
  /-- Checkpoint hash to the stakes at that checkpoint. -/
  ffgStake : Dict Str (Dict Str Int)
  ffgHeight : Dict Str Int
  /-- Source and target hash to the voters of that link. -/
  ffgVotes : Dict (Str × Str) (Finset Str)
  /-- Voter and target height to the link voted for. -/
  ffgSeenTarget : Dict (Str × Int) (Str × Str)
  justified : Finset Str
  finalized : Checkpoint
  deriving DecidableEq

/-- The part of the genesis parameters that stays fixed. -/
structure Config where
  vesting : Dict Str Grant
  unbondingBlocks : Int
  treasuryAddress : Option Str
  epoch : Int
  deriving DecidableEq

/-- A chain with its current state. -/
structure ProofOfStakeChain where
  config : Config
  state : LedgerState
  /-- The blocks, genesis first. -/
  chain : List Block
  /-- The genesis block is always there. -/
  nonempty : chain ≠ []
  deriving DecidableEq

/-! ## Ledger arithmetic -/

/-- `d[k] = d.get(k, 0) + v`. -/
def credit (dict : Dict Str Int) (key : Str) (value : Int) : Dict Str Int :=
  dict.set key (dict.getD key 0 + value)

/-- `d[k] += v`, which raises a `KeyError` on an absent key. -/
def addItem (dict : Dict Str Int) (key : Str) (value : Int) :
    Except Error (Dict Str Int) :=
  match dict.get? key with
  | some old => .ok (dict.set key (old + value))
  | none => .error .keyError

/-- The sum of the values. -/
def total (dict : Dict Str Int) : Int := dict.sumBy fun _ value => value

/-- The amounts of a queue. -/
def queueTotal (queue : List Unbonding) : Int := (queue.map Unbonding.amount).sum

/-- All unbonding amounts. -/
def unbondingGrandTotal (unbonding : Dict Str (List Unbonding)) : Int :=
  unbonding.sumBy fun _ queue => queueTotal queue

@[grind =] theorem getD_credit
    (dict : Dict Str Int)
    (key wanted : Str)
    (value : Int) :
    (credit dict key value).getD wanted 0 =
      dict.getD wanted 0 + if key = wanted then value else 0 := by
  rw [credit, Dict.getD_set]
  split
  · rename_i same
    rw [same]
  · rw [add_zero]

@[simp] theorem total_credit
    (dict : Dict Str Int)
    (key : Str)
    (value : Int) :
    total (credit dict key value) = total dict + value := by
  rw [total, credit, Dict.sumBy_set, Dict.getD, Dict.quantityAt, total]
  cases dict.get? key with
  | none => simp
  | some old =>
      simp only [Option.elim_some, Option.getD_some]
      omega

/-- When the key is there, `d[k] += v` is `d[k] = d.get(k, 0) + v`. -/
theorem addItem_eq_ok
    (dict result : Dict Str Int)
    (key : Str)
    (value : Int) :
    addItem dict key value = .ok result ↔
      dict.contains key = true ∧ credit dict key value = result := by
  rw [addItem, Dict.contains, credit, Dict.getD]
  cases dict.get? key <;> simp

theorem get?_credit
    (dict : Dict Str Int)
    (key wanted : Str)
    (value : Int) :
    (credit dict key value).get? wanted =
      if key = wanted then some (dict.getD key 0 + value) else dict.get? wanted := by
  rw [credit, Dict.get?_set]

/-- A key with a positive amount has an entry. -/
theorem contains_of_funded
    {balances : Dict Str Int}
    {address : Str}
    (positive : 0 < balances.getD address 0) :
    balances.contains address = true := by
  rw [Dict.contains_iff]
  rw [Dict.getD] at positive
  cases found : balances.get? address with
  | none =>
      rw [found] at positive
      exact absurd positive (lt_irrefl 0)
  | some amount => exact ⟨amount, rfl⟩

@[simp] theorem total_erase
    (dict : Dict Str Int)
    (key : Str) :
    total (dict.erase key) = total dict - dict.getD key 0 := by
  rw [total, Dict.sumBy_erase, Dict.quantityAt, total, Dict.getD]
  cases dict.get? key <;> rfl

@[simp] theorem queueTotal_nil : queueTotal [] = 0 := rfl

@[simp] theorem queueTotal_append (left right : List Unbonding) :
    queueTotal (left ++ right) = queueTotal left + queueTotal right := by
  simp [queueTotal]

@[simp] theorem unbondingGrandTotal_set
    (unbonding : Dict Str (List Unbonding))
    (address : Str)
    (queue : List Unbonding) :
    unbondingGrandTotal (unbonding.set address queue) =
      unbondingGrandTotal unbonding - queueTotal (unbonding.getD address []) +
        queueTotal queue := by
  rw [unbondingGrandTotal, Dict.sumBy_set, Dict.quantityAt, unbondingGrandTotal, Dict.getD]
  cases unbonding.get? address <;> rfl

@[simp] theorem unbondingGrandTotal_erase
    (unbonding : Dict Str (List Unbonding))
    (address : Str) :
    unbondingGrandTotal (unbonding.erase address) =
      unbondingGrandTotal unbonding - queueTotal (unbonding.getD address []) := by
  rw [unbondingGrandTotal, Dict.sumBy_erase, Dict.quantityAt, unbondingGrandTotal, Dict.getD]
  cases unbonding.get? address <;> rfl

/-! ## Queries -/

namespace LedgerState

/-- Liquid, staked and unbonding coins together. -/
def totalSupply (state : LedgerState) : Int :=
  total state.balances + total state.stakes + unbondingGrandTotal state.unbonding

/-- The coins of one address that are unbonding. -/
def unbondingOf (state : LedgerState) (address : Str) : Int :=
  queueTotal (state.unbonding.getD address [])

/-- The coins of one address that a slash can take. -/
def bondedOf (state : LedgerState) (address : Str) : Int :=
  state.stakes.getD address 0 + state.unbondingOf address

/-- The liquid, staked and unbonding coins of one address. -/
def holding (state : LedgerState) (address : Str) : Int :=
  state.balances.getD address 0 + state.stakes.getD address 0 + state.unbondingOf address

end LedgerState

namespace ProofOfStakeChain

/-- The newest block. -/
def head (chain : ProofOfStakeChain) : Block := chain.chain.getLast chain.nonempty

/-- The liquid balance of an address. -/
def balanceOf (chain : ProofOfStakeChain) (address : Str) : Int :=
  chain.state.balances.getD address 0

/-- The active stake of an address. -/
def stakeOf (chain : ProofOfStakeChain) (address : Str) : Int :=
  chain.state.stakes.getD address 0

/-- The highest finalized checkpoint. -/
def finalizedCheckpoint (chain : ProofOfStakeChain) : Checkpoint := chain.state.finalized

/-- The hash of the block at a position, if the chain is that long. -/
def hashAt [Primitives] (chain : ProofOfStakeChain) (position : Nat) : Option Str :=
  chain.chain[position]?.map Block.hash

end ProofOfStakeChain

end Mindees
