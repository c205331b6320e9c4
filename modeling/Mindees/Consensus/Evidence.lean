import Mindees.Consensus.Election

/-!
# Votes and slashing evidence

A finality vote carries a link between two checkpoints.  Slashing evidence is a
pair of blocks that one validator sealed on one parent, or a pair of votes of
one validator that double or surround each other.
-/

namespace Mindees

open Library

namespace Key

def kind : Str := ['k', 'i', 'n', 'd']
def vote : Str := ['v', 'o', 't', 'e']
def block : Str := ['b', 'l', 'o', 'c', 'k']
def a : Str := ['a']
def b : Str := ['b']
def s : Str := ['s']
def sh : Str := ['s', 'h']
def t : Str := ['t']
def th : Str := ['t', 'h']

end Key

/-- The link of a finality vote. -/
structure Link where
  source : Str
  sourceHeight : Int
  target : Str
  targetHeight : Int
  deriving DecidableEq

/-- The four fields of a link as JSON values of any kind. -/
structure RawLink where
  s : Json
  sh : Json
  t : Json
  th : Json

section

variable [Primitives]

/-- Parse attacker-controlled evidence into an object. -/
def loadJson (evidence : Str) : Except Error (List (Str × Json)) :=
  match Primitives.jsonLoads evidence with
  | some (.obj fields) => .ok fields
  | some _ => .error (.validation "evidence must be a JSON object")
  | none => .error (.validation "malformed evidence json")

/-- The link fields of an object; `what` introduces the error message. -/
def rawLink (what : String) (fields : List (Str × Json)) : Except Error RawLink := do
  let missing := fun key => Error.validation s!"{what} missing field '{text key}'"
  let s ← require (Json.field fields Key.s) (missing Key.s)
  let sh ← require (Json.field fields Key.sh) (missing Key.sh)
  let t ← require (Json.field fields Key.t) (missing Key.t)
  let th ← require (Json.field fields Key.th) (missing Key.th)
  pure { s, sh, t, th }

/-- The link that a vote transaction carries, with its types checked. -/
def voteLink (evidence : Str) : Except Error Link := do
  let fields ← loadJson evidence
  let raw ← rawLink "vote link" fields
  match raw with
  | ⟨.str source, .int sourceHeight, .str target, .int targetHeight⟩ =>
      rejectIf (¬(isUnits sourceHeight ∧ isUnits targetHeight))
        "vote link fields have wrong types"
      pure { source, sourceHeight, target, targetHeight }
  | _ => .error (.validation "vote link fields have wrong types")

/-! ## Vote faults -/

/-- Same target height, different link. -/
def isDoubleVote (left right : RawLink) : Bool :=
  left.th.eq right.th && (!left.t.eq right.t || !left.s.eq right.s)

/-- `a < b` on JSON values. -/
def jsonLt (left right : Json) : Except Error Bool := require (left.lt right) .typeError

/-- The outer link starts below and ends above the inner one. -/
def surrounds (outer inner : RawLink) : Except Error Bool := do
  let below ← jsonLt outer.sh inner.sh
  if below then jsonLt inner.th outer.th else pure false

/-- One link strictly surrounds the other. -/
def isSurroundVote (left right : RawLink) : Except Error Bool := do
  let outer ← surrounds left right
  if outer then pure true else surrounds right left

/-- `sorted([x, y])`. -/
def sortedPair (left right : Str) : List Json :=
  if right < left then [.str right, .str left] else [.str left, .str right]

/-- Verify that two finality votes prove a slashable fault, and return the
offender with the identifier of the offense. -/
def verifyVoteFault (txA txB : Transaction) : Except Error (Str × Str) := do
  rejectIf (txA.isValid = false ∨ txB.isValid = false) "vote-fault: a vote tx is invalid"
  rejectIf (txA.recipient ≠ VOTE_SENTINEL ∨ txB.recipient ≠ VOTE_SENTINEL)
    "vote-fault: not finality votes"
  rejectIf (txA.sender ≠ txB.sender) "vote-fault: votes are from different voters"
  let fieldsA ← loadJson txA.evidence
  let fieldsB ← loadJson txB.evidence
  let linkA ← rawLink "vote-fault: link" fieldsA
  let linkB ← rawLink "vote-fault: link" fieldsB
  let double := isDoubleVote linkA linkB
  let surround ← isSurroundVote linkA linkB
  rejectIf (double = false ∧ surround = false)
    "vote-fault: votes are neither a double nor a surround"
  pure (txA.sender, hex (sha256 (canonical (.arr (sortedPair txA.txid txB.txid)))))

/-! ## Equivocation -/

/-- A block carries a valid seal of its own validator. -/
def selfAuthenticating (block : Block) : Except Error Unit := do
  rejectIf (block.proposerPubkey = [] ∨ block.validatorSig = [])
    "evidence: block is not self-authenticating"
  let publicKey ← hexBytes block.proposerPubkey
  rejectIf (addressFromPublicKey publicKey ≠ block.validator)
    "evidence: proposer pubkey does not match validator"
  let message ← require (fromHex block.hash) .valueError
  let signature ← hexBytes block.validatorSig
  rejectIf (verifySignature publicKey message signature = false)
    "evidence: invalid validator signature"

/-- Verify that two blocks prove equivocation, and return the offender with the
height of the offense. -/
def verifyEquivocation (b1 b2 : Block) : Except Error (Str × Int) := do
  rejectIf (b1.index ≠ b2.index) "evidence: blocks are at different heights"
  rejectIf (b1.previousHash ≠ b2.previousHash)
    "evidence: blocks have different parents (not equivocation)"
  rejectIf (b1.validator ≠ b2.validator) "evidence: blocks have different validators"
  rejectIf (b1.hash = b2.hash) "evidence: the two blocks are identical"
  selfAuthenticating b1
  selfAuthenticating b2
  pure (b1.validator, b1.index)

/-- The offender and the offense that the evidence of a slash proves. -/
def slashOffense (evidence : Str) : Except Error (Str × Offense) := do
  let data ← loadJson evidence
  let isVote := ((Json.field data Key.kind).getD .null).eq (.str Key.vote)
  let a ← require (Json.field data Key.a) .keyError
  if isVote then
    let voteA ← decodeTx a
    let b ← require (Json.field data Key.b) .keyError
    let voteB ← decodeTx b
    let (offender, offenseId) ← verifyVoteFault voteA voteB
    pure (offender, .vote offenseId)
  else
    let blockA ← decodeBlock a
    let b ← require (Json.field data Key.b) .keyError
    let blockB ← decodeBlock b
    let (offender, height) ← verifyEquivocation blockA blockB
    pure (offender, .block offender height)

/-! ## Building blocks and operations -/

/-- Build a block and have the proposer sign its hash. -/
def sealBlock
    (previousHash : Str)
    (index : Int)
    (wallet : Wallet)
    (transactions : List Transaction)
    (timestamp : Int)
    (nonce : Int)
    (randomness : Nat) : Except Error Block := do
  let block := Block.postInit
    { index, previousHash, timestamp, transactions, validator := wallet.address, nonce }
  let message ← require (fromHex block.hash) .valueError
  pure { block with
    proposerPubkey := wallet.publicKeyHex
    validatorSig := hex (wallet.sign randomness message) }

/-- The object that a vote over a link carries. -/
def Link.toJson (link : Link) : Json :=
  .obj [(Key.s, .str link.source), (Key.sh, .int link.sourceHeight),
    (Key.t, .str link.target), (Key.th, .int link.targetHeight)]

/-- Build a signed finality vote. -/
def voteTx
    (voter : Wallet)
    (link : Link)
    (nonce fee : Int)
    (randomness : Nat) : Except Error Transaction :=
  Transaction.sign
    { sender := voter.address, recipient := VOTE_SENTINEL, amount := 0, fee, nonce,
      evidence := canonicalText link.toJson }
    voter randomness

end

end Mindees
