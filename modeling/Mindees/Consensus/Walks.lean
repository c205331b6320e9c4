import Mindees.Consensus.Untyped

/-!
# How deep validation goes

The interpreter walks through nested values by recursion and raises a
`RecursionError` when its stack is used up, which no handler on the path of a
block catches.  For every step of the validation, the walks it makes until it
returns or raises.
-/

namespace Mindees

open Library

namespace Json

/-! ## Nesting -/

mutual

/-- How deep lists and objects lie in one another. -/
def depth : Json → Nat
  | arr items => depthItems items + 1
  | obj fields => depthFields fields + 1
  | _ => 0

def depthItems : List Json → Nat
  | [] => 0
  | item :: rest => max item.depth (depthItems rest)

def depthFields : List (Str × Json) → Nat
  | [] => 0
  | (_, value) :: rest => max value.depth (depthFields rest)

end

end Json

namespace Untyped

/-- A walk through values, one call of the interpreter for each level of nesting. -/
inductive Walk
  /-- `json.dumps` of what is hashed or signed. -/
  | dump (value : Json)
  /-- `json.loads` of evidence. -/
  | load (text : Str)
  /-- `==` and `<` on two values. -/
  | compare (left right : Json)
  /-- A value in the text of an error. -/
  | format (value : Json)

/-- The levels that a walk goes down; a text has at most as many as opening brackets. -/
def Walk.depth : Walk → Nat
  | .dump value => value.depth
  | .load text => text.countP fun char => char = '[' ∨ char = '\x7b'
  | .compare left right => min left.depth right.depth
  | .format value => value.depth

/-- What is left of the interpreter's stack for the walks of a call. -/
class Stack where
  /-- The walk ends before the stack is used up. -/
  holds : Walk → Bool

/-- A stack for walks of a hundred levels. -/
@[reducible] def shallowStack : Stack := ⟨fun walk => walk.depth ≤ 100⟩

/-- The walks that follow a step, if it returns. -/
def Walk.after {α : Type} (step : Except Error α) (next : α → List Walk) : List Walk :=
  match step with
  | .ok value => next value
  | .error _ => []

theorem Walk.mem_after
    {α : Type}
    {step : Except Error α}
    {next : α → List Walk}
    {walk : Walk} :
    walk ∈ Walk.after step next ↔ ∃ value, step = .ok value ∧ walk ∈ next value := by
  cases step <;> simp [Walk.after]

open Walk

variable [Primitives]

/-! ## Transactions and blocks -/

namespace Transaction

/-- The identifier is the hash of every field. -/
def txidWalk (tx : Transaction) : Walk :=
  .dump (.obj
    [(Key.sender, tx.sender), (Key.recipient, tx.recipient), (Key.amount, tx.amount),
      (Key.fee, tx.fee), (Key.nonce, tx.nonce), (Key.publicKey, tx.publicKey),
      (Key.signature, tx.signature), (Key.evidence, tx.evidence)])

/-- The payload is built for a sender who owns the key. -/
def isValidWalks (tx : Transaction) : List Walk :=
  match tx.shape with
  | none => []
  | some _ =>
      after tx.publicKey.fromHex fun publicKey =>
        match publicKey with
        | none => []
        | some publicKey =>
            after tx.signature.fromHex fun signature =>
              if signature = none then []
              else if tx.sender.eq (.str (addressFromPublicKey publicKey)) = false then []
              else
                [.dump (.obj
                  [(Key.sender, tx.sender), (Key.recipient, tx.recipient),
                    (Key.amount, tx.amount), (Key.fee, tx.fee), (Key.nonce, tx.nonce),
                    (Key.publicKey, tx.publicKey), (Key.evidence, tx.evidence)])]

end Transaction

/-- The identifiers of the transactions of a block. -/
def Block.txidWalks (block : Block) : List Walk := block.transactions.map Transaction.txidWalk

/-- The hash of a block. -/
def Block.hashWalk (block : Block) : Walk := .dump block.header

/-- Only a missing Merkle root is computed. -/
def decodeBlockWalks (data : Json) : List Walk :=
  match data with
  | .obj fields =>
      if ((Json.field fields Key.merkleRoot).getD .null).truthy then []
      else after (decodeBlock data) Block.txidWalks
  | _ => []

/-! ## Evidence -/

def isDoubleVoteWalks (left right : RawLink) : List Walk :=
  .compare left.th right.th ::
    if left.th.eq right.th = false then []
    else
      .compare left.t right.t ::
        if left.t.eq right.t = false then [] else [.compare left.s right.s]

def surroundsWalks (outer inner : RawLink) : List Walk :=
  .compare outer.sh inner.sh ::
    after (jsonLt outer.sh inner.sh) fun below =>
      if below then [.compare inner.th outer.th] else []

def isSurroundVoteWalks (left right : RawLink) : List Walk :=
  surroundsWalks left right ++
    after (surrounds left right) fun outer => if outer then [] else surroundsWalks right left

def verifyVoteFaultWalks (txA txB : Transaction) : List Walk :=
  txA.isValidWalks ++
    after (do require (← txA.isValid) (.validation "")) fun a =>
      txB.isValidWalks ++
        after (do require (← txB.isValid) (.validation "")) fun b =>
          if a.recipient.eq (.str VOTE_SENTINEL) = false ∨
              b.recipient.eq (.str VOTE_SENTINEL) = false ∨ a.sender ≠ b.sender then []
          else
            .load a.evidence ::
              after (loadJson a.evidence) fun fieldsA =>
                .load b.evidence ::
                  after (loadJson b.evidence) fun fieldsB =>
                    after (rawLink "vote-fault: link" fieldsA) fun linkA =>
                      after (rawLink "vote-fault: link" fieldsB) fun linkB =>
                        isDoubleVoteWalks linkA linkB ++ isSurroundVoteWalks linkA linkB ++
                          after (isSurroundVote linkA linkB) fun surround =>
                            if isDoubleVote linkA linkB = false ∧ surround = false then []
                            else
                              [txA.txidWalk, txB.txidWalk,
                                .dump (.arr (sortedPair txA.txid txB.txid))]

def selfAuthenticatingWalks (block : Block) : List Walk :=
  if block.proposerPubkey.truthy = false ∨ block.validatorSig.truthy = false then []
  else
    after (hexBytes block.proposerPubkey) fun publicKey =>
      if block.validator.eq (.str (addressFromPublicKey publicKey)) = false then []
      else [block.hashWalk]

def verifyEquivocationWalks (b1 b2 : Block) : List Walk :=
  .compare b1.index b2.index ::
    if b1.index.eq b2.index = false then []
    else
      .compare b1.previousHash b2.previousHash ::
        if b1.previousHash.eq b2.previousHash = false then []
        else
          .compare b1.validator b2.validator ::
            if b1.validator.eq b2.validator = false then []
            else
              b1.hashWalk :: b2.hashWalk ::
                if b1.hash = b2.hash then []
                else
                  selfAuthenticatingWalks b1 ++
                    after (selfAuthenticating b1) fun _ => selfAuthenticatingWalks b2

def slashOffenseWalks (evidence : Str) : List Walk :=
  .load evidence ::
    after (loadJson evidence) fun data =>
      after (require (Json.field data Key.a) .keyError) fun a =>
        if ((Json.field data Key.kind).getD .null).eq (.str Key.vote) then
          after (decodeTx a) fun voteA =>
            after (require (Json.field data Key.b) .keyError) fun b =>
              after (decodeTx b) fun voteB => verifyVoteFaultWalks voteA voteB
        else
          decodeBlockWalks a ++
            after (decodeBlock a) fun blockA =>
              after (require (Json.field data Key.b) .keyError) fun b =>
                decodeBlockWalks b ++
                  after (decodeBlock b) fun blockB => verifyEquivocationWalks blockA blockB

/-! ## The transactions of a block -/

/-- Evidence is all that the effect of a valid transaction walks through. -/
def applyTxWalks (config : Config) (tx : Checked) : List Walk :=
  match tx.recipient with
  | .str recipient =>
      if recipient = SLASH_SENTINEL then
        if tx.evidence = [] ∨ config.treasuryAddress = none then []
        else slashOffenseWalks tx.evidence
      else if recipient = VOTE_SENTINEL then [.load tx.evidence]
      else []
  | _ => []

def applyNextWalks
    (config : Config)
    (progress : List Str × State)
    (tx : Transaction) : List Walk :=
  tx.txidWalk ::
    if tx.txid ∈ progress.1 then []
    else
      tx.isValidWalks ++
        after tx.isValid fun valid =>
          match valid with
          | none => [tx.txidWalk]
          | some checked =>
              if progress.2.ledger.nonces.getD checked.sender 0 ≠ checked.nonce then []
              else applyTxWalks config checked

/-- One transaction after the other. -/
def transactionsWalks
    (config : Config)
    (block : Mindees.Block)
    (justifiedParent : Finset Str) : List Str × State → List Transaction → List Walk
  | _, [] => []
  | progress, tx :: rest =>
      applyNextWalks config progress tx ++
        after (applyNext config block justifiedParent progress tx) fun progress =>
          transactionsWalks config block justifiedParent progress rest

/-! ## Blocks -/

def checkProposerWalks (stakes : Dict Str Int) (block : Block) : List Walk :=
  after
    (do
      let parent ← require (← block.previousHash.fromHex) .valueError
      let index ← require block.index.integer .attributeError
      electValidator stakes (sha256 (parent ++ (← toBytes8 index))))
    fun expected =>
      if block.validator.eq (.str expected) = false then [.format block.validator]
      else selfAuthenticatingWalks block

namespace Chain

def applyWalks (chain : Chain) (block : Block) : List Walk :=
  chain.head.hashWalk ::
    if block.previousHash.eq (.str chain.head.hash) = false then []
    else
      after (require chain.nextIndex .typeError) fun next =>
        if block.index.eq (.int next) = false then []
        else
          block.txidWalks ++
            if block.merkleRoot.eq
                (.str (merkleRoot (block.transactions.map Transaction.txid))) = false then []
            else
              checkProposerWalks chain.state.ledger.stakes block ++
                after (checkProposer chain.state.ledger.stakes block) fun view =>
                  (if view.index % chain.config.epoch = 0 then [block.hashWalk] else []) ++
                    transactionsWalks chain.config view chain.state.ledger.justified
                      ([], applyBlockPre chain.config block.hash view.index chain.state)
                      block.transactions

/-- All walks while a JSON value is decoded and submitted. -/
def walks (chain : Chain) (data : Json) : List Walk :=
  decodeBlockWalks data ++ after (decodeBlock data) chain.applyWalks

/-- `submit_block(decode_block(data))` on a stack of some size. -/
def receiveOn [Stack] (chain : Chain) (data : Json) : Except Error Chain :=
  if (chain.walks data).all Stack.holds then chain.receive data else .error .recursionError

end Chain

end Untyped

end Mindees
