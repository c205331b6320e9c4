import Mindees.Node.Production
import Mindees.Node.FeeMarket
import Mindees.Node.Transport

/-!
# The size of a gossiped block

A message is one line of JSON, and a reader drops a line over a limit of bytes.
Selection bounds a block by the number of its transactions.  The line of a block
is as long as its transactions and an envelope together, so a produced block
reaches the peers exactly when these stay within the limit.
-/

namespace Mindees

open Library

/-! ## Bytes -/

/-- `text.encode()`. -/
def encodeUtf8 (text : Str) : Bytes := text.flatMap String.utf8EncodeChar

/-- `line.decode()`; `none` stands for its `UnicodeDecodeError`. -/
def decodeUtf8 (line : Bytes) : Option Str := line.toByteArray.utf8Decode?.map Array.toList

/-- A text is what its bytes are read as. -/
theorem decodeUtf8_encodeUtf8 (text : Str) : decodeUtf8 (encodeUtf8 text) = some text := by
  have bytes : (encodeUtf8 text).toByteArray = text.utf8Encode := rfl
  rw [decodeUtf8, bytes, List.utf8Decode?_utf8Encode]
  rfl

@[simp] theorem encodeUtf8_append (left right : Str) :
    encodeUtf8 (left ++ right) = encodeUtf8 left ++ encodeUtf8 right :=
  List.flatMap_append

/-- A printable text has one byte for each character, and none of them is a newline. -/
theorem encodeUtf8_of_printable
    {text : Str}
    (printable : text.all Json.isPrintable = true) :
    (encodeUtf8 text).length = text.length ∧ 10 ∉ encodeUtf8 text := by
  induction text with
  | nil => exact ⟨rfl, List.not_mem_nil⟩
  | cons char rest inductionHypothesis =>
      rw [List.all_cons, Bool.and_eq_true] at printable
      obtain ⟨here, later⟩ := printable
      obtain ⟨length, clean⟩ := inductionHypothesis later
      simp only [Json.isPrintable, Bool.and_eq_true, decide_eq_true_eq] at here
      have single : String.utf8EncodeChar char = [UInt8.ofNat char.toNat] := by
        apply String.utf8EncodeChar_eq_singleton
        rw [Char.utf8Size_eq_one_iff]
        exact UInt32.le_iff_toNat_le.mpr (by simpa using here.2.trans (by decide))
      have whole : encodeUtf8 (char :: rest) = UInt8.ofNat char.toNat :: encodeUtf8 rest := by
        rw [encodeUtf8, List.flatMap_cons, single]
        rfl
      rw [whole]
      refine ⟨by rw [List.length_cons, List.length_cons, length], ?_⟩
      rw [List.mem_cons, not_or]
      refine ⟨fun same => ?_, clean⟩
      have code := congrArg UInt8.toNat same
      rw [UInt8.toNat_ofNat'] at code
      have ten : (10 : UInt8).toNat = 10 := rfl
      omega

/-! ## Lines -/

/-- The limit of a line, in bytes. -/
def MAX_MSG_BYTES : Nat := 4000000

/-- The bytes up to the first newline, with it. -/
def firstLine : Bytes → Bytes
  | [] => []
  | byte :: rest => if byte = 10 then [byte] else byte :: firstLine rest

/-- `rfile.readline(limit)`. -/
def readline (limit : Nat) (stream : Bytes) : Bytes := (firstLine stream).take limit

/-- What a handler accepts of a connection: a line that is not empty, not oversize
and ended by a newline. -/
def gossipLine (stream : Bytes) : Option Bytes :=
  let line := readline (MAX_MSG_BYTES + 1) stream
  if line = [] ∨ MAX_MSG_BYTES < line.length ∨ line.getLast? ≠ some 10 then none else some line

theorem firstLine_concat
    {body : Bytes}
    (clean : 10 ∉ body) :
    firstLine (body ++ [10]) = body ++ [10] := by
  induction body with
  | nil => rfl
  | cons byte rest inductionHypothesis =>
      rw [List.mem_cons, not_or] at clean
      have other : byte ≠ 10 := fun same => clean.1 same.symm
      rw [List.cons_append, firstLine, if_neg other, inductionHypothesis clean.2]

/-- A handler accepts a line exactly when it is within the limit. -/
theorem gossipLine_concat
    {body : Bytes}
    (clean : 10 ∉ body) :
    gossipLine (body ++ [10]) =
      if (body ++ [10]).length ≤ MAX_MSG_BYTES then some (body ++ [10]) else none := by
  rw [gossipLine, readline, firstLine_concat clean]
  by_cases fits : (body ++ [10]).length ≤ MAX_MSG_BYTES
  · have whole : (body ++ [10]).take (MAX_MSG_BYTES + 1) = body ++ [10] :=
      List.take_of_length_le (Nat.le_succ_of_le fits)
    have accepted : ¬(body ++ [10] = [] ∨ MAX_MSG_BYTES < (body ++ [10]).length ∨
        (body ++ [10]).getLast? ≠ some 10) := by
      rintro (empty | oversize | unfinished)
      · simp at empty
      · exact absurd fits (Nat.not_le.mpr oversize)
      · exact unfinished List.getLast?_concat
    rw [whole, if_neg accepted, if_pos fits]
  · have oversize : MAX_MSG_BYTES < ((body ++ [10]).take (MAX_MSG_BYTES + 1)).length := by
      rw [List.length_take]
      omega
    rw [if_pos (.inr (.inl oversize)), if_neg fits]

section

variable [Primitives]

/-- The bytes that `tcp_send` writes. -/
def sentLine (msg : List (Str × Json)) : Bytes := encodeUtf8 (Form.line.write (.obj msg))

variable {msg : List (Str × Json)}

/-- A message of readable data is one byte a character, and one line. -/
theorem sentLine_spec
    (readable : (Json.obj msg).Readable) :
    (sentLine msg).length = (jsonDumps (.obj msg)).length + 1 ∧
      gossipLine (sentLine msg) =
        if (sentLine msg).length ≤ MAX_MSG_BYTES then some (sentLine msg) else none := by
  have printable : (jsonDumps (.obj msg)).all Json.isPrintable = true :=
    readable.all_isPrintable rfl
  obtain ⟨length, clean⟩ := encodeUtf8_of_printable printable
  have ended : sentLine msg = encodeUtf8 (jsonDumps (.obj msg)) ++ [10] := encodeUtf8_append _ _
  rw [ended]
  refine ⟨?_, gossipLine_concat clean⟩
  rw [List.length_append, length]
  rfl

/-- The message that carries a transaction. -/
def txMessage (data : Json) : List (Str × Json) := [(Key.type, .str Key.tx), (Key.data, data)]

/-- The transaction came in a line that a handler accepted. -/
def Received (tx : Transaction) : Prop :=
  ∃ stream line text msg, gossipLine stream = some line ∧ decodeUtf8 line = some text ∧
    Primitives.jsonLoads text = some (.obj msg) ∧
    Json.field msg Key.type = some (.str Key.tx) ∧ decodeTx (carried msg) = .ok tx

/-! ## Sizes -/

/-- The characters of a value. -/
def jsonSize (value : Json) : Nat := (jsonDumps value).length

theorem length_itemsEnd (items : List Json) :
    (Json.itemsEnd Primitives.floatText [' '] items).length =
      (items.map fun item => jsonSize item + 2).sum + 1 := by
  induction items with
  | nil => rfl
  | cons item rest inductionHypothesis =>
      simp only [Json.itemsEnd, List.length_cons, List.length_append, inductionHypothesis,
        List.map_cons, List.sum_cons, List.length_nil, jsonSize, jsonDumps]
      omega

theorem length_fieldsEnd (fields : List (Str × Json)) :
    (Json.fieldsEnd Primitives.floatText [' '] fields).length =
      (fields.map fun entry => (Json.quote entry.1).length + jsonSize entry.2 + 4).sum + 1 := by
  induction fields with
  | nil => rfl
  | cons entry rest inductionHypothesis =>
      simp only [Json.fieldsEnd, List.length_cons, List.length_append, inductionHypothesis,
        List.map_cons, List.sum_cons, List.length_nil, jsonSize, jsonDumps]
      omega

/-- Around and between the items of a list stand two characters for each item. -/
theorem jsonSize_arr (items : List Json) :
    jsonSize (.arr items) = max 2 (items.map fun item => jsonSize item + 2).sum := by
  cases items with
  | nil => rfl
  | cons item rest =>
      have ended := length_itemsEnd rest
      simp only [jsonSize, jsonDumps, Json.render, List.length_cons, List.length_append,
        List.map_cons, List.sum_cons] at ended ⊢
      omega

/-- Around the key and the value of a member of an object stand four characters. -/
theorem jsonSize_obj
    (key : Str)
    (value : Json)
    (fields : List (Str × Json)) :
    jsonSize (.obj ((key, value) :: fields)) =
      (((key, value) :: fields).map fun entry =>
        (Json.quote entry.1).length + jsonSize entry.2 + 4).sum := by
  have ended := length_fieldsEnd fields
  simp only [jsonSize, jsonDumps, Json.render_obj_cons, List.length_cons, List.length_append,
    List.map_cons, List.sum_cons, List.length_nil] at ended ⊢
  omega

omit [Primitives] in
theorem length_quote_hex (bytes : Bytes) :
    (Json.quote (hex bytes)).length = 2 * bytes.length + 2 := by
  have plain : ∀ value < 16, Json.escape (hexDigit value) = [hexDigit value] := by decide
  have digits : ((hex bytes).flatMap Json.escape).length = 2 * bytes.length := by
    induction bytes with
    | nil => rfl
    | cons byte rest inductionHypothesis =>
        have upper : byte.toNat / 16 < 16 := Nat.div_lt_of_lt_mul byte.toNat_lt
        have lower : byte.toNat % 16 < 16 := Nat.mod_lt _ (by decide)
        simp only [hex, List.flatMap_cons, plain _ upper, plain _ lower, List.length_append,
          List.length_cons, List.length_nil, inductionHypothesis]
        omega
  rw [Json.quote, List.length_cons, List.length_append, digits]
  rfl

@[simp] theorem jsonSize_str (text : Str) : jsonSize (.str text) = (Json.quote text).length := rfl

@[simp] theorem jsonSize_int (value : Int) : jsonSize (.int value) = (decimal value).length := rfl

omit [Primitives] in
/-- The quoted names on the wire. -/
theorem length_quote_key :
    (Json.quote Key.sender).length = 8 ∧ (Json.quote Key.recipient).length = 11 ∧
      (Json.quote Key.amount).length = 8 ∧ (Json.quote Key.fee).length = 5 ∧
      (Json.quote Key.nonce).length = 7 ∧ (Json.quote Key.publicKey).length = 12 ∧
      (Json.quote Key.signature).length = 11 ∧ (Json.quote Key.evidence).length = 10 ∧
      (Json.quote Key.index).length = 7 ∧ (Json.quote Key.previousHash).length = 15 ∧
      (Json.quote Key.timestamp).length = 11 ∧ (Json.quote Key.transactions).length = 14 ∧
      (Json.quote Key.validator).length = 11 ∧ (Json.quote Key.merkleRoot).length = 13 ∧
      (Json.quote Key.proposerPubkey).length = 17 ∧ (Json.quote Key.validatorSig).length = 15 ∧
      (Json.quote Key.type).length = 6 ∧ (Json.quote Key.data).length = 6 ∧
      (Json.quote Key.tx).length = 4 ∧ (Json.quote Key.block).length = 7 := by
  decide

/-- What a transaction takes. -/
theorem jsonSize_encodeTx (tx : Transaction) :
    jsonSize tx.encodeTx =
      104 + (Json.quote tx.sender).length + (Json.quote tx.recipient).length +
        (decimal tx.amount).length + (decimal tx.fee).length + (decimal tx.nonce).length +
        (Json.quote tx.publicKey).length + (Json.quote tx.signature).length +
        (Json.quote tx.evidence).length := by
  simp only [Transaction.encodeTx, jsonSize_obj, jsonSize_str, jsonSize_int, length_quote_key,
    List.map_cons, List.map_nil, List.sum_cons, List.sum_nil]
  omega

omit [Primitives] in
theorem readable_txMessage (tx : Transaction) : (Json.obj (txMessage tx.encodeTx)).Readable := by
  have keys : [Key.type, Key.data].Nodup := by decide
  refine .obj keys ?_
  intro entry inside
  simp only [txMessage, List.mem_cons, List.not_mem_nil, or_false] at inside
  rcases inside with rfl | rfl
  · exact .str _
  · exact readable_encodeTx tx

/-- The line of a transaction. -/
theorem length_txLine (tx : Transaction) :
    (sentLine (txMessage tx.encodeTx)).length = jsonSize tx.encodeTx + 25 := by
  rw [(sentLine_spec (readable_txMessage tx)).1]
  have whole : (jsonDumps (.obj (txMessage tx.encodeTx))).length =
      jsonSize (.obj (txMessage tx.encodeTx)) := rfl
  rw [whole, txMessage]
  simp only [jsonSize_obj, jsonSize_str, length_quote_key, List.map_cons, List.map_nil,
    List.sum_cons, List.sum_nil]
  omega

/-- What the line of a sealed block takes besides the list of its transactions: the
keys and the punctuation, and the values of the other fields. -/
def envelope
    (index : Int)
    (previousHash : Str)
    (timestamp : Int)
    (validator root : Str)
    (publicKey signature : Bytes) : Nat :=
  179 + (decimal index).length + (Json.quote previousHash).length + (decimal timestamp).length +
    (Json.quote validator).length + (Json.quote root).length +
      2 * (publicKey.length + signature.length)

/-- The line of a block is an envelope and the list of its transactions. -/
theorem length_blockLine
    {block : Block}
    {publicKey signature : Bytes}
    (unit : block.nonce = 0)
    (key : block.proposerPubkey = hex publicKey)
    (signed : block.validatorSig = hex signature) :
    (sentLine (blockMessage block.encodeBlock)).length =
      envelope block.index block.previousHash block.timestamp block.validator block.merkleRoot
          publicKey signature +
        max 2 (block.transactions.map fun tx => jsonSize tx.encodeTx + 2).sum := by
  rw [(sentLine_spec (readable_blockMessage block)).1]
  have zero : (decimal 0).length = 1 := rfl
  have whole : (jsonDumps (.obj (blockMessage block.encodeBlock))).length =
      jsonSize (.obj [(Key.type, .str Key.block), (Key.data, block.encodeBlock)]) := rfl
  rw [whole, Block.encodeBlock, unit, key, signed, envelope]
  simp only [jsonSize_obj, jsonSize_arr, jsonSize_str, jsonSize_int, length_quote_hex,
    length_quote_key, zero, List.map_cons, List.map_nil, List.sum_cons, List.sum_nil,
    List.map_map, Function.comp_def]
  omega

namespace P2PNode

/-- A handler serves one connection.  An error ends it, and leaves the node as it is
by then. -/
def handle (node : P2PNode) (stream : Bytes) : P2PNode :=
  match (gossipLine stream).bind fun line => (decodeUtf8 line).bind Primitives.jsonLoads with
  | some (.obj msg) => (node.onMessage msg).2
  | _ => node

/-- A peer hears a message exactly when its line is within the limit. -/
theorem handle_sentLine
    (undoes : UndoesJson)
    (readable : (Json.obj msg).Readable)
    (node : P2PNode) :
    node.handle (sentLine msg) =
      if (sentLine msg).length ≤ MAX_MSG_BYTES then (node.onMessage msg).2 else node := by
  rw [handle, (sentLine_spec readable).2]
  split_ifs with fits
  · rw [Option.bind_some, sentLine, decodeUtf8_encodeUtf8, Option.bind_some,
      undoes.line _ readable]
  · rfl

end P2PNode

/-! ## Production -/

namespace NodeService

variable {service : NodeService} {timestamp : Int} {randomness : Nat} {data : Json}

/-- The next block before it is sealed. -/
def draft (service : NodeService) (wallet : Wallet) (timestamp : Int) : Block :=
  Block.postInit
    { index := service.chain.head.index + 1
      previousHash := service.chain.head.hash
      timestamp
      transactions := service.mempool.select service.chain
      validator := wallet.address
      nonce := 0 }

/-- What the envelope of the next block and the transactions selected for it take. -/
def lineSize
    (service : NodeService)
    (wallet : Wallet)
    (timestamp : Int)
    (randomness : Nat) : Nat :=
  let selected := service.mempool.select service.chain
  let message := sha256 (canonical (service.draft wallet timestamp).header)
  envelope (service.chain.head.index + 1) service.chain.head.hash timestamp wallet.address
      (merkleRoot (selected.map Transaction.txid)) wallet.publicKeyBytes
      (wallet.sign randomness message) +
    max 2 (selected.map fun tx => jsonSize tx.encodeTx + 2).sum

/-- The envelope and the transactions stay within the limit of a line. -/
def LineFits (service : NodeService) (timestamp : Int) (randomness : Nat) : Prop :=
  ∀ wallet, service.validator = some wallet →
    service.lineSize wallet timestamp randomness ≤ MAX_MSG_BYTES

/-- The seal of the next block. -/
theorem nextBlock_eq
    (service : NodeService)
    (wallet : Wallet)
    (timestamp : Int)
    (randomness : Nat) :
    service.nextBlock wallet timestamp randomness =
      .ok { service.draft wallet timestamp with
        proposerPubkey := wallet.publicKeyHex
        validatorSig := hex (wallet.sign randomness
          (sha256 (canonical (service.draft wallet timestamp).header))) } := by
  have message : fromHex (service.draft wallet timestamp).hash =
      some (sha256 (canonical (service.draft wallet timestamp).header)) := fromHex_hex _
  simp only [nextBlock, sealBlock, bind_eq_ok, require_eq_ok, pure_eq_ok]
  exact ⟨_, message, rfl⟩

/-- The line of the next block is as long as the envelope and the transactions. -/
theorem length_nextBlock
    {wallet : Wallet}
    {block : Block}
    (built : service.nextBlock wallet timestamp randomness = .ok block) :
    (sentLine (blockMessage block.encodeBlock)).length =
      service.lineSize wallet timestamp randomness := by
  rw [nextBlock_eq] at built
  have filled := Except.ok.inj built
  have key : block.proposerPubkey = hex wallet.publicKeyBytes := by rw [← filled]; rfl
  have signed : block.validatorSig = hex (wallet.sign randomness
      (sha256 (canonical (service.draft wallet timestamp).header))) := by rw [← filled]
  have unit : block.nonce = 0 := by rw [← filled]; rfl
  rw [length_blockLine unit key signed, ← filled]
  rfl

/-- What is produced is the next block, sealed by the validator. -/
theorem nextBlock_of_produceBlock
    (produced : (service.produceBlock timestamp randomness).1 = .ok data) :
    ∃ wallet block, service.validator = some wallet ∧
      service.nextBlock wallet timestamp randomness = .ok block ∧ data = block.encodeBlock := by
  unfold produceBlock at produced
  split at produced
  case h_1 => cases produced
  case h_2 => cases produced
  case h_3 => split at produced <;> cases produced
  case h_4 wallet configured _ =>
    split at produced
    case h_1 => cases produced
    case h_2 block built =>
      split at produced
      case h_1 => cases produced
      case h_2 =>
        cases produced
        exact ⟨wallet, block, configured, built, rfl⟩

end NodeService

/-- What is produced is gossiped. -/
theorem P2PNode.produceAndGossip_eq_ok
    {node : P2PNode}
    {timestamp : Int}
    {randomness : Nat}
    {data : Json} :
    (node.produceAndGossip timestamp randomness).1 = .ok data ↔
      (node.service.produceBlock timestamp randomness).1 = .ok data := by
  have decodes : ∀ {sent : Json}, (node.service.produceBlock timestamp randomness).1 = .ok sent →
      ∃ block, decodeBlock sent = .ok block := by
    intro sent produced
    obtain ⟨_, block, _, _, rfl⟩ := NodeService.nextBlock_of_produceBlock produced
    exact ⟨_, decodeBlock_encodeBlock block⟩
  unfold produceAndGossip
  generalize node.service.produceBlock timestamp randomness = outcome at decodes ⊢
  obtain ⟨result, service⟩ := outcome
  cases result with
  | error error => exact Iff.rfl
  | ok sent =>
      obtain ⟨block, decoded⟩ := decodes rfl
      dsimp only
      rw [decoded]

/-- Every handler accepts the line of a produced block, and it is within the limit,
exactly when the envelope of the block and the transactions selected for it are. -/
theorem P2PNode.gossip_fits_iff
    {node : P2PNode}
    {timestamp : Int}
    {randomness : Nat}
    {data : Json}
    (produced : (node.produceAndGossip timestamp randomness).1 = .ok data) :
    ((sentLine (blockMessage data)).length ≤ MAX_MSG_BYTES ∧
      gossipLine (sentLine (blockMessage data)) = some (sentLine (blockMessage data))) ↔
        node.service.LineFits timestamp randomness := by
  obtain ⟨wallet, block, configured, built, rfl⟩ :=
    NodeService.nextBlock_of_produceBlock (produceAndGossip_eq_ok.mp produced)
  have size := NodeService.length_nextBlock built
  have accepted := (sentLine_spec (readable_blockMessage block)).2
  constructor
  · rintro ⟨within, _⟩ other isOther
    obtain rfl := Option.some.inj (configured.symm.trans isOther)
    rwa [← size]
  · intro fits
    have within : (sentLine (blockMessage block.encodeBlock)).length ≤ MAX_MSG_BYTES := by
      rw [size]
      exact fits wallet configured
    exact ⟨within, accepted.trans (if_pos within)⟩

end

/-! ## A block that nobody hears -/

namespace BlockSizeSample

open Mempool

attribute [local instance] TransportSample.primitives

theorem wallet_sound (number : UInt8) : (Symbolic.wallet number).Sound := by
  obtain ⟨key, signed, verified⟩ := Symbolic.wallet_sound number
  exact ⟨key, signed, verified⟩

def validator : Wallet := Symbolic.wallet 1

def client : Wallet := Symbolic.wallet 2

theorem treeBuilt : succeeded (BlockTree.init ProductionSample.args) = true := by decide +kernel

/-- The node of the validator. -/
def fresh : NodeService where
  tree := outcome (BlockTree.init ProductionSample.args) treeBuilt
  mempool := .init
  validator := some validator
  autoproduce := false
  store := []

theorem fresh_reachable : NodeService.Reachable ProductionSample.args none fresh := by
  have built := eq_ok_outcome _ treeBuilt
  have initialised : NodeService.init ProductionSample.args [] (some validator) = .ok fresh := by
    simp only [NodeService.init, bind_eq_ok]
    exact ⟨_, built, _, rfl, rfl⟩
  exact .init initialised

theorem fresh_allows :
    fresh.chain.nextValidator = .ok validator.address ∧ fresh.tree.wsCheckpoint = none ∧
      fresh.chain.state.nonces.getD client.address 0 = 0 ∧
      1 ≤ fresh.chain.balanceOf client.address ∧
      fresh.chain.config.vesting.get? client.address = none := by
  decide +kernel

theorem payee_ordinary :
    validator.address ≠ STAKE_SENTINEL ∧ validator.address ≠ UNSTAKE_SENTINEL ∧
      validator.address ≠ SLASH_SENTINEL ∧ validator.address ≠ VOTE_SENTINEL := by
  decide +kernel

/-- The client pays one unit, and fills the evidence of the payment. -/
def draft (filling : Nat) : Transaction where
  sender := client.address
  recipient := validator.address
  amount := 1
  fee := 0
  nonce := 0
  publicKey := client.publicKeyHex
  evidence := List.replicate filling 'a'

def payment (filling : Nat) : Transaction :=
  { draft filling with
    signature := hex (client.sign 0 (draft filling).signingPayload) }

theorem payment_valid (filling : Nat) : (payment filling).isValid = true := by
  have signed : (draft filling).sign client 0 = .ok (payment filling) := by
    simp only [Transaction.sign, rejectIf, bind_eq_ok, raiseIf_eq_ok, pure_eq_ok, exists_unit,
      ne_eq, not_not]
    exact ⟨rfl, rfl⟩
  apply (wallet_sound 2).isValid_sign ⟨Int.one_nonneg, le_rfl, le_rfl⟩ _ _ signed
  · exact fun named => absurd named (not_or.mpr payee_ordinary.2.2)
  · exact fun _ => Int.one_pos

/-- The pool that holds the payment. -/
def pool (filling : Nat) : Mempool := ⟨Dict.empty.set (payment filling).txid (payment filling)⟩

theorem added (filling : Nat) :
    fresh.mempool.add (payment filling) fresh.chain = .ok (true, pool filling) := by
  obtain ⟨_, _, nonce, _, _⟩ := fresh_allows
  have unspent :
      ¬(payment filling).nonce < fresh.chain.state.nonces.getD (payment filling).sender 0 :=
    not_lt.mpr nonce.le
  simp only [Mempool.add, rejectIf, bind_eq_ok, raiseIf_eq_ok, exists_unit, payment_valid]
  refine ⟨Bool.true_eq_false.mp, lt_irrefl 0, unspent, rfl⟩

def node (filling : Nat) : P2PNode := .init { fresh with mempool := pool filling }

theorem node_reachable (filling : Nat) :
    NodeService.Reachable ProductionSample.args none (node filling).service :=
  fresh_reachable.gossipTx (added filling)

theorem select_pool (filling : Nat) :
    (pool filling).select fresh.chain = [payment filling] := by
  apply select_alone (sound_init.add (added filling)) rfl _ (by decide)
  obtain ⟨_, _, nonce, funded, _⟩ := fresh_allows
  obtain ⟨_, notUnstake, notSlash, notVote⟩ := payee_ordinary
  have costs : cost (payment filling) fresh.chain.config.unbondingBlocks = (1 + 0, -(1 + 0)) :=
    cost_payment _ notUnstake notSlash notVote
  refine ⟨nonce.symm, ?_⟩
  rw [costs]
  exact funded.trans (le_add_of_nonneg_right le_rfl)

/-- The selection meets the rules of the chain. -/
theorem meets (filling : Nat) (block : Block) :
    fresh.chain.SelectionMeetsRules block ((pool filling).select fresh.chain) := by
  rw [select_pool]
  intro earlier tx later split state _
  have same : tx = payment filling := by
    have inside : tx ∈ [payment filling] := by
      rw [split]
      exact List.mem_append_right _ List.mem_cons_self
    exact List.mem_singleton.mp inside
  rw [same]
  obtain ⟨notStake, notUnstake, notSlash, notVote⟩ := payee_ordinary
  have unlocked : fresh.chain.config.vesting.get? (payment filling).sender = none :=
    fresh_allows.2.2.2.2
  have recipient : (payment filling).recipient = validator.address := rfl
  rw [meetsRules, recipient, if_neg notStake, if_neg notUnstake, if_neg notSlash, if_neg notVote,
    keepsLocked, unlocked]

/-- The node produces the block of the payment, and gossips it. -/
theorem gossips (filling : Nat) :
    ∃ data, ((node filling).produceAndGossip 1700000010 0).1 = .ok data := by
  have built := (node filling).service.nextBlock_eq validator 1700000010 0
  obtain ⟨elected, unchecked, _⟩ := fresh_allows
  have trust : ∀ hash, fresh.tree.trusts (fresh.chain.head.index + 1) hash := by
    intro hash checkpoint given
    rw [unchecked] at given
    cases given
  have produced := (node_reachable filling).produces rfl (wallet_sound 1) elected built
    (trust _) (meets filling _)
  obtain ⟨data, made⟩ := (succeeded_iff _).mp produced
  exact ⟨data, P2PNode.produceAndGossip_eq_ok.mpr made⟩

theorem sign_length (number : UInt8) (randomness : Nat) (message : Bytes) :
    ((Symbolic.wallet number).sign randomness message).length = 4 := rfl

theorem quoted_filling (filling : Nat) :
    (Json.quote (List.replicate filling 'a')).length = filling + 2 := by
  have plain : Json.escape 'a' = ['a'] := by decide
  rw [Json.quote, List.length_cons, List.length_append, List.length_flatMap, List.map_replicate,
    plain, List.sum_replicate]
  simp

/-- What the fields of the first chain and of the wallets take. -/
theorem widths :
    (decimal (fresh.chain.head.index + 1)).length = 1 ∧
      (Json.quote fresh.chain.head.hash).length = 10 ∧
      (decimal 1700000010).length = 10 ∧ (decimal 1).length = 1 ∧ (decimal 0).length = 1 ∧
      (Json.quote validator.address).length = 13 ∧
      (Json.quote client.address).length = 13 := by
  decide +kernel

theorem jsonSize_payment (filling : Nat) :
    jsonSize (payment filling).encodeTx = filling + 149 := by
  obtain ⟨_, _, _, one, zero, validatorAddress, clientAddress⟩ := widths
  have key : (Json.quote (payment filling).publicKey).length = 4 := length_quote_hex _
  have signature : (Json.quote (payment filling).signature).length = 10 := length_quote_hex _
  have evidence : (Json.quote (payment filling).evidence).length = filling + 2 :=
    quoted_filling filling
  have sender : (Json.quote (payment filling).sender).length = 13 := clientAddress
  have recipient : (Json.quote (payment filling).recipient).length = 13 := validatorAddress
  have amount : (decimal (payment filling).amount).length = 1 := one
  have fee : (decimal (payment filling).fee).length = 1 := zero
  have nonce : (decimal (payment filling).nonce).length = 1 := zero
  rw [jsonSize_encodeTx]
  omega

/-- The root of one transaction is its identifier. -/
theorem merkleRoot_singleton (tx : Transaction) : merkleRoot [tx.txid] = tx.txid := by
  have digits : fromHex tx.txid = some (sha256 (canonical tx.encodeTx)) := fromHex_hex _
  rw [merkleRoot, if_neg (List.cons_ne_nil _ _), List.map_singleton, digits]
  rfl

theorem lineSize_node (filling : Nat) :
    (node filling).service.lineSize validator 1700000010 0 = filling + 384 := by
  obtain ⟨one, digest, timestamp, _, _, address, _⟩ := widths
  have index : (decimal ((node filling).service.chain.head.index + 1)).length = 1 := one
  have head : (Json.quote (node filling).service.chain.head.hash).length = 10 := digest
  have root : (Json.quote (payment filling).txid).length = 10 := length_quote_hex _
  have selected : (node filling).service.mempool.select (node filling).service.chain =
      [payment filling] := select_pool filling
  have key : validator.publicKeyBytes.length = 1 := rfl
  have signed : ∀ message, (validator.sign 0 message).length = 4 := sign_length 1 0
  have size := jsonSize_payment filling
  rw [NodeService.lineSize, selected, List.map_singleton, merkleRoot_singleton, envelope,
    signed, List.map_singleton, List.sum_singleton]
  omega

/-- What is gossiped of the payment. -/
theorem received (filling : Nat) (small : filling + 174 ≤ MAX_MSG_BYTES) :
    Received (payment filling) := by
  have readable := readable_txMessage (payment filling)
  have size := length_txLine (payment filling)
  rw [jsonSize_payment] at size
  have accepted := (sentLine_spec readable).2
  rw [if_pos (by omega)] at accepted
  exact ⟨_, _, _, _, accepted, decodeUtf8_encodeUtf8 _, TransportSample.undoes.line _ readable, rfl,
    decodeTx_encodeTx _⟩

/-- The line of the block. -/
theorem length_gossiped
    {filling : Nat}
    {data : Json}
    (gossiped : ((node filling).produceAndGossip 1700000010 0).1 = .ok data) :
    (sentLine (blockMessage data)).length = filling + 384 := by
  have produced := P2PNode.produceAndGossip_eq_ok.mp gossiped
  obtain ⟨wallet, block, configured, built, rfl⟩ := NodeService.nextBlock_of_produceBlock produced
  obtain rfl := Option.some.inj configured
  rw [NodeService.length_nextBlock built]
  exact lineSize_node filling

theorem gossip_fits_iff_small : (node 5).service.LineFits 1700000010 0 := by
  obtain ⟨data, gossiped⟩ := gossips 5
  apply (P2PNode.gossip_fits_iff gossiped).mp
  have within : (sentLine (blockMessage data)).length ≤ MAX_MSG_BYTES := by
    rw [length_gossiped gossiped]
    decide
  obtain ⟨_, block, _, _, rfl⟩ :=
    NodeService.nextBlock_of_produceBlock (P2PNode.produceAndGossip_eq_ok.mp gossiped)
  exact ⟨within, (sentLine_spec (readable_blockMessage block)).2.trans (if_pos within)⟩

/-- A payment whose own line is within the limit makes the block of its node too long
for every peer. -/
theorem block_unheard :
    ¬∀ (args : GenesisArgs) (checkpoint : Option Checkpoint) (node : P2PNode) (timestamp : Int)
      (randomness : Nat) (data : Json),
      NodeService.Reachable args checkpoint node.service →
      (∀ tx ∈ node.service.mempool.pool.values, Received tx) →
      (node.produceAndGossip timestamp randomness).1 = .ok data →
      (sentLine (blockMessage data)).length ≤ MAX_MSG_BYTES := by
  intro claim
  obtain ⟨data, gossiped⟩ := gossips 3999700
  have pooled : ∀ tx ∈ (node 3999700).service.mempool.pool.values, Received tx := by
    intro tx inside
    rw [List.mem_singleton.mp inside]
    exact received 3999700 (by rw [MAX_MSG_BYTES]; omega)
  have within := claim _ _ _ _ _ data (node_reachable 3999700) pooled gossiped
  rw [length_gossiped gossiped, MAX_MSG_BYTES] at within
  omega

end BlockSizeSample

end Mindees
