import Mindees.Node.Loading
import Mindees.Node.SoleValidator
import Mindees.Node.Equivocation
import Mindees.Node.FeeMarket
import Mindees.Node.Transport
import Mindees.Node.Wallet

/-!
# The one-shot chain driver

A scheduled job boots the node from disk, produces a few blocks, votes for each
new checkpoint and writes a status file.  The job keeps no state of its own, and
the ticks between them drive the chain and its finality forward.
-/

namespace Mindees

open Library ProofOfStakeChain

namespace Driver

/-! ## The program -/

/-- A small epoch, so that finality advances within a few cycles. -/
def EPOCH : Int := 4

def UNBONDING : Int := 50

def STAKE_COINS : Int := 100000

/-- The genesis of the driver: one address owns everything. -/
def genesisArgs (address : Str) : GenesisArgs where
  allocations := Dict.empty.set address MAX_SUPPLY_UNITS
  initialStakes := Dict.empty.set address (STAKE_COINS * COIN)
  timestamp := 1700000000
  unbondingBlocks := UNBONDING
  treasuryAddress := some address
  epoch := EPOCH

/-- The contents of `status.json`. -/
structure Status where
  network : String := "mindees"
  ticker : String := SYMBOL
  height : Int
  head : Str
  finalizedHeight : Int
  /-- The weak-subjectivity checkpoint. -/
  finalizedHash : Str
  supply : Int
  maxSupply : Int := MAX_SUPPLY_UNITS
  supplyOk : Bool
  validators : List Str
  updatedUnix : Int
  phase : String := "mainnet-bootstrap"

section

variable [Primitives]

/-- What the status file says of a node. -/
def statusOf (service : NodeService) (now : Int) : Status where
  height := service.chain.head.index
  head := service.chain.head.hash
  finalizedHeight := service.tree.finalizedHeight
  finalizedHash := service.tree.finalizedHash
  supply := service.chain.state.totalSupply
  supplyOk := service.chain.state.totalSupply = MAX_SUPPLY_UNITS
  validators := service.chain.state.stakes.keys.insertionSort (· ≤ ·)
  updatedUnix := now

/-- Boot the node once more and describe it. -/
def writeStatus (disk : BlockStore) (now : Int) : Except Error Status := do
  let service ← NodeService.ofStore disk
  pure (statusOf service now)

/-- Write the genesis if there is none. -/
def cmdInit (directory : Option BlockStore) (wallet : Wallet) (now : Int) :
    Except Error Status × Option BlockStore :=
  match directory with
  | some disk => (writeStatus disk now, some disk)
  | none =>
      match BlockStore.writeGenesis none (genesisArgs wallet.address) with
      | .error error => (.error error, none)
      | .ok disk => (writeStatus disk now, some disk)

/-- The vote that is due: from the highest justified checkpoint to the newest one,
unless the chain has a vote for that target. -/
def dueVote (service : NodeService) : Option (Wallet × Link × Int) :=
  match service.validator with
  | none => none
  | some wallet =>
      let chain := service.chain
      if chain.state.stakes.contains wallet.address = false then none
      else
        match chain.latestCheckpoint with
        | none => none
        | some target =>
            if chain.state.ffgSeenTarget.contains (wallet.address, target.index) = true then none
            else
              let source := chain.voteSource target.index
              if target.index ≤ source.2 then none
              else
                let pending := (service.mempool.pool.values.filter
                  fun tx => tx.sender = wallet.address).length
                some (wallet, ⟨source.1, source.2, target.hash, target.index⟩,
                  chain.state.nonces.getD wallet.address 0 + pending)

/-- Queue the vote that is due. -/
def autoVote (service : NodeService) (randomness : Nat) : Except Error Unit × NodeService :=
  match dueVote service with
  | none => (.ok (), service)
  | some (wallet, link, nonce) =>
      let added := do
        let tx ← voteTx wallet link nonce 0 randomness
        service.mempool.add tx service.chain
      match added with
      | .error error => (if error.isValidation then .ok () else .error error, service)
      | .ok (_, mempool) => (.ok (), { service with mempool })

/-- One turn of the loop of `cmd_tick`.  The result tells whether a block was
produced. -/
def slot (service : NodeService) (timestamp : Int) (draws : Nat × Nat) :
    Except Error Bool × NodeService :=
  match autoVote service draws.1 with
  | (.error error, service) => (.error error, service)
  | (.ok _, service) =>
      match service.isOurTurn with
      | .error error => (.error error, service)
      | .ok false => (.ok false, service)
      | .ok true =>
          match service.produceBlock timestamp draws.2 with
          | (.error error, service) => (.error error, service)
          | (.ok _, service) => (.ok true, service)

/-- The loop of `cmd_tick`, and the number of blocks it produced. -/
def slots (service : NodeService) (base : Int) (draws : Nat → Nat × Nat) :
    Nat → Except Error Nat × NodeService
  | 0 => (.ok 0, service)
  | blocks + 1 =>
      match slots service base draws blocks with
      | (.error error, service) => (.error error, service)
      | (.ok produced, service) =>
          let (ran, service) := slot service (base + blocks) (draws blocks)
          (ran.map fun mined => if mined then produced + 1 else produced, service)

/-- One run of the job: the two readings of its clock, the number of blocks, and
what the signer draws for the vote and for the seal of each. -/
structure Tick where
  base : Int
  blocks : Nat
  draws : Nat → Nat × Nat
  now : Int

/-- One scheduled run.  It leaves the blocks it produced on disk, whatever happens
next. -/
def cmdTick (disk : BlockStore) (wallet : Wallet) (tick : Tick) :
    Except Error (Nat × Status) × BlockStore :=
  match NodeService.ofStore disk (some wallet) with
  | .error error => (.error error, disk)
  | .ok service =>
      let (ran, after) := slots service tick.base tick.draws tick.blocks
      let disk := (after.store.drop service.store.length).foldl BlockStore.append disk
      match ran with
      | .error error => (.error error, disk)
      | .ok produced =>
          match writeStatus disk tick.now with
          | .error error => (.error error, disk)
          | .ok status => (.ok (produced, status), disk)

/-- The disk after some runs of the job. -/
def afterTicks (disk : BlockStore) (wallet : Wallet) (ticks : List Tick) : BlockStore :=
  ticks.foldl (fun disk tick => (cmdTick disk wallet tick).2) disk

/-! ## One block -/

/-- The vote of a wallet. -/
theorem exists_voteTx
    (voter : Wallet)
    (link : Link)
    (nonce fee : Int)
    (randomness : Nat) :
    ∃ tx, voteTx voter link nonce fee randomness = .ok tx ∧ tx.nonce = nonce ∧ tx.fee = fee := by
  simp only [voteTx, Transaction.sign, rejectIf, bind_eq_ok, raiseIf_eq_ok, pure_eq_ok,
    exists_unit, not_not, true_and]
  exact ⟨_, rfl, rfl, rfl⟩

/-- The vote of the validator reads back as the link it is for. -/
theorem votedLink_voteTx
    (undoes : UndoesJson)
    {voter : Wallet}
    {link : Link}
    {nonce fee : Int}
    {randomness : Nat}
    {tx : Transaction}
    (source : 0 ≤ link.sourceHeight)
    (target : 0 ≤ link.targetHeight)
    (signed : voteTx voter link nonce fee randomness = .ok tx) :
    votedLink tx = some link ∧ voteLink tx.evidence = .ok link := by
  obtain ⟨_, named, evidence⟩ := voteTx_eq_ok signed
  have keys : [Key.s, Key.sh, Key.t, Key.th].Nodup := by decide
  have readable : link.toJson.Readable := by
    refine .obj keys fun entry inside => ?_
    simp only [List.mem_cons, List.not_mem_nil, or_false] at inside
    rcases inside with rfl | rfl | rfl | rfl
    · exact .str _
    · exact .int _
    · exact .str _
    · exact .int _
  have sorted : link.toJson.sorted = link.toJson := by
    have ordered : [Key.s, Key.sh, Key.t, Key.th].Pairwise (· ≤ ·) := by decide
    exact congrArg Json.obj (List.pairwise_map.mp ordered).insertionSort_eq
  have parsed : voteLink tx.evidence = .ok link := by
    rw [evidence]
    exact voteLink_canonicalText (sorted ▸ undoes.canonical _ readable) source target
  refine ⟨?_, parsed⟩
  rw [votedLink, if_pos named, parsed]
  rfl

/-- A pool that holds one transaction. -/
def poolOf (tx : Transaction) : Mempool := ⟨Dict.empty.set tx.txid tx⟩

theorem select_init (chain : ProofOfStakeChain) : Mempool.init.select chain = [] := by
  have few := Mempool.length_select_le Mempool.sound_init chain MAX_TXS_PER_BLOCK
  exact List.eq_nil_of_length_eq_zero (Nat.le_zero.mp few)

/-- A valid transaction with the next nonce is admitted to an empty pool. -/
theorem add_init
    {tx : Transaction}
    {chain : ProofOfStakeChain}
    (valid : tx.isValid = true)
    (feeless : tx.fee = 0)
    (next : tx.nonce = chain.state.nonces.getD tx.sender 0) :
    Mempool.init.add tx chain = .ok (true, poolOf tx) := by
  have affordable : ¬tx.fee < MIN_FEE := not_lt.mpr feeless.ge
  have unspent : ¬tx.nonce < chain.state.nonces.getD tx.sender 0 := not_lt.mpr next.ge
  simp only [Mempool.add, rejectIf, valid, affordable, unspent, Bool.true_eq_false]
  rfl

/-- A pool is emptied by a chain that has spent the nonce of its transaction. -/
theorem update_poolOf
    {tx : Transaction}
    {chain : ProofOfStakeChain}
    (spent : tx.nonce < chain.state.nonces.getD tx.sender 0) :
    (poolOf tx).update chain = .init := by
  have dropped : decide (chain.state.nonces.getD tx.sender 0 ≤ tx.nonce) = false :=
    decide_eq_false (not_le.mpr spent)
  have removed : ([(tx.txid, tx)].filter fun entry : Str × Transaction =>
      decide (chain.state.nonces.getD entry.2.sender 0 ≤ entry.2.nonce) && entry.2.isValid) = [] := by
    simp only [List.filter, dropped, Bool.false_and]
  exact congrArg Mempool.mk (Dict.ext removed)

/-- An elected node commits the block that it sealed. -/
theorem produceBlock_eq
    {service : NodeService}
    {wallet : Wallet}
    {timestamp : Int}
    {randomness : Nat}
    {block : Block}
    {new : Bool}
    {tree : BlockTree}
    (configured : service.validator = some wallet)
    (turn : service.isOurTurn = .ok true)
    (built : service.nextBlock wallet timestamp randomness = .ok block)
    (added : service.tree.addBlock block = (.ok new, tree)) :
    service.produceBlock timestamp randomness = (.ok block.encodeBlock, service.commit tree block) := by
  unfold NodeService.produceBlock
  rw [configured, turn]
  simp only [built, added]

/-- The invariant between two blocks: a restart changes nothing, the tree is one
branch and finality keeps its pace. -/
structure Driven (wallet : Wallet) (service : NodeService) (height : Nat) : Prop where
  boots : NodeService.init (genesisArgs wallet.address) service.store (some wallet) = .ok service
  linear : service.tree.Linear
  stored : service.chain.chain =
    genesisBlock (genesisArgs wallet.address).timestamp :: service.store
  paced : Paced 4 wallet.address (STAKE_COINS * COIN) service.chain height

namespace Driven

variable {wallet : Wallet} {service : NodeService} {height : Nat}

theorem idle
    (driven : Driven wallet service height) :
    service.mempool = .init ∧ service.validator = some wallet := by
  obtain ⟨_, _, _, _, same⟩ := (NodeService.init_eq_ok _ _ _ _ _ _).mp driven.boots
  rw [same]
  exact ⟨rfl, rfl⟩

theorem running
    (driven : Driven wallet service height) :
    NodeService.Reachable (genesisArgs wallet.address) none service :=
  .init driven.boots

theorem reachable
    (driven : Driven wallet service height) :
    Reachable (genesisArgs wallet.address) service.chain := by
  obtain ⟨_, branch⟩ := driven.linear.invariant.head
  have reached := branch.reachable
  rwa [driven.running.consistent.tree.args_eq] at reached

theorem epoch_eq
    (driven : Driven wallet service height) :
    service.chain.config.epoch = (4 : Nat) := by
  rw [driven.reachable.config_eq.1]
  rfl

/-- The validator is elected until heights outgrow eight bytes. -/
theorem elected
    (driven : Driven wallet service height)
    (short : height + 1 < 2 ^ 64) :
    service.chain.nextValidator = .ok wallet.address := by
  have drawn : ∃ drawn, seed service.chain.head.hash (service.chain.head.index + 1) = .ok drawn := by
    rw [driven.paced.headIndex driven.reachable, Block.hash]
    simp only [seed, toBytes8, bind_eq_ok, require_eq_ok, fromHex_hex, raiseIf_eq_ok, exists_unit,
      pure_eq_ok, not_or, not_lt, not_le]
    exact ⟨_, _, rfl, _, ⟨⟨by omega, by omega⟩, rfl⟩, rfl⟩
  obtain ⟨drawn, drew⟩ := drawn
  rw [nextValidator, elect, drew, driven.paced.solo.stakes]
  exact electValidator_onlyStake (by decide) drawn

/-- A node with a pool whose selection the chain accepts produces a block. -/
theorem produceBlock
    (driven : Driven wallet service height)
    (sound : wallet.Sound)
    (short : height + 1 < 2 ^ 64)
    {mempool : Mempool}
    (running : NodeService.Reachable (genesisArgs wallet.address) none { service with mempool })
    (meets : ∀ block, block.hash ∉ service.chain.chain.map Block.hash →
      block.index = service.chain.head.index + 1 →
      service.chain.SelectionMeetsRules block (mempool.select service.chain))
    (timestamp : Int)
    (randomness : Nat) :
    NodeService.isOurTurn { service with mempool } = .ok true ∧
    ∃ block tree, block.index = service.chain.head.index + 1 ∧
      block.transactions = mempool.select service.chain ∧
      NodeService.produceBlock { service with mempool } timestamp randomness =
        (.ok block.encodeBlock, NodeService.commit { service with mempool } tree block) ∧
      (block.hash ∉ service.chain.chain.map Block.hash →
        tree = (service.tree.addBlock block).2 ∧
        ∃ after, service.chain.submitBlock block = .ok after) := by
  have configured : service.validator = some wallet := driven.idle.2
  have elected := driven.elected short
  have turn : NodeService.isOurTurn { service with mempool } = .ok true := by
    simp only [NodeService.isOurTurn, configured, bind_eq_ok, pure_eq_ok]
    exact ⟨_, elected, decide_eq_true rfl⟩
  obtain ⟨block, built, sealedBy⟩ := sealBlock_spec service.tree.canonical.head.hash
    (service.tree.canonical.head.index + 1) wallet (mempool.select service.chain)
    timestamp 0 randomness
  have next : NodeService.nextBlock { service with mempool } wallet timestamp randomness =
      .ok block := built
  refine ⟨turn, block, (service.tree.addBlock block).2, sealedBy.index_eq,
    sealedBy.transactions_eq, ?_, ?_⟩
  · have added : ∃ new, service.tree.addBlock block = (.ok new, (service.tree.addBlock block).2) := by
      by_cases absent : block.hash ∈ service.chain.chain.map Block.hash
      · have known := driven.linear.invariant.known_of_present absent
        refine ⟨false, ?_⟩
        rw [BlockTree.addBlock, if_pos known]
      · have new := driven.linear.new absent
        have distinct := driven.linear.invariant.distinct_of_new new
        have accepted := (running.addBlock_nextBlock_iff sound elected next distinct).mpr
          ⟨driven.linear.trusts _ _, meets block absent sealedBy.index_eq⟩
        exact ⟨true, Prod.ext accepted rfl⟩
    obtain ⟨new, added⟩ := added
    rw [added]
    exact produceBlock_eq configured turn next added
  · intro absent
    refine ⟨rfl, (sealedBy.submitBlock_iff driven.reachable sound elected).mpr ?_⟩
    exact (applyPart_select_iff running.consistent.mempool driven.reachable.healthy
      sealedBy.index_eq).mpr (meets block absent sealedBy.index_eq)

/-- An accepted block that empties the pool leads to the next invariant. -/
theorem append
    (driven : Driven wallet service height)
    {mempool : Mempool}
    {block : Block}
    {after : ProofOfStakeChain}
    (absent : block.hash ∉ service.chain.chain.map Block.hash)
    (submitted : service.chain.submitBlock block = .ok after)
    (emptied : mempool.update after = .init)
    (paced : Paced 4 wallet.address (STAKE_COINS * COIN) after (height + 1)) :
    Driven wallet
      (NodeService.commit { service with mempool } (service.tree.addBlock block).2 block)
      (height + 1) := by
  obtain ⟨accepted, canonical, linear⟩ := driven.linear.addBlock absent submitted
  have facts := submitted_of_submitBlock submitted
  refine ⟨?_, linear, ?_, ?_⟩
  · obtain ⟨genesis, tree, initialised, replayed, same⟩ :=
      (NodeService.init_eq_ok _ _ _ _ _ _).mp driven.boots
    refine (NodeService.init_eq_ok _ _ _ _ _ _).mpr
      ⟨genesis, (service.tree.addBlock block).2, initialised, ?_, ?_⟩
    · have reached : service.tree = tree := congrArg NodeService.tree same
      refine (foldlM_concat_eq_ok _ _ _ _).mpr ⟨tree, replayed, ?_⟩
      rw [← reached, NodeService.replayBlock, accepted]
      rfl
    · have produces : service.autoproduce = false := congrArg NodeService.autoproduce same
      simp only [NodeService.commit, canonical, emptied, driven.idle.2, produces]
  · change (service.tree.addBlock block).2.canonical.chain = _ :: (service.store ++ [block])
    rw [canonical, facts.blocks, driven.stored, List.cons_append]
  · change Paced 4 wallet.address _ (service.tree.addBlock block).2.canonical _
    rwa [canonical]

/-- Between checkpoints there is nothing to vote for. -/
theorem dueVote_of_settled
    (driven : Driven wallet service height)
    (settled : checkpointBelow 4 (height + 1) = checkpointBelow 4 height) :
    dueVote service = none := by
  unfold dueVote
  rw [driven.idle.2]
  dsimp only
  split
  · rfl
  · cases latest : service.chain.latestCheckpoint with
    | none => rfl
    | some target =>
        have seen :=
          driven.paced.seen_of_latest driven.reachable driven.epoch_eq settled latest
        exact if_pos seen

/-- At a checkpoint the vote for the head is due. -/
theorem dueVote_of_checkpoint
    (driven : Driven wallet service height)
    (above : 0 < height)
    (checkpoint : 4 ∣ height) :
    dueVote service = some (wallet, P2PNode.linkTo service.chain service.chain.head,
      service.chain.state.nonces.getD wallet.address 0) := by
  obtain ⟨empty, configured⟩ := driven.idle
  obtain ⟨latest, due⟩ := driven.paced.due driven.reachable driven.epoch_eq (by decide) above
    checkpoint
  have staked : service.chain.state.stakes.contains wallet.address = true := by
    rw [driven.paced.solo.stakes, onlyStake, Dict.contains_set, decide_eq_true rfl, Bool.true_or]
  have unseen :
      ¬service.chain.state.ffgSeenTarget.contains (wallet.address, service.chain.head.index) =
        true := by
    rw [driven.paced.headIndex driven.reachable, driven.paced.seen]
    rintro ⟨_, _, low⟩
    have below : checkpointBelow 4 height < height := checkpointBelow_lt above
    omega
  have upwards : ¬service.chain.head.index ≤ (service.chain.voteSource service.chain.head.index).2 := by
    have source := due.sourceHeight
    have reached : 4 ≤ height := Nat.le_of_dvd above checkpoint
    change (service.chain.voteSource service.chain.head.index).2 = _ at source
    rw [source, driven.paced.headIndex driven.reachable]
    omega
  have waiting : service.mempool.pool.values.filter (fun tx => tx.sender = wallet.address) = [] := by
    rw [empty]
    rfl
  unfold dueVote
  simp only [configured, staked, Bool.true_eq_false, if_false, latest, unseen, upwards, waiting,
    List.length_nil, Nat.cast_zero, add_zero]
  rfl

/-- A due vote is admitted, fills the next block and passes its checks. -/
theorem autoVote_of_checkpoint
    (driven : Driven wallet service height)
    (undoes : UndoesJson)
    (sound : wallet.Sound)
    (above : 0 < height)
    (checkpoint : 4 ∣ height)
    (randomness : Nat) :
    ∃ tx, autoVote service randomness = (.ok (), { service with mempool := poolOf tx }) ∧
      service.mempool.add tx service.chain = .ok (true, poolOf tx) ∧
      (poolOf tx).select service.chain = [tx] ∧ tx.sender = wallet.address ∧
      tx.nonce = service.chain.state.nonces.getD wallet.address 0 ∧
      votedLink tx = some (P2PNode.linkTo service.chain service.chain.head) ∧
      ∀ block, block.hash ∉ service.chain.chain.map Block.hash →
        service.chain.SelectionMeetsRules block [tx] := by
  obtain ⟨_, due⟩ := driven.paced.due driven.reachable driven.epoch_eq (by decide) above checkpoint
  obtain ⟨tx, signed, nonce, feeless⟩ := exists_voteTx wallet
    (P2PNode.linkTo service.chain service.chain.head)
    (service.chain.state.nonces.getD wallet.address 0) 0 randomness
  obtain ⟨byVoter, named, _⟩ := voteTx_eq_ok signed
  have valid : tx.isValid = true :=
    sound.isValid_voteTx (driven.reachable.nonces_nonneg _) le_rfl signed
  have next : tx.nonce = service.chain.state.nonces.getD tx.sender 0 := by rw [nonce, byVoter]
  have added : service.mempool.add tx service.chain = .ok (true, poolOf tx) := by
    rw [driven.idle.1]
    exact add_init valid feeless next
  obtain ⟨voted, parsed⟩ := votedLink_voteTx undoes
    (by rw [due.sourceHeight]; exact Int.natCast_nonneg _)
    (by rw [due.targetHeight]; exact Int.natCast_nonneg _) signed
  refine ⟨tx, ?_, added, ?_, byVoter, nonce, voted, ?_⟩
  · unfold autoVote
    rw [driven.dueVote_of_checkpoint above checkpoint]
    simp only [signed, added, Except.bind, bind]
  · have poolSound : (poolOf tx).Sound := Mempool.sound_init.add (add_init valid feeless next)
    refine Mempool.select_alone poolSound rfl ⟨?_, ?_⟩ (by decide)
    · rw [next, List.length_nil, Nat.cast_zero, add_zero]
    · rw [cost_special _ (.inr named), feeless, Mempool.spent_nil, add_zero]
      exact driven.reachable.healthy.balances tx.sender
  · intro block absent earlier other later split state applied
    obtain ⟨rfl, rest⟩ | ⟨_, rfl, rest⟩ := List.cons_eq_append_iff.mp split
    · cases rest
      obtain rfl : service.chain.stateBefore block = state := Except.ok.inj applied
      have account := (driven.paced.solo.applyBlockPre service.chain.config block).account
      have checked := driven.paced.checkVote driven.reachable driven.linear.invariant.nodup_hashes
        driven.epoch_eq (by decide) (by decide) above checkpoint absent due
      rw [← byVoter] at account checked
      have notStake : tx.recipient ≠ STAKE_SENTINEL := by rw [named]; decide
      have notUnstake : tx.recipient ≠ UNSTAKE_SENTINEL := by rw [named]; decide
      have notSlash : tx.recipient ≠ SLASH_SENTINEL := by rw [named]; decide
      rw [meetsRules, if_neg notStake, if_neg notUnstake, if_neg notSlash, if_pos named, parsed]
      simp only [checked, succeeded, Bool.and_true]
      exact account
    · simp at rest

/-- One turn of the loop appends one block, and a block with a new hash keeps the
invariant. -/
theorem slot
    (driven : Driven wallet service height)
    (undoes : UndoesJson)
    (sound : wallet.Sound)
    (short : height + 1 < 2 ^ 64)
    (timestamp : Int)
    (draws : Nat × Nat) :
    ∃ block after, Driver.slot service timestamp draws = (.ok true, after) ∧
      after.store = service.store ++ [block] ∧ block.index = service.chain.head.index + 1 ∧
      (block.hash ∉ service.chain.chain.map Block.hash → Driven wallet after (height + 1)) := by
  have chainReachable := driven.reachable
  -- the pool after the vote, and what a block with its selection does
  obtain ⟨mempool, voted, running, meets, keeps⟩ :
      ∃ mempool, autoVote service draws.1 = (.ok (), { service with mempool }) ∧
        NodeService.Reachable (genesisArgs wallet.address) none { service with mempool } ∧
        (∀ block, block.hash ∉ service.chain.chain.map Block.hash →
          service.chain.SelectionMeetsRules block (mempool.select service.chain)) ∧
        ∀ block after, block.hash ∉ service.chain.chain.map Block.hash →
          block.transactions = mempool.select service.chain →
          service.chain.submitBlock block = .ok after →
          mempool.update after = .init ∧
            Paced 4 wallet.address (STAKE_COINS * COIN) after (height + 1) := by
    by_cases atCheckpoint : 0 < height ∧ 4 ∣ height
    · obtain ⟨above, checkpoint⟩ := atCheckpoint
      obtain ⟨tx, queued, added, selected, byVoter, nonce, link, meets⟩ :=
        driven.autoVote_of_checkpoint undoes sound above checkpoint draws.1
      obtain ⟨_, due⟩ := driven.paced.due chainReachable driven.epoch_eq (by decide) above checkpoint
      refine ⟨poolOf tx, queued, driven.running.gossipTx added, selected.symm ▸ meets, ?_⟩
      intro block after absent transactions submitted
      rw [selected] at transactions
      refine ⟨update_poolOf ?_, driven.paced.vote chainReachable driven.epoch_eq (by decide)
        (by decide) above checkpoint submitted absent transactions byVoter link due⟩
      rw [nonce, byVoter, (chainReachable.block submitted).numbered.stored,
        chainReachable.numbered.stored, history_submitBlock submitted, transactions]
      simp [signedBy, byVoter]
    · have settled : checkpointBelow 4 (height + 1) = checkpointBelow 4 height := by
        by_cases boundary : 4 ∣ height
        · obtain rfl : height = 0 := by
            by_contra nonzero
            exact atCheckpoint ⟨Nat.pos_of_ne_zero nonzero, boundary⟩
          rfl
        · exact checkpointBelow_succ_of_not_dvd boundary
      have empty : service.mempool.select service.chain = [] := by
        rw [driven.idle.1, select_init]
      refine ⟨service.mempool, ?_, driven.running, ?_, ?_⟩
      · rw [autoVote, driven.dueVote_of_settled settled]
      · intro block _ earlier tx later split
        simp [empty] at split
      · intro block after absent transactions submitted
        rw [driven.idle.1]
        exact ⟨rfl, driven.paced.empty chainReachable submitted absent (transactions.trans empty)
          settled⟩
  obtain ⟨turn, block, tree, index, transactions, produced, accepts⟩ :=
    driven.produceBlock sound short running (fun block absent _ => meets block absent) timestamp
      draws.2
  refine ⟨block, NodeService.commit { service with mempool } tree block, ?_, rfl, index, ?_⟩
  · rw [Driver.slot, voted]
    simp only [turn, produced]
  · intro absent
    obtain ⟨rfl, after, submitted⟩ := accepts absent
    obtain ⟨emptied, paced⟩ := keeps block after absent transactions submitted
    exact driven.append absent submitted emptied paced

end Driven

/-! ## The log -/

section

variable {args : GenesisArgs} {wallet : Wallet} {service : NodeService} {disk : BlockStore}

/-- A vote changes nothing but the pool. -/
theorem autoVote_replays
    (replays : service.Replays args none)
    (randomness : Nat) :
    (autoVote service randomness).2.Replays args none ∧
      (autoVote service randomness).2.store = service.store := by
  unfold autoVote
  split
  · exact ⟨replays, rfl⟩
  · dsimp only
    split
    · exact ⟨replays, rfl⟩
    · rename_i added
      obtain ⟨_, _, added⟩ := (bind_eq_ok _ _ _).mp added
      exact ⟨⟨replays.consistent.add added, replays.replay, replays.built⟩, rfl⟩

/-- A turn extends the log, and the log replays to the tree. -/
theorem slot_replays
    (replays : service.Replays args none)
    (timestamp : Int)
    (draws : Nat × Nat) :
    (slot service timestamp draws).2.Replays args none ∧
      service.store <+: (slot service timestamp draws).2.store := by
  obtain ⟨voted, store⟩ := autoVote_replays replays draws.1
  rw [← store]
  unfold slot
  generalize autoVote service draws.1 = outcome at voted
  obtain ⟨result, after⟩ := outcome
  have produced := voted.call (.produceBlock timestamp draws.2)
  have grows : after.store <+: (after.produceBlock timestamp draws.2).2.store := by
    rcases voted.consistent.produceBlock_cases timestamp draws.2 with ⟨_, same⟩ | ⟨block, _, _, commits⟩
    · rw [same]
    · rw [commits.store]
      exact List.prefix_append _ _
  change (after.produceBlock timestamp draws.2).2.Replays args none at produced
  cases result with
  | error error => exact ⟨voted, List.prefix_refl _⟩
  | ok _ =>
      dsimp only
      split
      · exact ⟨voted, List.prefix_refl _⟩
      · exact ⟨voted, List.prefix_refl _⟩
      · split
        · rename_i result
          rw [result] at produced grows
          exact ⟨produced, grows⟩
        · rename_i result
          rw [result] at produced grows
          exact ⟨produced, grows⟩

/-- One more turn extends the log of the turns before it. -/
theorem slots_succ_replays
    {base : Int}
    {draws : Nat → Nat × Nat}
    {blocks : Nat}
    (replays : (slots service base draws blocks).2.Replays args none) :
    (slots service base draws (blocks + 1)).2.Replays args none ∧
      (slots service base draws blocks).2.store <+:
        (slots service base draws (blocks + 1)).2.store := by
  rw [slots]
  generalize slots service base draws blocks = reached at replays
  obtain ⟨ran, middle⟩ := reached
  cases ran with
  | error error => exact ⟨replays, List.prefix_refl _⟩
  | ok produced => exact slot_replays replays (base + blocks) (draws blocks)

theorem slots_replays
    (replays : service.Replays args none)
    (base : Int)
    (draws : Nat → Nat × Nat)
    (blocks : Nat) :
    (slots service base draws blocks).2.Replays args none ∧
      service.store <+: (slots service base draws blocks).2.store := by
  induction blocks with
  | zero => exact ⟨replays, List.prefix_refl _⟩
  | succ blocks inductionHypothesis =>
      obtain ⟨kept, grows⟩ := inductionHypothesis
      obtain ⟨later, longer⟩ := slots_succ_replays kept
      exact ⟨later, grows.trans longer⟩

end

/-! ## The runs of the job -/

section

variable {wallet : Wallet} {service : NodeService} {height : Nat}

/-- The loop produces a block each turn, and the invariant holds after it if no
two blocks on disk have one hash. -/
theorem Driven.slots
    (driven : Driven wallet service height)
    (replays : service.Replays (genesisArgs wallet.address) none)
    (undoes : UndoesJson)
    (sound : wallet.Sound)
    (base : Int)
    (draws : Nat → Nat × Nat)
    {blocks : Nat}
    (short : height + blocks < 2 ^ 64)
    (free : CollisionFree
      (hashed (genesisArgs wallet.address) (Driver.slots service base draws blocks).2.store)) :
    (Driver.slots service base draws blocks).1 = .ok blocks ∧
      Driven wallet (Driver.slots service base draws blocks).2 (height + blocks) := by
  induction blocks with
  | zero => exact ⟨rfl, driven⟩
  | succ blocks inductionHypothesis =>
      have kept := (slots_replays replays base draws blocks).1
      have grows := (slots_succ_replays kept).2
      obtain ⟨ran, reached⟩ := inductionHypothesis (by omega)
        (free.mono (hashed_mono _ grows.subset))
      obtain ⟨block, after, turned, store, index, keeps⟩ := reached.slot undoes sound (by omega)
        (base + blocks) (draws blocks)
      have result : Driver.slots service base draws (blocks + 1) = (.ok (blocks + 1), after) := by
        rw [Driver.slots]
        generalize Driver.slots service base draws blocks = progress at ran turned
        obtain ⟨_, middle⟩ := progress
        cases ran
        simp only [turned]
        rfl
      rw [result] at free ⊢
      refine ⟨rfl, keeps fun present => ?_⟩
      -- the other block would have the same header, and so the same height
      obtain ⟨other, inside, same⟩ := List.mem_map.mp present
      obtain ⟨position, here⟩ := List.mem_iff_getElem?.mp inside
      have level := reached.reachable.index_eq here
      have top := reached.reachable.length_eq
      obtain ⟨below, _⟩ := List.getElem?_eq_some_iff.mp here
      have covered : canonical other.header ∈ hashed (genesisArgs wallet.address) after.store := by
        rw [reached.stored] at inside
        rcases List.mem_cons.mp inside with rfl | old
        · exact genesis_mem_hashed _ _
        · rw [store]
          exact mem_hashed _ (List.mem_append_left _ old)
      have newest : canonical block.header ∈ hashed (genesisArgs wallet.address) after.store := by
        rw [store]
        exact mem_hashed _ (List.mem_append_right _ (List.mem_singleton_self _))
      obtain ⟨sameIndex, _⟩ := free.header covered newest same
      omega

/-- The disk holds the genesis of the driver and the log of a node. -/
structure Persists (wallet : Wallet) (disk : BlockStore) (service : NodeService) : Prop where
  params : disk.genesisParams = .ok (genesisArgs wallet.address)
  text : disk.text = logText '\n' (service.store.map BlockStore.line)
  replays : service.Replays (genesisArgs wallet.address) none

/-- A new node with the blocks of another one. -/
def restarted (service : NodeService) (validator : Option Wallet) : NodeService :=
  { service with mempool := .init, validator, autoproduce := false }

theorem Driven.restarted_eq
    (driven : Driven wallet service height) :
    restarted service (some wallet) = service := by
  obtain ⟨_, _, _, _, same⟩ := (NodeService.init_eq_ok _ _ _ _ _ _).mp driven.boots
  rw [same]
  rfl

namespace Persists

variable {disk : BlockStore} {after : NodeService}

theorem iterBlocks
    (persists : Persists wallet disk service)
    (undoes : UndoesJson) :
    disk.iterBlocks = .ok service.store := by
  have holds : disk.text = logText '\n' (service.store.map BlockStore.line) ++ [] := by
    rw [persists.text, List.append_nil]
  refine BlockStore.iterBlocks_of_text holds rfl ?_ persists.replays.built
  exact fun block _ => undoes.dumped _ (readable_encodeBlock block)

theorem ofStore
    (persists : Persists wallet disk service)
    (undoes : UndoesJson)
    (validator : Option Wallet) :
    NodeService.ofStore disk validator = .ok (restarted service validator) := by
  obtain ⟨genesis, start, replayed⟩ := persists.replays.replay
  exact (NodeService.ofStore_eq_ok _ _ _ _ _).mpr
    ⟨_, _, persists.params, persists.iterBlocks undoes,
      (NodeService.init_eq_ok _ _ _ _ _ _).mpr ⟨genesis, _, start, replayed, rfl⟩⟩

theorem restart
    (persists : Persists wallet disk service)
    (validator : Option Wallet) :
    Persists wallet disk (restarted service validator) :=
  ⟨persists.params, persists.text,
    ⟨⟨persists.replays.consistent.tree, Mempool.sound_init⟩, persists.replays.replay,
      persists.replays.built⟩⟩

/-- The blocks that a node adds to its log are appended to the disk. -/
theorem append
    (persists : Persists wallet disk service)
    (replays : after.Replays (genesisArgs wallet.address) none)
    (grows : service.store <+: after.store) :
    Persists wallet ((after.store.drop service.store.length).foldl BlockStore.append disk) after := by
  obtain ⟨more, store⟩ := grows
  refine ⟨?_, ?_, replays⟩
  · rw [BlockStore.genesisParams_foldl_append, persists.params]
  · rw [BlockStore.text_foldl_append, persists.text, ← store, List.drop_left, List.map_append,
      logText_append]

/-- What a run of the job leaves on disk, and what it reports. -/
theorem cmdTick
    (persists : Persists wallet disk service)
    (undoes : UndoesJson)
    (tick : Tick) :
    Persists wallet (Driver.cmdTick disk wallet tick).2
      (slots (restarted service (some wallet)) tick.base tick.draws tick.blocks).2 ∧
    (Driver.cmdTick disk wallet tick).1 =
      (slots (restarted service (some wallet)) tick.base tick.draws tick.blocks).1.map
        fun produced => (produced, statusOf
          (slots (restarted service (some wallet)) tick.base tick.draws tick.blocks).2 tick.now) := by
  have started := persists.ofStore undoes (some wallet)
  have fresh := persists.restart (some wallet)
  obtain ⟨kept, grows⟩ := slots_replays fresh.replays tick.base tick.draws tick.blocks
  have later := fresh.append kept grows
  have reported := later.ofStore undoes none
  rw [Driver.cmdTick, started]
  dsimp only
  generalize slots (restarted service (some wallet)) tick.base tick.draws tick.blocks = reached
    at later reported
  obtain ⟨ran, after⟩ := reached
  cases ran with
  | error error => exact ⟨later, rfl⟩
  | ok produced =>
      have described : writeStatus
          ((after.store.drop (restarted service (some wallet)).store.length).foldl
            BlockStore.append disk) tick.now = .ok (statusOf after tick.now) := by
        rw [writeStatus, reported]
        rfl
      dsimp only
      rw [described]
      exact ⟨later, rfl⟩

/-- Runs of the job extend the log on disk. -/
theorem afterTicks
    (persists : Persists wallet disk service)
    (undoes : UndoesJson)
    (ticks : List Tick) :
    ∃ after, Persists wallet (Driver.afterTicks disk wallet ticks) after ∧
      service.store <+: after.store := by
  induction ticks generalizing disk service with
  | nil => exact ⟨service, persists, List.prefix_refl _⟩
  | cons tick ticks inductionHypothesis =>
      have ran := (persists.cmdTick undoes tick).1
      have grows := (slots_replays (persists.restart (some wallet)).replays tick.base tick.draws
        tick.blocks).2
      obtain ⟨after, reached, longer⟩ := inductionHypothesis ran
      exact ⟨after, reached, grows.trans longer⟩

end Persists

/-! ## The start -/

theorem exists_init (address : Str) : ∃ chain, init (genesisArgs address) = .ok chain := by
  have held : (genesisArgs address).allocations.getD address 0 = MAX_SUPPLY_UNITS := by
    rw [Dict.getD_eq_of_get?]
    exact (Dict.get?_set _ _ _ _).trans (if_pos rfl)
  have known : (genesisArgs address).allocations.contains address = true := by
    rw [genesisArgs, Dict.contains_set, decide_eq_true rfl, Bool.true_or]
  obtain ⟨balances, taken⟩ : ∃ balances,
      addItem (genesisArgs address).allocations address (-(STAKE_COINS * COIN)) = .ok balances :=
    ⟨_, (addItem_eq_ok _ _ _ _).mpr ⟨known, rfl⟩⟩
  have staked : addInitialStake ((genesisArgs address).allocations, Dict.empty)
      (address, STAKE_COINS * COIN) =
        .ok (balances, credit Dict.empty address (STAKE_COINS * COIN)) := by
    simp only [addInitialStake, rejectIf, bind_eq_ok, raiseIf_eq_ok, exists_unit, pure_eq_ok]
    refine ⟨by decide, ?_, balances, taken, rfl⟩
    rw [held]
    decide
  have ran : (genesisArgs address).initialStakes.entries.foldlM addInitialStake
      ((genesisArgs address).allocations, Dict.empty) =
        .ok (balances, credit Dict.empty address (STAKE_COINS * COIN)) :=
    (foldlM_cons_eq_ok _ _ _ _).mpr ⟨_, staked, rfl⟩
  simp only [init, rejectIf, bind_eq_ok, raiseIf_eq_ok, exists_unit, pure_eq_ok]
  exact ⟨_, rfl, _, ran, rfl, not_le.mpr (by decide : (0 : Int) < 4), rfl⟩

/-- A new directory holds the empty log of a driven node. -/
theorem cmdInit_spec
    (undoes : UndoesJson)
    (wallet : Wallet)
    (now : Int) :
    ∃ disk service, cmdInit none wallet now = (.ok (statusOf service now), some disk) ∧
      Persists wallet disk service ∧ Driven wallet service 0 := by
  obtain ⟨chain, initialised⟩ := exists_init wallet.address
  obtain ⟨genesis, start⟩ : ∃ genesis, BlockTree.init (genesisArgs wallet.address) = .ok genesis :=
    ⟨_, (BlockTree.init_eq_ok _ _ _).mpr ⟨chain, initialised, rfl⟩⟩
  obtain ⟨same, created, treeOf⟩ := (BlockTree.init_eq_ok _ _ _).mp start
  obtain rfl := Except.ok.inj (initialised.symm.trans created)
  have canonical : genesis.canonical = chain := by rw [treeOf]
  let disk : BlockStore :=
    { genesis := jsonDumps (genesisPayload (genesisArgs wallet.address)).sorted, blocks := none }
  let service : NodeService :=
    { tree := genesis, mempool := .init, validator := some wallet, autoproduce := false, store := [] }
  have boots : NodeService.init (genesisArgs wallet.address) [] (some wallet) = .ok service :=
    (NodeService.init_eq_ok _ _ _ _ _ _).mpr ⟨genesis, genesis, start, rfl, rfl⟩
  have params : disk.genesisParams = .ok (genesisArgs wallet.address) :=
    genesisParams_writeGenesis rfl (undoes.dumped _ (readable_genesisPayload _).sorted)
  have replays : service.Replays (genesisArgs wallet.address) none :=
    ⟨⟨.init start, Mempool.sound_init⟩, ⟨genesis, start, rfl⟩,
      fun block inside => absurd inside List.not_mem_nil⟩
  have persists : Persists wallet disk service := ⟨params, rfl, replays⟩
  refine ⟨disk, service, ?_, persists, boots, .init start, ?_, ?_⟩
  · have described : writeStatus disk now = .ok (statusOf service now) := by
      rw [writeStatus, persists.ofStore undoes none]
      rfl
    change (writeStatus disk now, some disk) = _
    rw [described]
  · change genesis.canonical.chain = _
    rw [canonical, chain_init initialised]
  · change Paced 4 wallet.address _ genesis.canonical 0
    rw [canonical]
    exact Paced.init initialised rfl 4

/-- What the status file is to say at a height. -/
structure Status.Tracks (status : Status) (address : Str) (mined : Nat) : Prop where
  height : status.height = mined
  finalizedHeight : status.finalizedHeight = ((mined - 1) / 4 * 4 - 4 : Nat)
  supply : status.supply = MAX_SUPPLY_UNITS
  supplyOk : status.supplyOk = true
  validators : status.validators = [address]

theorem Driven.tracks
    (driven : Driven wallet service height)
    (now : Int) :
    (statusOf service now).Tracks wallet.address height := by
  have supply : service.chain.state.totalSupply = MAX_SUPPLY_UNITS :=
    driven.reachable.totalSupply_eq
  refine ⟨driven.paced.headIndex driven.reachable, ?_, supply, decide_eq_true supply, ?_⟩
  · have frontier : service.tree.finalizedHeight = service.chain.state.finalized.2 :=
      congrArg Prod.snd driven.linear.frontier_eq
    rw [statusOf, frontier, driven.paced.finalized]
    rfl
  · rw [statusOf, driven.paced.solo.stakes]
    rfl

/-- Runs of the job on the disk of a driven node. -/
theorem Driven.ticks
    {disk : BlockStore}
    {ticks : List Tick}
    (driven : Driven wallet service height)
    (persists : Persists wallet disk service)
    (undoes : UndoesJson)
    (sound : wallet.Sound)
    (short : height + (ticks.map Tick.blocks).sum < 2 ^ 64)
    (free : ∀ blocks, (afterTicks disk wallet ticks).iterBlocks = .ok blocks →
      CollisionFree (hashed (genesisArgs wallet.address) blocks)) :
    ∀ earlier tick later, ticks = earlier ++ tick :: later →
      ∃ status, (cmdTick (afterTicks disk wallet earlier) wallet tick).1 =
          .ok (tick.blocks, status) ∧
        status.Tracks wallet.address (height + ((earlier ++ [tick]).map Tick.blocks).sum) := by
  induction ticks generalizing disk service height with
  | nil =>
      intro earlier tick later split
      cases (List.append_eq_nil_iff.mp split.symm).2
  | cons first rest inductionHypothesis =>
      rw [List.map_cons, List.sum_cons] at short
      obtain ⟨written, answered⟩ := persists.cmdTick undoes first
      rw [driven.restarted_eq] at written answered
      obtain ⟨last, reached, grows⟩ := written.afterTicks undoes rest
      obtain ⟨ran, later⟩ := driven.slots persists.replays undoes sound first.base first.draws
        (by omega) ((free _ (reached.iterBlocks undoes)).mono (hashed_mono _ grows.subset))
      intro earlier tick remaining split
      cases earlier with
      | nil =>
          obtain ⟨rfl, rfl⟩ := List.cons.inj split
          refine ⟨_, answered.trans (by rw [ran]; rfl), ?_⟩
          rw [List.nil_append, List.map_singleton, List.sum_singleton]
          exact later.tracks first.now
      | cons head earlier =>
          obtain ⟨rfl, rfl⟩ := List.cons.inj split
          obtain ⟨status, result, tracks⟩ := inductionHypothesis later written (by omega) free
            earlier tick remaining rfl
          refine ⟨status, result, ?_⟩
          rwa [List.cons_append, List.map_cons, List.sum_cons, ← add_assoc]

/-- The job never fails, however its ticks divide up the blocks: each tick
produces all its blocks, and its status shows a height that counts them, the
checkpoint before the last one below the head as final, the whole supply and the
one validator. -/
theorem finalizes
    (undoes : UndoesJson)
    (sound : wallet.Sound)
    {disk : BlockStore}
    {now : Int}
    {ticks : List Tick}
    (started : (cmdInit none wallet now).2 = some disk)
    (short : (ticks.map Tick.blocks).sum < 2 ^ 64)
    (free : ∀ blocks, (afterTicks disk wallet ticks).iterBlocks = .ok blocks →
      CollisionFree (hashed (genesisArgs wallet.address) blocks)) :
    (∃ status, (cmdInit none wallet now).1 = .ok status ∧ status.Tracks wallet.address 0) ∧
    ∀ earlier tick later, ticks = earlier ++ tick :: later →
      ∃ status, (cmdTick (afterTicks disk wallet earlier) wallet tick).1 =
          .ok (tick.blocks, status) ∧
        status.Tracks wallet.address ((earlier ++ [tick]).map Tick.blocks).sum := by
  obtain ⟨made, service, initialised, persists, driven⟩ := cmdInit_spec undoes wallet now
  rw [initialised] at started ⊢
  obtain rfl := Option.some.inj started
  refine ⟨⟨_, rfl, driven.tracks now⟩, ?_⟩
  intro earlier tick later split
  rw [← Nat.zero_add ((ticks.map Tick.blocks).sum)] at short
  obtain ⟨status, result, tracks⟩ := driven.ticks persists undoes sound short free earlier tick later
    split
  rw [Nat.zero_add] at tracks
  exact ⟨status, result, tracks⟩

end

end

end Driver

/-! ## Two ticks -/

namespace DriverSample

open Driver

attribute [local instance] TransportSample.primitives

def wallet : Wallet := Symbolic.wallet 1

def disk : BlockStore where
  genesis := jsonDumps (genesisPayload (genesisArgs wallet.address)).sorted
  blocks := none

/-- Nine blocks, over two runs of the job. -/
def ticks : List Tick :=
  [⟨1700000100, 4, fun _ => (0, 0), 1700000101⟩, ⟨1700000200, 5, fun _ => (0, 0), 1700000201⟩]

/-- Genesis and the blocks that were read have different hashes. -/
def apart (read : Except Error (List Block)) : Bool :=
  match read with
  | .ok blocks => ((genesisBlock (genesisArgs wallet.address).timestamp :: blocks).map
      fun block => sha256 (canonical block.header)).Nodup
  | .error _ => true

theorem apart_ticks : apart (afterTicks disk wallet ticks).iterBlocks = true := by decide +kernel

theorem finalizes_nine_blocks :
    ∃ status, (cmdTick (afterTicks disk wallet [⟨1700000100, 4, fun _ => (0, 0), 1700000101⟩])
        wallet ⟨1700000200, 5, fun _ => (0, 0), 1700000201⟩).1 = .ok (5, status) ∧
      status.height = 9 ∧ status.finalizedHeight = 4 := by
  have free : ∀ blocks, (afterTicks disk wallet ticks).iterBlocks = .ok blocks →
      CollisionFree (hashed (genesisArgs wallet.address) blocks) := by
    intro blocks read
    have distinct := apart_ticks
    rw [read] at distinct
    exact collisionFree_of_nodup (of_decide_eq_true distinct)
  have started : (cmdInit none wallet 1700000000).2 = some disk := rfl
  have sound : wallet.Sound := by
    obtain ⟨key, signed, verified⟩ := Symbolic.wallet_sound 1
    exact ⟨key, signed, verified⟩
  obtain ⟨_, reports⟩ := finalizes TransportSample.undoes sound started (by decide) free
  obtain ⟨status, result, tracks⟩ := reports [_] _ [] rfl
  exact ⟨status, result, tracks.height, tracks.finalizedHeight⟩

end DriverSample

end Mindees
