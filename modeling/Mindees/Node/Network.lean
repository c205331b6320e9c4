import Mindees.Consensus.Produce
import Mindees.Core.Codec
import Mindees.ForkChoice.Following
import Mindees.Library.Flood
import Mindees.Node.Gossip

/-!
# Gossip inside one process

Nodes that hand transactions and blocks to each other by calls.  A node takes a
message once and hands it on to every peer but the one it came from.
-/

namespace Mindees

open Library

/-- A node, whose peers are named by `ι`. -/
structure Node (ι : Type) where
  chain : ProofOfStakeChain
  mempool : Mempool
  peers : List ι
  seenTx : Finset Str
  seenBlock : Finset Str
  /-- The transactions that were handed to the mempool, oldest first.  Kept to
  count the calls. -/
  handed : List Str

/-- The nodes by their names. -/
abbrev Network (ι : Type) : Type := ι → Node ι

section Connect

variable {ι : Type} [DecidableEq ι]

/-- A node adds a peer, unless it has it. -/
def Node.addPeer (node : Node ι) (other : ι) : Node ι :=
  if other ∈ node.peers then node else { node with peers := node.peers ++ [other] }

namespace Network

/-- Make two nodes peers of each other. -/
def connect (network : Network ι) (self other : ι) : Network ι :=
  let network := Function.update network self ((network self).addPeer other)
  Function.update network other ((network other).addPeer self)

/-- Make the calls in order. -/
def connectAll (network : Network ι) (calls : List (ι × ι)) : Network ι :=
  calls.foldl (fun network call => network.connect call.1 call.2) network

/-- The nodes that the calls connect, directly or through others. -/
def Connected (calls : List (ι × ι)) : ι → ι → Prop :=
  Relation.ReflTransGen fun self other => (self, other) ∈ calls ∨ (other, self) ∈ calls

end Network

end Connect

section

variable [Primitives] {ι : Type}

namespace Node

/-- What a node makes of a transaction it is handed. -/
def recvTx (data : Json) (node : Node ι) : Verdict Error (Node ι) :=
  match decodeTx data with
  | .error error => .fail error node
  | .ok tx =>
      -- already gossiped through here
      if tx.txid ∈ node.seenTx then .drop node
      else
        let node :=
          { node with
            seenTx := insert tx.txid node.seenTx
            handed := node.handed ++ [tx.txid] }
        match node.mempool.add tx node.chain with
        | .error error => if error.isValidation then .drop node else .fail error node
        | .ok (_, mempool) => .pass { node with mempool }

/-- What a node makes of a block it is handed. -/
def recvBlock (data : Json) (node : Node ι) : Verdict Error (Node ι) :=
  match decodeBlock data with
  | .error error => .fail error node
  | .ok block =>
      if block.hash ∈ node.seenBlock then .drop node
      else
        let node := { node with seenBlock := insert block.hash node.seenBlock }
        match node.chain.submitBlock block with
        | .error error => if error.isValidation then .drop node else .fail error node
        | .ok chain => .pass { node with chain, mempool := node.mempool.update chain }

end Node

namespace Network

variable [DecidableEq ι] [Fintype ι]

/-- Hand a transaction to a node that passes it on. -/
def broadcastTx (network : Network ι) (self : ι) (tx : Transaction) :
    Except Error Unit × Network ι :=
  flood Node.peers (Node.recvTx tx.encodeTx) .diverges (Fintype.card ι) network self none

/-- Produce the next block at a node and pass it on. -/
def produceBlock
    (network : Network ι)
    (self : ι)
    (wallet : Wallet)
    (timestamp : Int)
    (randomness : Nat) : Except Error Block × Network ι :=
  let node := network self
  match node.chain.addBlock (node.mempool.select node.chain) wallet timestamp 0 randomness with
  | .error error => (.error error, network)
  | .ok chain =>
      let block := chain.head
      let node :=
        { node with
          chain
          seenBlock := insert block.hash node.seenBlock
          mempool := node.mempool.update chain }
      let (relayed, network) :=
        relayLoop
          (fun network peer =>
            flood Node.peers (Node.recvBlock block.encodeBlock) .diverges (Fintype.card ι)
              network peer (some self))
          none node.peers (Function.update network self node)
      (relayed.map fun _ => block, network)

end Network

/-! ## Peers -/

section

omit [Primitives]

variable [DecidableEq ι] {network : Network ι} {self other : ι}

@[simp] theorem Node.mem_peers_addPeer
    (node : Node ι)
    (added : ι) :
    other ∈ (node.addPeer added).peers ↔ other ∈ node.peers ∨ other = added := by
  unfold Node.addPeer
  split_ifs with known
  · exact ⟨.inl, fun either => either.elim id fun same => same ▸ known⟩
  · rw [List.mem_append, List.mem_singleton]

namespace Network

theorem mem_peers_connect
    (first second : ι) :
    other ∈ (network.connect first second self).peers ↔
      other ∈ (network self).peers ∨ (self = first ∧ other = second) ∨
        (self = second ∧ other = first) := by
  have added : other ∈ (Function.update network first ((network first).addPeer second) self).peers ↔
      other ∈ (network self).peers ∨ (self = first ∧ other = second) := by
    by_cases same : self = first
    · subst same
      simp
    · simp [same]
  rw [← or_assoc, ← added]
  unfold connect
  by_cases same : self = second
  · subst same
    simp
  · simp [same]

theorem mem_peers_connectAll
    (calls : List (ι × ι)) :
    other ∈ (network.connectAll calls self).peers ↔
      other ∈ (network self).peers ∨ (self, other) ∈ calls ∨ (other, self) ∈ calls := by
  induction calls generalizing network with
  | nil => simp [connectAll]
  | cons call rest inductionHypothesis =>
      obtain ⟨first, second⟩ := call
      rw [connectAll, List.foldl_cons, ← connectAll, inductionHypothesis, mem_peers_connect,
        List.mem_cons, List.mem_cons, Prod.mk.injEq, Prod.mk.injEq]
      simp only [or_assoc, or_left_comm, and_comm]

theorem update_addPeer
    (network : Network ι)
    (first second self : ι) :
    ∃ peers, Function.update network first ((network first).addPeer second) self =
      { network self with peers } := by
  by_cases same : self = first
  · subst same
    rw [Function.update_self]
    unfold Node.addPeer
    split_ifs
    · exact ⟨(network self).peers, rfl⟩
    · exact ⟨_, rfl⟩
  · rw [Function.update_of_ne same]
    exact ⟨(network self).peers, rfl⟩

/-- Connecting changes peers only. -/
theorem connectAll_eq
    (network : Network ι)
    (calls : List (ι × ι))
    (self : ι) :
    ∃ peers, network.connectAll calls self = { network self with peers } := by
  induction calls generalizing network with
  | nil => exact ⟨(network self).peers, rfl⟩
  | cons call rest inductionHypothesis =>
      have first : ∃ peers, network.connect call.1 call.2 self = { network self with peers } := by
        obtain ⟨own, addedOwn⟩ := update_addPeer network call.1 call.2 self
        obtain ⟨peers, added⟩ := update_addPeer
          (Function.update network call.1 ((network call.1).addPeer call.2)) call.2 call.1 self
        refine ⟨peers, added.trans ?_⟩
        rw [addedOwn]
      obtain ⟨middle, connected⟩ := first
      obtain ⟨peers, linked⟩ := inductionHypothesis (network.connect call.1 call.2)
      refine ⟨peers, ?_⟩
      rw [connectAll, List.foldl_cons]
      refine linked.trans ?_
      rw [connected]

theorem connected_iff
    {calls : List (ι × ι)}
    (unlinked : ∀ id, (network id).peers = []) :
    Relation.ReflTransGen (linked Node.peers (network.connectAll calls)) self other ↔
      Connected calls self other := by
  have same : linked Node.peers (network.connectAll calls) =
      fun self other => (self, other) ∈ calls ∨ (other, self) ∈ calls := by
    funext self other
    rw [linked, mem_peers_connectAll, unlinked]
    simp
  rw [same, Connected]

end Network

end

/-! ## Floods -/

namespace Node

/-- The node after its mempool has taken the transaction. -/
def withTx (node : Node ι) (txid : Str) (mempool : Mempool) : Node ι :=
  { node with
    seenTx := insert txid node.seenTx
    handed := node.handed ++ [txid]
    mempool }

/-- The node after its chain has taken the block. -/
def withBlock (node : Node ι) (chain : ProofOfStakeChain) : Node ι :=
  { node with
    chain
    seenBlock := insert chain.head.hash node.seenBlock
    mempool := node.mempool.update chain }

theorem recvTx_new
    {node : Node ι}
    {tx : Transaction}
    {new : Bool}
    {mempool : Mempool}
    (unseen : tx.txid ∉ node.seenTx)
    (admitted : node.mempool.add tx node.chain = .ok (new, mempool)) :
    recvTx tx.encodeTx node = .pass (node.withTx tx.txid mempool) := by
  simp only [recvTx, decodeTx_encodeTx, unseen, if_false, admitted]
  rfl

theorem recvTx_seen
    {node : Node ι}
    {tx : Transaction}
    (seen : tx.txid ∈ node.seenTx) :
    recvTx tx.encodeTx node = .drop node := by
  simp only [recvTx, decodeTx_encodeTx, seen, if_true]

theorem recvBlock_new
    {node : Node ι}
    {block : Block}
    {chain : ProofOfStakeChain}
    (unseen : block.hash ∉ node.seenBlock)
    (submitted : node.chain.submitBlock block = .ok chain) :
    recvBlock block.encodeBlock node = .pass (node.withBlock chain) := by
  simp only [recvBlock, decodeBlock_encodeBlock,
    ProofOfStakeChain.postInit_of_submitBlock submitted, unseen, if_false, submitted]
  rw [withBlock, ProofOfStakeChain.head_submitBlock submitted]

theorem recvBlock_seen
    {node : Node ι}
    {block : Block}
    (built : block.postInit = block)
    (seen : block.hash ∈ node.seenBlock) :
    recvBlock block.encodeBlock node = .drop node := by
  simp only [recvBlock, decodeBlock_encodeBlock, built, seen, if_true]

end Node

namespace Network

variable [DecidableEq ι] [Fintype ι] {network : Network ι} {self : ι}

/-- A flood of an admissible transaction ends, and has been where it can get. -/
theorem broadcastTx_reaches
    {tx : Transaction}
    {finish : ι → Mempool}
    (unseen : ∀ id, tx.txid ∉ (network id).seenTx)
    (admitted : ∀ id, ∃ new, (network id).mempool.add tx (network id).chain = .ok (new, finish id)) :
    (network.broadcastTx self tx).1 = .ok () ∧
    ∀ id,
      (Relation.ReflTransGen (linked Node.peers network) self id →
        (network.broadcastTx self tx).2 id = (network id).withTx tx.txid (finish id)) ∧
      (¬Relation.ReflTransGen (linked Node.peers network) self id →
        (network.broadcastTx self tx).2 id = network id) := by
  have spreads : Spreads Node.peers (Node.recvTx tx.encodeTx) network
      fun id => (network id).withTx tx.txid (finish id) := by
    constructor
    · intro id
      obtain ⟨new, added⟩ := admitted id
      exact Node.recvTx_new (unseen id) added
    · intro id
      exact Node.recvTx_seen (Finset.mem_insert_self _ _)
    · exact fun id => rfl
  exact spreads.flood_reaches (le_refl _) self

/-- Producing a block floods it from the producer, which takes it as its peers do. -/
theorem produceBlock_reaches
    {wallet : Wallet}
    {timestamp : Int}
    {randomness : Nat}
    {finish : ι → ProofOfStakeChain}
    (produced : (network self).chain.addBlock ((network self).mempool.select (network self).chain)
      wallet timestamp 0 randomness = .ok (finish self))
    (unseen : ∀ id, (finish self).head.hash ∉ (network id).seenBlock)
    (submitted : ∀ id, (network id).chain.submitBlock (finish self).head = .ok (finish id)) :
    (network.produceBlock self wallet timestamp randomness).1 = .ok (finish self).head ∧
    ∀ id,
      (Relation.ReflTransGen (linked Node.peers network) self id →
        (network.produceBlock self wallet timestamp randomness).2 id =
          (network id).withBlock (finish id)) ∧
      (¬Relation.ReflTransGen (linked Node.peers network) self id →
        (network.produceBlock self wallet timestamp randomness).2 id = network id) := by
  have newest : ∀ id, (finish id).head = (finish self).head :=
    fun id => ProofOfStakeChain.head_submitBlock (submitted id)
  have spreads : Spreads Node.peers (Node.recvBlock (finish self).head.encodeBlock) network
      fun id => (network id).withBlock (finish id) := by
    constructor
    · intro id
      exact Node.recvBlock_new (unseen id) (submitted id)
    · intro id
      refine Node.recvBlock_seen (ProofOfStakeChain.postInit_of_submitBlock (submitted id)) ?_
      rw [Node.withBlock, newest]
      exact Finset.mem_insert_self _ _
    · exact fun id => rfl
  have took : Node.recvBlock (finish self).head.encodeBlock (network self) =
      .pass ((network self).withBlock (finish self)) :=
    Node.recvBlock_new (unseen self) (submitted self)
  -- the producer does what a node does that is handed the block by nobody
  have ran : network.produceBlock self wallet timestamp randomness =
      ((flood Node.peers (Node.recvBlock (finish self).head.encodeBlock) .diverges
          (Fintype.card ι + 1) network self none).1.map fun _ => (finish self).head,
        (flood Node.peers (Node.recvBlock (finish self).head.encodeBlock) .diverges
          (Fintype.card ι + 1) network self none).2) := by
    rw [flood, took]
    unfold produceBlock
    simp only [produced]
    rfl
  obtain ⟨returned, reaches⟩ := spreads.flood_reaches (Nat.le_succ _) self
  rw [ran]
  refine ⟨?_, reaches⟩
  rw [returned]
  rfl

/-- Gossip floods completely and stops.  An admissible transaction is handed to
every mempool at most once and ends up in that of every connected node; a block
that is produced on a common chain is applied once by every connected node and
is its new head. -/
theorem gossip_floods
    (network : Network ι)
    (calls : List (ι × ι))
    (unlinked : ∀ id, (network id).peers = []) :
    (∀ self tx,
      (∀ id, tx.txid ∉ (network id).seenTx) →
      (∀ id, ∃ added, (network id).mempool.add tx (network id).chain = .ok added) →
      ((network.connectAll calls).broadcastTx self tx).1 = .ok () ∧
      ∀ id,
        (((network.connectAll calls).broadcastTx self tx).2 id).handed.count tx.txid ≤
          (network id).handed.count tx.txid + 1 ∧
        (Connected calls self id →
          (((network.connectAll calls).broadcastTx self tx).2 id).mempool.pool.contains tx.txid =
            true)) ∧
    ∀ self wallet timestamp randomness produced,
      (∀ id, (network id).chain.bare = (network self).chain.bare) →
      (network self).chain.addBlock ((network self).mempool.select (network self).chain)
        wallet timestamp 0 randomness = .ok produced →
      (∀ id, produced.head.hash ∉ (network id).seenBlock) →
      ((network.connectAll calls).produceBlock self wallet timestamp randomness).1 =
          .ok produced.head ∧
      ∀ id, Connected calls self id →
        (((network.connectAll calls).produceBlock self wallet timestamp randomness).2
          id).chain.head = produced.head ∧
        (((network.connectAll calls).produceBlock self wallet timestamp randomness).2
          id).chain.chain = (network id).chain.chain ++ [produced.head] ∧
        (((network.connectAll calls).produceBlock self wallet timestamp randomness).2
          id).chain.state = produced.state := by
  have kept := network.connectAll_eq calls
  constructor
  · intro self tx unseen admitted
    choose added admits using admitted
    have unseenLinked : ∀ id, tx.txid ∉ (network.connectAll calls id).seenTx := by
      intro id
      obtain ⟨peers, same⟩ := kept id
      rw [same]
      exact unseen id
    have admitsLinked : ∀ id, ∃ new, (network.connectAll calls id).mempool.add tx
        (network.connectAll calls id).chain = .ok (new, (added id).2) := by
      intro id
      obtain ⟨peers, same⟩ := kept id
      rw [same]
      exact ⟨(added id).1, admits id⟩
    obtain ⟨returned, reaches⟩ := broadcastTx_reaches unseenLinked admitsLinked
    refine ⟨returned, fun id => ?_⟩
    obtain ⟨peers, same⟩ := kept id
    by_cases connected : Connected calls self id
    · rw [(reaches id).1 ((connected_iff unlinked).mpr connected), same]
      refine ⟨?_, fun _ => Mempool.contains_of_add (admits id)⟩
      simp [Node.withTx]
    · rw [(reaches id).2 fun reached => connected ((connected_iff unlinked).mp reached), same]
      exact ⟨Nat.le_succ _, fun reached => absurd reached connected⟩
  · intro self wallet timestamp randomness produced common made unseen
    have own : (network self).chain.submitBlock produced.head = .ok produced := by
      obtain ⟨block, _, submitted⟩ := (bind_eq_ok _ _ _).mp made
      rw [ProofOfStakeChain.head_submitBlock submitted]
      exact submitted
    have submits : ∀ id, ∃ after, (network id).chain.submitBlock produced.head = .ok after ∧
        produced.bare = after.bare :=
      fun id => ProofOfStakeChain.submitBlock_of_bare (common id).symm own
    choose finish submitted bare using submits
    have first : finish self = produced := Except.ok.inj ((submitted self).symm.trans own)
    have chains : ∀ id, (network.connectAll calls id).chain = (network id).chain ∧
        (network.connectAll calls id).mempool = (network id).mempool ∧
        (network.connectAll calls id).seenBlock = (network id).seenBlock := by
      intro id
      obtain ⟨peers, same⟩ := kept id
      rw [same]
      exact ⟨rfl, rfl, rfl⟩
    have madeLinked : (network.connectAll calls self).chain.addBlock
        ((network.connectAll calls self).mempool.select (network.connectAll calls self).chain)
        wallet timestamp 0 randomness = .ok (finish self) := by
      rw [(chains self).1, (chains self).2.1, first]
      exact made
    have unseenLinked : ∀ id, (finish self).head.hash ∉ (network.connectAll calls id).seenBlock := by
      intro id
      rw [(chains id).2.2, first]
      exact unseen id
    have submittedLinked : ∀ id, (network.connectAll calls id).chain.submitBlock
        (finish self).head = .ok (finish id) := by
      intro id
      rw [(chains id).1, first]
      exact submitted id
    have reaches := produceBlock_reaches madeLinked unseenLinked submittedLinked
    rw [first] at reaches
    refine ⟨reaches.1, fun id connected => ?_⟩
    obtain ⟨peers, same⟩ := kept id
    rw [(reaches.2 id).1 ((connected_iff unlinked).mpr connected), same]
    have accepted := ProofOfStakeChain.submitted_of_submitBlock (submitted id)
    refine ⟨accepted.newest, accepted.blocks, ?_⟩
    exact (ProofOfStakeChain.state_eq_of_bare (bare id)).symm

end Network

end

/-! ## Three nodes in a circle -/

namespace NetworkSample

attribute [local instance] Symbolic.primitives

structure Scene where
  chain : ProofOfStakeChain
  tx : Transaction
  added : Bool × Mempool
  produced : ProofOfStakeChain

def stage : Except Error Scene := do
  let chain ← ProofOfStakeChain.init ForkSample.args
  let tx ← paymentTx (Symbolic.wallet 1) (Symbolic.wallet 2).address 1 0 0 0
  let added ← Mempool.init.add tx chain
  let produced ← chain.addBlock (Mempool.init.select chain) (Symbolic.wallet 1) 1 0 0
  pure { chain, tx, added, produced }

theorem staged : succeeded stage = true := by decide +kernel

/-- Three nodes with one chain and empty mempools. -/
def nodes (chain : ProofOfStakeChain) : Network (Fin 3) := fun _ =>
  { chain, mempool := Mempool.init, peers := [], seenTx := ∅, seenBlock := ∅, handed := [] }

def circle : List (Fin 3 × Fin 3) := [(0, 1), (1, 2), (2, 0)]

/-- A transaction and a block get from the first node to the last. -/
theorem gossip_floods_circle :
    ∃ scene : Scene,
      ((((nodes scene.chain).connectAll circle).broadcastTx 0 scene.tx).2
        2).mempool.pool.contains scene.tx.txid = true ∧
      ((((nodes scene.chain).connectAll circle).produceBlock 0 (Symbolic.wallet 1) 1 0).2
        2).chain.head = scene.produced.head := by
  obtain ⟨scene, ran⟩ := (succeeded_iff stage).mp staged
  simp only [stage, bind_eq_ok, pure_eq_ok] at ran
  obtain ⟨chain, _, tx, _, added, admits, produced, made, rfl⟩ := ran
  obtain ⟨transactions, blocks⟩ := Network.gossip_floods (nodes chain) circle fun _ => rfl
  have connected : Network.Connected circle 0 2 :=
    .single (.inr (by decide))
  obtain ⟨_, pooled⟩ := transactions 0 tx (fun _ => Finset.notMem_empty _) fun _ => ⟨added, admits⟩
  obtain ⟨_, applied⟩ := blocks 0 (Symbolic.wallet 1) 1 0 produced (fun _ => rfl) made
    fun _ => Finset.notMem_empty _
  exact ⟨{ chain, tx, added, produced }, (pooled 2).2 connected, (applied 2 connected).1⟩

end NetworkSample

end Mindees
