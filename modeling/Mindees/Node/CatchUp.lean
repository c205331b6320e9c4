import Mindees.Consensus.HeadCommitment
import Mindees.Node.BlockSize
import Mindees.Node.Network

/-!
# Catching up

The nodes of one process meet, gossip, produce, hear lines from outside and pull
blocks from each other, in any order.  A node that pulls ends with the chain of its
peer or is left as it was.
-/

namespace Mindees

open Library ProofOfStakeChain

section

variable [Primitives] {ι : Type}

/-! ## Pulling blocks -/

namespace Node

/-- The blocks above a height, as they are handed over. -/
def blocksAfter (node : Node ι) (index : Int) : List Json :=
  (node.chain.chain.filter fun block => index < block.index).map Block.encodeBlock

/-- Submit what was handed over and count it.  The first block that raises ends it. -/
def syncLoop (node : Node ι) (applied : Int) : List Json → Except Error Int × Node ι
  | [] => (.ok applied, { node with mempool := node.mempool.update node.chain })
  | data :: rest =>
      match decodeBlock data with
      | .error error => (.error error, node)
      | .ok block =>
          if block.index ≤ node.chain.head.index then syncLoop node applied rest
          else
            match node.chain.submitBlock block with
            | .error error => (.error error, node)
            | .ok chain =>
                syncLoop { node with chain, seenBlock := insert block.hash node.seenBlock }
                  (applied + 1) rest

/-- Pull the blocks that a peer has above the own head. -/
def syncFrom (node peer : Node ι) : Except Error Int × Node ι :=
  syncLoop node 0 (peer.blocksAfter node.chain.head.index)

end Node

/-! ## Runs -/

/-- What happens to the nodes of a process. -/
inductive Event (ι : Type)
  | connect (self other : ι)
  | broadcastTx (self : ι) (tx : Transaction)
  | produceBlock (self : ι) (wallet : Wallet) (timestamp : Int) (randomness : Nat)
  /-- A connection to the ingest server of a node. -/
  | handle (self : ι) (stream : Bytes)
  | syncFrom (self peer : ι)

namespace Network

variable [DecidableEq ι] [Fintype ι]

/-- Hand data to a node, as a transaction. -/
def recvTx (network : Network ι) (self : ι) (data : Json) : Except Error Unit × Network ι :=
  flood Node.peers (Node.recvTx data) .diverges (Fintype.card ι) network self none

/-- Hand data to a node, as a block. -/
def recvBlock (network : Network ι) (self : ι) (data : Json) : Except Error Unit × Network ι :=
  flood Node.peers (Node.recvBlock data) .diverges (Fintype.card ι) network self none

/-- The ingest server takes one line of a connection and keeps its exceptions to itself. -/
def handle (network : Network ι) (self : ι) (stream : Bytes) : Network ι :=
  match (gossipLine stream).bind fun line => (decodeUtf8 line).bind Primitives.jsonLoads with
  | some (.obj msg) =>
      match Json.field msg Key.type, Json.field msg Key.data with
      | some (.str type), some data =>
          if type = Key.tx then (network.recvTx self data).2
          else if type = Key.block then (network.recvBlock self data).2
          else network
      | _, _ => network
  | _ => network

/-- The nodes after an event, whatever it raises. -/
def step (network : Network ι) : Event ι → Network ι
  | .connect self other => network.connect self other
  | .broadcastTx self tx => (network.broadcastTx self tx).2
  | .produceBlock self wallet timestamp randomness =>
      (network.produceBlock self wallet timestamp randomness).2
  | .handle self stream => network.handle self stream
  | .syncFrom self peer =>
      Function.update network self ((network self).syncFrom (network peer)).2

def run (network : Network ι) (events : List (Event ι)) : Network ι := events.foldl step network

end Network

/-! ## What every run keeps -/

namespace Node

/-- What holds of a node from its start on. -/
structure Sound (args : GenesisArgs) (node : Node ι) : Prop where
  chain : Reachable args node.chain
  mempool : node.mempool.Sound
  /-- The node has seen all blocks of its chain but genesis. -/
  seenBlock : ∀ block ∈ node.chain.chain.tail, block.hash ∈ node.seenBlock
  /-- No transaction was handed to the mempool twice. -/
  once : node.handed.Nodup
  handed : ∀ txid ∈ node.handed, txid ∈ node.seenTx

/-- A node that was just started is sound, whoever its peers are. -/
theorem Sound.genesis
    {args : GenesisArgs}
    {chain : ProofOfStakeChain}
    (initialised : init args = .ok chain)
    (peers : List ι) :
    Sound args
      { chain, mempool := .init, peers, seenTx := ∅, seenBlock := ∅, handed := [] } where
  chain := .genesis initialised
  mempool := Mempool.sound_init
  seenBlock := by
    intro block inside
    obtain ⟨_, _, _, _, _, _, _, _, blocks⟩ := (init_eq_ok _ _).mp initialised
    rw [blocks] at inside
    cases inside
  once := List.nodup_nil
  handed := fun _ inside => absurd inside List.not_mem_nil

/-- What happens to a node only adds to it and keeps it sound. -/
structure Grows (before after : Node ι) : Prop where
  chain : before.chain.chain <+: after.chain.chain
  seenTx : before.seenTx ⊆ after.seenTx
  seenBlock : before.seenBlock ⊆ after.seenBlock
  handed : before.handed <+: after.handed
  peers : before.peers <+: after.peers
  sound : ∀ {args}, before.Sound args → after.Sound args

namespace Grows

variable {first second third node : Node ι}

theorem refl (node : Node ι) : node.Grows node :=
  ⟨List.prefix_rfl, Finset.Subset.rfl, Finset.Subset.rfl, List.prefix_rfl, List.prefix_rfl,
    fun sound => sound⟩

theorem trans
    (one : first.Grows second)
    (two : second.Grows third) :
    first.Grows third where
  chain := one.chain.trans two.chain
  seenTx := one.seenTx.trans two.seenTx
  seenBlock := one.seenBlock.trans two.seenBlock
  handed := one.handed.trans two.handed
  peers := one.peers.trans two.peers
  sound sound := two.sound (one.sound sound)

/-- A run of growing steps grows. -/
theorem of_reflTransGen
    {step : Node ι → Node ι → Prop}
    (grows : ∀ before after, step before after → before.Grows after)
    (ran : Relation.ReflTransGen step first second) :
    first.Grows second := by
  induction ran with
  | refl => exact refl first
  | tail _ last inductionHypothesis => exact inductionHypothesis.trans (grows _ _ last)

/-- A block that was submitted and marked as seen. -/
theorem submitBlock
    {chain : ProofOfStakeChain}
    {block : Block}
    (submitted : node.chain.submitBlock block = .ok chain) :
    node.Grows { node with chain, seenBlock := insert block.hash node.seenBlock } where
  chain := by
    rw [(submitted_of_submitBlock submitted).blocks]
    exact List.prefix_append _ _
  seenTx := Finset.Subset.rfl
  seenBlock := Finset.subset_insert _ _
  handed := List.prefix_rfl
  peers := List.prefix_rfl
  sound := by
    intro args sound
    refine ⟨.block sound.chain submitted, sound.mempool, ?_, sound.once, sound.handed⟩
    intro other inside
    dsimp only at inside ⊢
    rw [(submitted_of_submitBlock submitted).blocks,
      List.tail_append_of_ne_nil node.chain.nonempty, List.mem_append] at inside
    rcases inside with older | newest
    · exact Finset.mem_insert_of_mem (sound.seenBlock other older)
    · rw [List.mem_singleton.mp newest]
      exact Finset.mem_insert_self _ _

theorem update (node : Node ι) (chain : ProofOfStakeChain) :
    node.Grows { node with mempool := node.mempool.update chain } where
  chain := List.prefix_rfl
  seenTx := Finset.Subset.rfl
  seenBlock := Finset.Subset.rfl
  handed := List.prefix_rfl
  peers := List.prefix_rfl
  sound sound :=
    ⟨sound.chain, sound.mempool.update chain, sound.seenBlock, sound.once, sound.handed⟩

theorem see (node : Node ι) (hash : Str) :
    node.Grows { node with seenBlock := insert hash node.seenBlock } where
  chain := List.prefix_rfl
  seenTx := Finset.Subset.rfl
  seenBlock := Finset.subset_insert _ _
  handed := List.prefix_rfl
  peers := List.prefix_rfl
  sound sound :=
    ⟨sound.chain, sound.mempool,
      fun block inside => Finset.mem_insert_of_mem (sound.seenBlock block inside), sound.once,
      sound.handed⟩

/-- A transaction that is handed to the mempool for the first time. -/
theorem hand
    {txid : Str}
    (unseen : txid ∉ node.seenTx) :
    node.Grows
      { node with seenTx := insert txid node.seenTx, handed := node.handed ++ [txid] } where
  chain := List.prefix_rfl
  seenTx := Finset.subset_insert _ _
  seenBlock := Finset.Subset.rfl
  handed := List.prefix_append _ _
  peers := List.prefix_rfl
  sound := by
    intro args sound
    refine ⟨sound.chain, sound.mempool, sound.seenBlock, ?_, ?_⟩
    · have fresh : txid ∉ node.handed := fun inside => unseen (sound.handed txid inside)
      exact List.Nodup.append sound.once (List.nodup_singleton _)
        (List.disjoint_singleton.mpr fresh)
    · intro other inside
      rcases List.mem_append.mp inside with older | newest
      · exact Finset.mem_insert_of_mem (sound.handed other older)
      · rw [List.mem_singleton.mp newest]
        exact Finset.mem_insert_self _ _

theorem add
    {tx : Transaction}
    {new : Bool}
    {mempool : Mempool}
    (added : node.mempool.add tx node.chain = .ok (new, mempool)) :
    node.Grows { node with mempool } where
  chain := List.prefix_rfl
  seenTx := Finset.Subset.rfl
  seenBlock := Finset.Subset.rfl
  handed := List.prefix_rfl
  peers := List.prefix_rfl
  sound sound :=
    ⟨sound.chain, sound.mempool.add added, sound.seenBlock, sound.once, sound.handed⟩

theorem recvTx (node : Node ι) (data : Json) :
    node.Grows (Node.recvTx data node).state := by
  unfold Node.recvTx
  split
  · exact refl node
  · split_ifs with seen
    · exact refl node
    · have handed : node.Grows _ := hand seen
      dsimp only
      split
      · split_ifs <;> exact handed
      · rename_i added
        exact handed.trans (add added)

theorem recvBlock (node : Node ι) (data : Json) :
    node.Grows (Node.recvBlock data node).state := by
  unfold Node.recvBlock
  split
  · exact refl node
  · split_ifs with seen
    · exact refl node
    · dsimp only
      split
      · split_ifs <;> exact see node _
      · rename_i submitted
        exact (submitBlock submitted).trans (update _ _)

theorem syncLoop (node : Node ι) (applied : Int) (blocks : List Json) :
    node.Grows (node.syncLoop applied blocks).2 := by
  induction blocks generalizing node applied with
  | nil => exact update node node.chain
  | cons data rest inductionHypothesis =>
      rw [Node.syncLoop]
      split
      · exact refl node
      · split_ifs with behind
        · exact inductionHypothesis node applied
        · split
          · exact refl node
          · rename_i submitted
            exact (submitBlock submitted).trans (inductionHypothesis _ _)

theorem addPeer [DecidableEq ι] (node : Node ι) (other : ι) :
    node.Grows (node.addPeer other) := by
  unfold Node.addPeer
  split_ifs with known
  · exact refl node
  · exact
      ⟨List.prefix_rfl, Finset.Subset.rfl, Finset.Subset.rfl, List.prefix_rfl,
        List.prefix_append _ _,
        fun sound => ⟨sound.chain, sound.mempool, sound.seenBlock, sound.once, sound.handed⟩⟩

end Grows

theorem takesOnce_recvTx (data : Json) :
    TakesOnce (recvTx data) fun node : Node ι =>
      ∀ tx, decodeTx data = .ok tx → tx.txid ∈ node.seenTx where
  takes := by
    intro node after passed tx decoded
    unfold recvTx at passed
    rw [decoded] at passed
    dsimp only at passed
    split_ifs at passed with seen
    split at passed
    · split_ifs at passed
    · cases passed
      exact Finset.mem_insert_self _ _
  keeps := by
    intro node taken tx decoded
    exact (Grows.recvTx node data).seenTx (taken tx decoded)
  stops := by
    intro node after taken passed
    unfold recvTx at passed
    cases decoded : decodeTx data with
    | error error =>
        rw [decoded] at passed
        cases passed
    | ok tx =>
        rw [decoded] at passed
        dsimp only at passed
        rw [if_pos (taken tx decoded)] at passed
        cases passed

theorem takesOnce_recvBlock (data : Json) :
    TakesOnce (recvBlock data) fun node : Node ι =>
      ∀ block, decodeBlock data = .ok block → block.hash ∈ node.seenBlock where
  takes := by
    intro node after passed block decoded
    unfold recvBlock at passed
    rw [decoded] at passed
    dsimp only at passed
    split_ifs at passed with seen
    split at passed
    · split_ifs at passed
    · cases passed
      exact Finset.mem_insert_self _ _
  keeps := by
    intro node taken block decoded
    exact (Grows.recvBlock node data).seenBlock (taken block decoded)
  stops := by
    intro node after taken passed
    unfold recvBlock at passed
    cases decoded : decodeBlock data with
    | error error =>
        rw [decoded] at passed
        cases passed
    | ok block =>
        rw [decoded] at passed
        dsimp only at passed
        rw [if_pos (taken block decoded)] at passed
        cases passed

end Node

/-! ## Whole networks -/

namespace Network

variable {network : Network ι}

/-- All nodes only gain. -/
def Grows (before after : Network ι) : Prop :=
  ∀ id, (before id).Grows (after id)

theorem Grows.refl (network : Network ι) : network.Grows network :=
  fun id => .refl (network id)

theorem Grows.trans
    {first second third : Network ι}
    (one : first.Grows second)
    (two : second.Grows third) :
    first.Grows third :=
  fun id => (one id).trans (two id)

variable [DecidableEq ι]

theorem Grows.update
    {self : ι}
    {after : Node ι}
    (grows : (network self).Grows after) :
    network.Grows (Function.update network self after) := by
  intro id
  by_cases same : id = self
  · subst same
    rw [Function.update_self]
    exact grows
  · rw [Function.update_of_ne same]
    exact .refl _

theorem Grows.connect (network : Network ι) (self other : ι) :
    network.Grows (network.connect self other) :=
  (Grows.update (.addPeer _ other)).trans (Grows.update (.addPeer _ self))

theorem Grows.flood
    {handle : Node ι → Verdict Error (Node ι)}
    (grows : ∀ node : Node ι, node.Grows (handle node).state)
    (exhausted : Error)
    (fuel : Nat)
    (network : Network ι)
    (self : ι)
    (origin : Option ι) :
    network.Grows (flood Node.peers handle exhausted fuel network self origin).2 := by
  intro id
  refine .of_reflTransGen ?_ (flood_handles exhausted fuel network self origin id)
  intro before after handled
  rw [handled]
  exact grows before

variable [Fintype ι]

theorem Grows.recvTx (network : Network ι) (self : ι) (data : Json) :
    network.Grows (network.recvTx self data).2 :=
  .flood (fun node => .recvTx node data) _ _ network self none

theorem Grows.recvBlock (network : Network ι) (self : ι) (data : Json) :
    network.Grows (network.recvBlock self data).2 :=
  .flood (fun node => .recvBlock node data) _ _ network self none

theorem Grows.produceBlock
    (network : Network ι)
    (self : ι)
    (wallet : Wallet)
    (timestamp : Int)
    (randomness : Nat) :
    network.Grows (network.produceBlock self wallet timestamp randomness).2 := by
  unfold Network.produceBlock
  dsimp only
  split
  · exact .refl network
  · rename_i chain produced
    simp only [ProofOfStakeChain.addBlock, bind_eq_ok] at produced
    obtain ⟨block, _, submitted⟩ := produced
    have own : (network self).Grows
        { network self with
          chain
          seenBlock := insert chain.head.hash (network self).seenBlock
          mempool := (network self).mempool.update chain } := by
      rw [head_submitBlock submitted]
      exact (Node.Grows.submitBlock submitted).trans (.update _ chain)
    exact (Grows.update own).trans
      (relayLoop_related Network.Grows .refl (fun _ _ _ one two => one.trans two)
        (fun after peer => .flood (fun node => .recvBlock node _) _ _ after peer _) none _ _)

theorem Grows.handle (network : Network ι) (self : ι) (stream : Bytes) :
    network.Grows (network.handle self stream) := by
  unfold Network.handle
  split
  · split
    · split_ifs
      · exact .recvTx network self _
      · exact .recvBlock network self _
      · exact .refl network
    · exact .refl network
  · exact .refl network

theorem Grows.step (network : Network ι) (event : Event ι) :
    network.Grows (network.step event) := by
  cases event with
  | connect self other => exact .connect network self other
  | broadcastTx self tx => exact .recvTx network self tx.encodeTx
  | produceBlock self wallet timestamp randomness =>
      exact .produceBlock network self wallet timestamp randomness
  | handle self stream => exact .handle network self stream
  | syncFrom self peer => exact .update (.syncLoop _ _ _)

theorem Grows.run (network : Network ι) (events : List (Event ι)) :
    network.Grows (network.run events) := by
  induction events generalizing network with
  | nil => exact .refl network
  | cons event rest inductionHypothesis =>
      exact (Grows.step network event).trans (inductionHypothesis _)

/-- Whatever happens to nodes that were started on one genesis, every chain stays a
chain of that genesis and is only extended, and no node hands a transaction to its
mempool twice or forgets what it has seen. -/
theorem run_sound
    {args : GenesisArgs}
    (started : ∀ id, (network id).Sound args)
    (events : List (Event ι)) :
    network.Grows (network.run events) ∧ ∀ id, (network.run events id).Sound args :=
  ⟨.run network events, fun id => (Grows.run network events id).sound (started id)⟩

/-! ## Relays end -/

/-- In any mesh and whatever the nodes have seen, a relay ends by itself: neither more
steps nor another outcome for running out of steps would change what it does. -/
theorem relays_end
    (network : Network ι)
    (self : ι)
    (origin : Option ι)
    (data : Json)
    (exhausted : Error)
    (more : Nat) :
    flood Node.peers (Node.recvTx data) exhausted (Fintype.card ι + more) network self origin =
      flood Node.peers (Node.recvTx data) .diverges (Fintype.card ι) network self origin ∧
    flood Node.peers (Node.recvBlock data) exhausted (Fintype.card ι + more) network self origin =
      flood Node.peers (Node.recvBlock data) .diverges (Fintype.card ι) network self origin := by
  have enough : Fintype.card ι ≤ Fintype.card ι + more := Nat.le_add_right _ _
  exact ⟨(Node.takesOnce_recvTx data).flood_ends enough le_rfl network self origin,
    (Node.takesOnce_recvBlock data).flood_ends enough le_rfl network self origin⟩

end Network

/-! ## First parts of a chain -/

namespace ProofOfStakeChain

variable {args : GenesisArgs} {chain before other after : ProofOfStakeChain} {blocks : List Block}

/-- A first part of a chain is a chain, and the other blocks lead on from it. -/
theorem Reachable.split
    (reachable : Reachable args chain)
    {count : Nat}
    (positive : 0 < count)
    (within : count ≤ chain.chain.length) :
    ∃ first, Reachable args first ∧ first.chain = chain.chain.take count ∧
      first.submitBlocks (chain.chain.drop count) = .ok chain := by
  induction reachable with
  | @genesis chain initialised =>
      have whole : chain.chain.length ≤ count := by
        obtain ⟨_, _, _, _, _, _, _, _, blocks⟩ := (init_eq_ok _ _).mp initialised
        rw [blocks]
        exact positive
      refine ⟨chain, .genesis initialised, (List.take_of_length_le whole).symm, ?_⟩
      rw [List.drop_eq_nil_of_le whole]
      rfl
  | @block before after block reachable submitted inductionHypothesis =>
      have accepted := submitted_of_submitBlock submitted
      rw [accepted.blocks, List.length_append, List.length_singleton] at within
      rcases Nat.lt_or_ge before.chain.length count with newest | older
      · have whole : after.chain.length ≤ count := by
          rw [accepted.blocks, List.length_append, List.length_singleton]
          exact newest
        refine ⟨after, reachable.block submitted, (List.take_of_length_le whole).symm, ?_⟩
        rw [List.drop_eq_nil_of_le whole]
        rfl
      · obtain ⟨first, started, taken, dropped⟩ := inductionHypothesis older
        refine ⟨first, started, ?_, ?_⟩
        · rw [accepted.blocks, List.take_append_of_le_length older, taken]
        · rw [accepted.blocks, List.drop_append_of_le_length older, submitBlocks,
            foldlM_concat_eq_ok]
          exact ⟨before, dropped, submitted⟩

/-- The first part of a chain that is as long as another chain, and the only head with
which the chain passes there. -/
theorem Reachable.upTo
    (otherReachable : Reachable args other)
    (reachable : Reachable args chain)
    (longer : chain.chain.length ≤ other.chain.length) :
    ∃ first, Reachable args first ∧ first.chain = other.chain.take chain.chain.length ∧
      first.submitBlocks (other.chain.drop chain.chain.length) = .ok other ∧
      first.head.index = chain.head.index ∧
      ∀ hash, other.Passes (hash, chain.head.index) ↔ hash = first.head.hash := by
  have positive := List.length_pos_of_ne_nil chain.nonempty
  obtain ⟨first, started, taken, onward⟩ := otherReachable.split positive longer
  have length := reachable.length_eq
  have firstLength := started.length_eq
  rw [taken, List.length_take, Nat.min_eq_left longer] at firstLength
  have height : first.head.index = chain.head.index := by omega
  refine ⟨first, started, taken, onward, height, fun hash => ?_⟩
  obtain ⟨nonneg, here⟩ := started.hashAt_head
  dsimp only at nonneg here
  rw [height] at nonneg here
  have within : chain.head.index.toNat < chain.chain.length := by omega
  have there : other.hashAt chain.head.index.toNat = some first.head.hash := by
    rw [← here, hashAt, hashAt, taken, List.getElem?_take_of_lt within]
  constructor
  · exact fun passes => Option.some.inj (passes.2.symm.trans there)
  · rintro rfl
    exact ⟨nonneg, there⟩

/-- The blocks above a height are the ones behind it. -/
theorem Reachable.filter_index
    (reachable : Reachable args chain)
    (height : Nat) :
    (chain.chain.filter fun block => (height : Int) < block.index) =
      chain.chain.drop (height + 1) := by
  have lower : (chain.chain.take (height + 1)).filter
      (fun block => decide ((height : Int) < block.index)) = [] := by
    apply List.filter_eq_nil_iff.mpr
    intro block inside
    obtain ⟨position, here⟩ := List.mem_iff_getElem?.mp inside
    rw [List.getElem?_take] at here
    split_ifs at here with below
    have index := reachable.index_eq here
    simp only [decide_eq_true_eq]
    omega
  have upper : (chain.chain.drop (height + 1)).filter
      (fun block => decide ((height : Int) < block.index)) = chain.chain.drop (height + 1) := by
    apply List.filter_eq_self.mpr
    intro block inside
    obtain ⟨position, here⟩ := List.mem_iff_getElem?.mp inside
    rw [List.getElem?_drop] at here
    have index := reachable.index_eq here
    simp only [decide_eq_true_eq]
    omega
  calc chain.chain.filter (fun block => decide ((height : Int) < block.index))
      = (chain.chain.take (height + 1) ++ chain.chain.drop (height + 1)).filter
          (fun block => decide ((height : Int) < block.index)) := by rw [List.take_append_drop]
    _ = chain.chain.drop (height + 1) := by
        rw [List.filter_append, lower, upper, List.nil_append]

/-- Chains that differ in seals only are extended alike. -/
theorem submitBlocks_of_bare
    (same : before.bare = other.bare)
    (submitted : before.submitBlocks blocks = .ok after) :
    ∃ otherAfter, other.submitBlocks blocks = .ok otherAfter ∧ after.bare = otherAfter.bare := by
  induction blocks generalizing before other with
  | nil => exact ⟨other, rfl, Except.ok.inj submitted ▸ same⟩
  | cons block rest inductionHypothesis =>
      obtain ⟨middle, first, later⟩ := (foldlM_cons_eq_ok _ _ _ _).mp submitted
      obtain ⟨otherMiddle, otherFirst, middles⟩ := submitBlock_of_bare same first
      obtain ⟨otherAfter, otherLater, afters⟩ := inductionHypothesis middles later
      exact ⟨otherAfter, (foldlM_cons_eq_ok _ _ _ _).mpr ⟨otherMiddle, otherFirst, otherLater⟩,
        afters⟩

/-- A block on another parent is refused first of all. -/
theorem submitBlock_of_previousHash_ne
    {block : Block}
    (foreign : block.previousHash ≠ chain.head.hash) :
    chain.submitBlock block = .error (.validation "previous_hash mismatch") := by
  simp [submitBlock, apply, applyChecked, rejectIf, raiseIf, foreign]
  rfl

end ProofOfStakeChain

/-! ## What a pull does -/

namespace Node

variable {args : GenesisArgs} {node peer : Node ι} {width : Nat}

/-- The node that took over blocks. -/
def caughtUp (node : Node ι) (blocks : List Block) (chain : ProofOfStakeChain) : Node ι :=
  { node with
    chain
    seenBlock := node.seenBlock ∪ (blocks.map Block.hash).toFinset
    mempool := node.mempool.update chain }

/-- The loop takes over blocks that the chain accepts one after the other. -/
theorem syncLoop_of_submitBlocks
    {blocks : List Block}
    {chain : ProofOfStakeChain}
    (replayed : node.chain.submitBlocks blocks = .ok chain)
    (applied : Int) :
    node.syncLoop applied (blocks.map Block.encodeBlock) =
      (.ok (applied + blocks.length), node.caughtUp blocks chain) := by
  induction blocks generalizing node applied with
  | nil =>
      obtain rfl := Except.ok.inj replayed
      rw [List.map_nil, syncLoop, caughtUp, List.map_nil, List.toFinset_nil, Finset.union_empty,
        List.length_nil, Int.natCast_zero, Int.add_zero]
  | cons block rest inductionHypothesis =>
      obtain ⟨middle, submitted, later⟩ := (foldlM_cons_eq_ok _ _ _ _).mp replayed
      have index := (submitted_of_submitBlock submitted).index
      have decoded : decodeBlock block.encodeBlock = .ok block := by
        rw [decodeBlock_encodeBlock, postInit_of_submitBlock submitted]
      rw [List.map_cons, syncLoop, decoded]
      dsimp only
      rw [if_neg (by omega), submitted]
      dsimp only
      have loop := @inductionHypothesis
        { node with chain := middle, seenBlock := insert block.hash node.seenBlock } later
        (applied + 1)
      rw [loop]
      simp only [caughtUp, List.length_cons, List.map_cons, List.toFinset_cons, Prod.mk.injEq,
        Except.ok.injEq, Node.mk.injEq, true_and, and_true]
      constructor
      · push_cast
        omega
      · rw [Finset.insert_union, Finset.union_insert]

/-- All that a pull can do. -/
structure Pulls (node peer : Node ι) : Prop where
  /-- There is nothing to pull from a peer that is not higher. -/
  behind :
    peer.chain.head.index ≤ node.chain.head.index →
      node.syncFrom peer = (.ok 0, node.caughtUp [] node.chain)
  /-- From a peer whose chain has the own head, all blocks are pulled, and the chains are
  the same up to seals. -/
  along :
    node.chain.head.index < peer.chain.head.index →
      peer.chain.Passes (node.chain.head.hash, node.chain.head.index) →
      ∃ blocks chain, blocks <:+ peer.chain.chain ∧ chain.bare = peer.chain.bare ∧
        node.syncFrom peer =
          (.ok (peer.chain.head.index - node.chain.head.index), node.caughtUp blocks chain)
  /-- From any other peer nothing is pulled at all. -/
  apart :
    node.chain.head.index < peer.chain.head.index →
      ¬peer.chain.Passes (node.chain.head.hash, node.chain.head.index) →
      node.syncFrom peer = (.error (.validation "previous_hash mismatch"), node)

/-- The blocks that a peer hands over are the ones behind the height of the node. -/
theorem blocksAfter_eq
    (reachable : Reachable args node.chain)
    (peerReachable : Reachable args peer.chain) :
    peer.blocksAfter node.chain.head.index =
      (peer.chain.chain.drop node.chain.chain.length).map Block.encodeBlock := by
  have positive := List.length_pos_of_ne_nil node.chain.nonempty
  have length := reachable.length_eq
  have height : node.chain.head.index = ((node.chain.chain.length - 1 : Nat) : Int) := by omega
  rw [blocksAfter, height, peerReachable.filter_index, Nat.sub_add_cancel positive]

/-- Whatever the peer has, a pull takes over all of it that is missing, or nothing. -/
theorem syncFrom_pulls
    (digests : Merkle.Digests sha256 width)
    (narrow : width ≤ 32)
    (reachable : Reachable args node.chain)
    (peerReachable : Reachable args peer.chain)
    (free : CollisionFree
      {text | text ∈ node.chain.hashedInputs ∨ text ∈ peer.chain.hashedInputs}) :
    Pulls node peer := by
  have length := reachable.length_eq
  have peerLength := peerReachable.length_eq
  have positive := List.length_pos_of_ne_nil node.chain.nonempty
  have handedOver := blocksAfter_eq reachable peerReachable
  refine ⟨fun lower => ?_, fun higher passes => ?_, fun higher apart => ?_⟩
  · have nothing : peer.chain.chain.drop node.chain.chain.length = [] :=
      List.drop_eq_nil_of_le (by omega)
    rw [syncFrom, handedOver, nothing]
    exact syncLoop_of_submitBlocks rfl 0
  · obtain ⟨first, started, taken, onward, _, below⟩ :=
      peerReachable.upTo reachable (by omega)
    have covered : ∀ text ∈ first.hashedInputs, text ∈ peer.chain.hashedInputs := by
      intro text inside
      obtain ⟨block, member, hashed⟩ := List.mem_flatMap.mp inside
      rw [taken] at member
      exact List.mem_flatMap.mpr ⟨block, List.mem_of_mem_take member, hashed⟩
    have same : node.chain.bare = first.bare :=
      reachable.bare_eq_of_head_hash digests narrow free started (fun _ inside => .inl inside)
        (fun _ inside => .inr (covered _ inside)) ((below _).mp passes)
    obtain ⟨chain, submitted, bare⟩ := submitBlocks_of_bare same.symm onward
    refine ⟨peer.chain.chain.drop node.chain.chain.length, chain, List.drop_suffix _ _,
      bare.symm, ?_⟩
    rw [syncFrom, handedOver, syncLoop_of_submitBlocks submitted, List.length_drop]
    congr 2
    omega
  · obtain ⟨first, _, _, onward, height, below⟩ := peerReachable.upTo reachable (by omega)
    rw [below] at apart
    rw [syncFrom, handedOver]
    cases missing : peer.chain.chain.drop node.chain.chain.length with
    | nil =>
        have := List.drop_eq_nil_iff.mp missing
        omega
    | cons block rest =>
        rw [missing] at onward
        obtain ⟨middle, submitted, _⟩ := (foldlM_cons_eq_ok _ _ _ _).mp onward
        have accepted := submitted_of_submitBlock submitted
        have decoded : decodeBlock block.encodeBlock = .ok block := by
          rw [decodeBlock_encodeBlock, postInit_of_submitBlock submitted]
        have foreign : block.previousHash ≠ node.chain.head.hash := by
          rw [accepted.previous]
          exact fun same => apart same.symm
        have above : ¬block.index ≤ node.chain.head.index := by
          rw [accepted.index, height]
          omega
        rw [List.map_cons, syncLoop, decoded]
        dsimp only
        rw [if_neg above, submitBlock_of_previousHash_ne foreign]

end Node

/-- Nodes that were started on one genesis pull blocks from each other in any state that
a run leads to. -/
theorem Network.run_pulls
    [DecidableEq ι]
    [Fintype ι]
    {args : GenesisArgs}
    {network : Network ι}
    {width : Nat}
    (started : ∀ id, (network id).Sound args)
    (digests : Merkle.Digests sha256 width)
    (narrow : width ≤ 32)
    (events : List (Event ι))
    (self peer : ι)
    (free : CollisionFree
      {text | text ∈ (network.run events self).chain.hashedInputs ∨
        text ∈ (network.run events peer).chain.hashedInputs}) :
    (network.run events self).Pulls (network.run events peer) := by
  have sound : ∀ id, (network.run events id).Sound args :=
    fun id => (Grows.run network events id).sound (started id)
  exact Node.syncFrom_pulls digests narrow (sound self).chain (sound peer).chain free

end

/-! ## A late node -/

namespace CatchUpSample

open Network NetworkSample

attribute [local instance] Symbolic.primitives

theorem started : succeeded (ProofOfStakeChain.init ForkSample.args) = true := by decide +kernel

/-- Three nodes that have not met. -/
def fresh : Network (Fin 3) := nodes (outcome _ started)

theorem fresh_sound (id : Fin 3) : (fresh id).Sound ForkSample.args :=
  .genesis (eq_ok_outcome _ started) []

/-- Two of them meet and one of these produces a block. -/
def events (first second : Fin 3) : List (Event (Fin 3)) :=
  [.connect first second, .produceBlock first (Symbolic.wallet 1) 1 0]

theorem run_sound_three :
    fresh.Grows (fresh.run (events 0 1)) ∧ (fresh.run (events 0 1) 1).Sound ForkSample.args :=
  (run_sound fresh_sound (events 0 1)).imp_right fun sound => sound 1

theorem run_pulls_late :
    (fresh.run (events 0 1) 2).Pulls (fresh.run (events 0 1) 1) ∧
      (fresh.run (events 0 1) 2).chain.head.index <
        (fresh.run (events 0 1) 1).chain.head.index := by
  have digests : Merkle.Digests Symbolic.primitives.sha256 4 := ⟨by decide, fun _ => rfl⟩
  have distinct : (((fresh.run (events 0 1) 2).chain.hashedInputs ++
      (fresh.run (events 0 1) 1).chain.hashedInputs).dedup.map sha256).Nodup := by
    decide +kernel
  refine ⟨run_pulls fresh_sound digests (by decide) (events 0 1) 2 1 ?_, by decide +kernel⟩
  intro text inside other otherInside same
  refine List.inj_on_of_nodup_map distinct ?_ ?_ same
  · exact List.mem_dedup.mpr (List.mem_append.mpr inside)
  · exact List.mem_dedup.mpr (List.mem_append.mpr otherInside)

end CatchUpSample

end Mindees
