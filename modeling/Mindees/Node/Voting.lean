import Mindees.Consensus.Faults
import Mindees.Consensus.Finality
import Mindees.Node.Gossip
import Mindees.Consensus.Produce

/-!
# Automatic votes

A node votes for the latest checkpoint of its canonical chain, at most once for
each height that the pool took a vote for.  Its votes prove no fault exactly as
long as no reorganisation lets the justified checkpoints of the canonical chain
fall behind, or overtake, what the node has voted for.
-/

namespace Mindees

open Library

namespace ProofOfStakeChain

section

variable [Primitives]

/-- The latest checkpoint above genesis. -/
def latestCheckpoint (chain : ProofOfStakeChain) : Option Block :=
  chain.chain.reverse.find? fun block =>
    decide (0 < block.index ∧ block.index % chain.config.epoch = 0)

/-- A block that is a justified checkpoint below a height. -/
def JustifiedBelow (chain : ProofOfStakeChain) (height : Int) (block : Block) : Prop :=
  block.index < height ∧ block.index % chain.config.epoch = 0 ∧
    block.hash ∈ chain.state.justified

instance (chain : ProofOfStakeChain) (height : Int) (block : Block) :
    Decidable (chain.JustifiedBelow height block) :=
  inferInstanceAs (Decidable (_ ∧ _))

/-- The highest justified checkpoint below a height, by default the finalized
one. -/
def voteSource (chain : ProofOfStakeChain) (height : Int) : Checkpoint :=
  chain.chain.foldl
    (fun source block =>
      if chain.JustifiedBelow height block ∧ source.2 ≤ block.index then
        (block.hash, block.index)
      else source)
    chain.state.finalized

/-- A checkpoint that a vote for a height may start from. -/
def IsSource (chain : ProofOfStakeChain) (height : Int) (checkpoint : Checkpoint) : Prop :=
  checkpoint = chain.state.finalized ∨
    ∃ block ∈ chain.chain, chain.JustifiedBelow height block ∧
      checkpoint = (block.hash, block.index)

/-- No checkpoint that a vote for a height may start from is higher. -/
def IsHighestSource
    (chain : ProofOfStakeChain)
    (height : Int)
    (checkpoint : Checkpoint) : Prop :=
  chain.IsSource height checkpoint ∧
    ∀ other, chain.IsSource height other → other.2 ≤ checkpoint.2

/-- The loop of `auto_vote` finds the highest source. -/
theorem isHighestSource_voteSource
    (chain : ProofOfStakeChain)
    (height : Int) :
    chain.IsHighestSource height (chain.voteSource height) := by
  let step : Checkpoint → Block → Checkpoint := fun source block =>
    if chain.JustifiedBelow height block ∧ source.2 ≤ block.index then
      (block.hash, block.index)
    else source
  -- the result is the start or a scanned checkpoint, and above them all
  have scan : ∀ (blocks : List Block) (start : Checkpoint),
      (blocks.foldl step start = start ∨
        ∃ block ∈ blocks, chain.JustifiedBelow height block ∧
          blocks.foldl step start = (block.hash, block.index)) ∧
      start.2 ≤ (blocks.foldl step start).2 ∧
      ∀ block ∈ blocks, chain.JustifiedBelow height block →
        block.index ≤ (blocks.foldl step start).2 := by
    intro blocks
    induction blocks with
    | nil => simp
    | cons first rest inductionHypothesis =>
        intro start
        obtain ⟨origin, above, scanned⟩ := inductionHypothesis (step start first)
        have stepped : (step start first = start ∧
            (chain.JustifiedBelow height first → first.index < start.2)) ∨
            (step start first = (first.hash, first.index) ∧
              chain.JustifiedBelow height first ∧ start.2 ≤ first.index) := by
          by_cases raised : chain.JustifiedBelow height first ∧ start.2 ≤ first.index
          · exact .inr ⟨if_pos raised, raised⟩
          · refine .inl ⟨if_neg raised, fun justified => ?_⟩
            exact not_le.mp fun low => raised ⟨justified, low⟩
        rw [List.foldl_cons]
        rcases stepped with ⟨same, below⟩ | ⟨moved, justified, low⟩
        · rw [same] at origin above scanned ⊢
          refine ⟨?_, above, ?_⟩
          · exact origin.imp_right fun ⟨block, inside, found⟩ =>
              ⟨block, List.mem_cons_of_mem _ inside, found⟩
          · intro block inside justified
            rcases List.mem_cons.mp inside with rfl | later
            · exact (below justified).le.trans above
            · exact scanned block later justified
        · rw [moved] at origin above scanned ⊢
          refine ⟨.inr ?_, low.trans above, ?_⟩
          · rcases origin with first | ⟨block, inside, found⟩
            · exact ⟨_, List.mem_cons_self, justified, first⟩
            · exact ⟨block, List.mem_cons_of_mem _ inside, found⟩
          · intro block inside found
            rcases List.mem_cons.mp inside with rfl | later
            · exact above
            · exact scanned block later found
  obtain ⟨origin, above, scanned⟩ := scan chain.chain chain.state.finalized
  refine ⟨origin, ?_⟩
  rintro other (rfl | ⟨block, inside, justified, rfl⟩)
  · exact above
  · exact scanned block inside justified

variable {args : GenesisArgs} {chain : ProofOfStakeChain}

/-- Checkpoints of one height on a reachable chain are the same. -/
theorem Reachable.isSource_unique
    (reachable : Reachable args chain)
    {height : Int}
    {left right : Checkpoint}
    (isLeft : chain.IsSource height left)
    (isRight : chain.IsSource height right)
    (level : left.2 = right.2) :
    left = right := by
  have located : ∀ checkpoint, chain.IsSource height checkpoint →
      ∃ position : Nat, checkpoint.2 = position ∧
        chain.hashAt position = some checkpoint.1 := by
    rintro checkpoint (rfl | ⟨block, inside, _, rfl⟩)
    · obtain ⟨position, equal, here⟩ := reachable.bookkeeping.finalized_position
      refine ⟨position, equal, ?_⟩
      rw [hashAt, ← List.getElem?_map]
      exact here
    · obtain ⟨position, here⟩ := List.mem_iff_getElem?.mp inside
      exact ⟨position, reachable.index_eq here, by rw [hashAt, here]; rfl⟩
  obtain ⟨leftPosition, leftHeight, leftHash⟩ := located left isLeft
  obtain ⟨rightPosition, rightHeight, rightHash⟩ := located right isRight
  have same : leftPosition = rightPosition := by omega
  rw [same, rightHash] at leftHash
  exact Prod.ext (Option.some.inj leftHash).symm level

/-- The heights of checkpoints that a vote may name are not negative. -/
theorem Reachable.isSource_nonneg
    (reachable : Reachable args chain)
    {height : Int}
    {checkpoint : Checkpoint}
    (isSource : chain.IsSource height checkpoint) :
    0 ≤ checkpoint.2 := by
  rcases isSource with rfl | ⟨block, inside, _, rfl⟩
  · obtain ⟨position, equal, _⟩ := reachable.bookkeeping.finalized_position
    have height : chain.state.finalized.2 = position := equal
    omega
  · obtain ⟨position, here⟩ := List.mem_iff_getElem?.mp inside
    have height := reachable.index_eq here
    dsimp only
    omega

/-- No account has a negative nonce. -/
theorem Reachable.nonces_nonneg
    (reachable : Reachable args chain)
    (address : Str) :
    0 ≤ chain.state.nonces.getD address 0 := by
  rw [reachable.numbered.stored]
  exact Int.natCast_nonneg _

end

end ProofOfStakeChain

/-! ## Signed votes -/

section

variable [Primitives]

/-- `json.loads` reads back what `json.dumps` writes for a value. -/
def ReadsBack (value : Json) : Prop := Primitives.jsonLoads (canonicalText value) = some value

/-- The link of a vote is read from the text that the vote carries. -/
theorem voteLink_canonicalText
    {link : Link}
    (readable : ReadsBack link.toJson)
    (sourceNonneg : 0 ≤ link.sourceHeight)
    (targetNonneg : 0 ≤ link.targetHeight) :
    voteLink (canonicalText link.toJson) = .ok link := by
  have loaded : loadJson (canonicalText link.toJson) =
      .ok [(Key.s, .str link.source), (Key.sh, .int link.sourceHeight),
        (Key.t, .str link.target), (Key.th, .int link.targetHeight)] := by
    rw [loadJson, readable]
    rfl
  simp only [voteLink, loaded, bind_eq_ok]
  refine ⟨_, rfl, link.raw, (rawLink_eq_ok _ _ _).mpr ⟨rfl, rfl, rfl, rfl⟩, ?_⟩
  simp only [Link.raw, rejectIf, bind_eq_ok, raiseIf_eq_ok, pure_eq_ok, exists_unit, not_not,
    isUnits_iff]
  exact ⟨⟨sourceNonneg, targetNonneg⟩, trivial⟩

/-- What a signed vote carries. -/
theorem voteTx_eq_ok
    {voter : Wallet}
    {link : Link}
    {nonce fee : Int}
    {randomness : Nat}
    {tx : Transaction}
    (signed : voteTx voter link nonce fee randomness = .ok tx) :
    tx.sender = voter.address ∧ tx.recipient = VOTE_SENTINEL ∧
      tx.evidence = canonicalText link.toJson := by
  simp only [voteTx, Transaction.sign, rejectIf, bind_eq_ok, raiseIf_eq_ok, pure_eq_ok,
    exists_unit] at signed
  obtain ⟨_, rfl⟩ := signed
  exact ⟨rfl, rfl, rfl⟩

/-- A sound wallet signs valid votes. -/
theorem Wallet.Sound.isValid_voteTx
    {voter : Wallet}
    {link : Link}
    {nonce fee : Int}
    {randomness : Nat}
    {tx : Transaction}
    (sound : voter.Sound)
    (nonceNonneg : 0 ≤ nonce)
    (feeNonneg : 0 ≤ fee)
    (signed : voteTx voter link nonce fee randomness = .ok tx) :
    tx.isValid = true := by
  apply sound.isValid_sign ⟨le_rfl, feeNonneg, nonceNonneg⟩ _ _ signed
  · intro _
    exact ⟨rfl, List.cons_ne_nil _ _⟩
  · intro other
    exact absurd (.inr rfl) other

/-! ## The auto-voter -/

namespace P2PNode

/-- The wallet, the link and the nonce of the vote that is due, if one is. -/
def nextVote (node : P2PNode) : Option (Wallet × Link × Int) :=
  match node.service.validator with
  | none => none
  | some wallet =>
      let chain := node.service.chain
      if chain.state.stakes.contains wallet.address = false then none
      else
        match chain.latestCheckpoint with
        | none => none
        | some target =>
            if target.index ∈ node.votedTargets then none
            else
              let source := chain.voteSource target.index
              if target.index ≤ source.2 then none
              else
                -- the nonce accounts for our transactions already waiting in the pool
                let pending := (node.service.mempool.pool.values.filter
                  fun tx => tx.sender = wallet.address).length
                some (wallet, ⟨source.1, source.2, target.hash, target.index⟩,
                  chain.state.nonces.getD wallet.address 0 + pending)

/-- Cast a finality vote for the latest checkpoint.  A vote that the pool
refuses is not recorded. -/
def autoVote (node : P2PNode) (randomness : Nat) : Except Error Unit × P2PNode :=
  match node.nextVote with
  | none => (.ok (), node)
  | some (wallet, link, nonce) =>
      match voteTx wallet link nonce 0 randomness with
      | .error error => (if error.isValidation then .ok () else .error error, node)
      | .ok tx =>
          match node.submitTx tx with
          | (.error error, node) =>
              (if error.isValidation then .ok () else .error error, node)
          | (.ok _, node) =>
              (.ok (), { node with votedTargets := insert link.targetHeight node.votedTargets })

/-! ## Runs -/

/-- A vote that a node has signed, and the chain it was signed for. -/
structure Ballot where
  chain : ProofOfStakeChain
  link : Link
  tx : Transaction
  /-- The pool took the vote. -/
  admitted : Bool

/-- The vote that `auto_vote` signs. -/
def ballot (node : P2PNode) (randomness : Nat) : Option Ballot :=
  match node.nextVote with
  | none => none
  | some (wallet, link, nonce) =>
      match voteTx wallet link nonce 0 randomness with
      | .error _ => none
      | .ok tx =>
          some { chain := node.service.chain, link, tx, admitted := succeeded (node.submitTx tx).1 }

/-- The runs of a node on the network, with the votes it has signed, newest
first. -/
inductive Run (args : GenesisArgs) (checkpoint : Option Checkpoint) :
    P2PNode → List Ballot → Prop
  | start {persisted : List Block} {validator : Option Wallet} {autoproduce : Bool}
      {service : NodeService} :
      NodeService.init args persisted validator autoproduce checkpoint = .ok service →
      Run args checkpoint (P2PNode.init service) []
  | onMessage {node : P2PNode} {votes : List Ballot} (msg : List (Str × Json)) :
      Run args checkpoint node votes →
      Run args checkpoint (node.onMessage msg).2 votes
  | submitTx {node : P2PNode} {votes : List Ballot} (tx : Transaction) :
      Run args checkpoint node votes →
      Run args checkpoint (node.submitTx tx).2 votes
  | produceAndGossip {node : P2PNode} {votes : List Ballot} (timestamp : Int)
      (randomness : Nat) :
      Run args checkpoint node votes →
      Run args checkpoint (node.produceAndGossip timestamp randomness).2 votes
  | tick {node : P2PNode} {votes : List Ballot} (timestamp : Int) (randomness : Nat) :
      Run args checkpoint node votes →
      Run args checkpoint (node.tick timestamp randomness).2 votes
  | autoVote {node : P2PNode} {votes : List Ballot} (randomness : Nat) :
      Run args checkpoint node votes →
      Run args checkpoint (node.autoVote randomness).2
        ((node.ballot randomness).toList ++ votes)

/-- The vote for a target that a node signs on a chain. -/
def linkTo (chain : ProofOfStakeChain) (target : Block) : Link where
  source := (chain.voteSource target.index).1
  sourceHeight := (chain.voteSource target.index).2
  target := target.hash
  targetHeight := target.index

/-- A vote that is due names the latest checkpoint, which was not voted for. -/
theorem nextVote_eq_some
    {node : P2PNode}
    {wallet : Wallet}
    {link : Link}
    {nonce : Int}
    (due : node.nextVote = some (wallet, link, nonce)) :
    node.service.validator = some wallet ∧
      node.service.chain.state.nonces.getD wallet.address 0 ≤ nonce ∧
      ∃ target, node.service.chain.latestCheckpoint = some target ∧
        target.index ∉ node.votedTargets ∧ link = linkTo node.service.chain target ∧
        link.sourceHeight < link.targetHeight := by
  unfold nextVote at due
  split at due
  · cases due
  · rename_i configured
    dsimp only at due
    split at due
    · cases due
    · split at due
      · cases due
      · rename_i target latest
        split_ifs at due with voted stale
        cases due
        refine ⟨configured, ?_, target, latest, voted, rfl, not_le.mp stale⟩
        omega

/-- Where a signed vote comes from. -/
structure Ballot.Cast (validator : Option Wallet) (vote : Ballot) : Prop where
  chain : ∃ args, ProofOfStakeChain.Reachable args vote.chain
  latest : ∃ target, vote.chain.latestCheckpoint = some target ∧
    vote.link = linkTo vote.chain target
  upwards : vote.link.sourceHeight < vote.link.targetHeight
  signed : ∃ wallet nonce randomness, validator = some wallet ∧ 0 ≤ nonce ∧
    voteTx wallet vote.link nonce 0 randomness = .ok vote.tx

/-- What a run keeps: the node is reachable, every vote was cast, the targets of
admitted votes are recorded, and a vote never follows an admitted vote for its
target height. -/
structure Tallied
    (args : GenesisArgs)
    (checkpoint : Option Checkpoint)
    (node : P2PNode)
    (votes : List Ballot) : Prop where
  service : NodeService.Reachable args checkpoint node.service
  cast : ∀ vote ∈ votes, vote.Cast node.service.validator
  recorded : ∀ vote ∈ votes, vote.admitted = true →
    vote.link.targetHeight ∈ node.votedTargets
  apart : votes.Pairwise fun later earlier => earlier.admitted = true →
    later.link.targetHeight ≠ earlier.link.targetHeight

section

variable {args : GenesisArgs} {checkpoint : Option Checkpoint} {node : P2PNode}
  {votes : List Ballot}

theorem validator_autoVote
    (node : P2PNode)
    (randomness : Nat) :
    (node.autoVote randomness).2.service.validator = node.service.validator := by
  unfold P2PNode.autoVote
  split
  · rfl
  · split
    · rfl
    · rename_i tx _
      have same := (kept_validator node.service.validator).submitTx tx (rfl : node.service.validator = _)
      split <;> rename_i submitted <;> rw [submitted] at same <;> exact same

/-- Nothing but a vote touches the tally. -/
theorem kept_tallied
    (args : GenesisArgs)
    (checkpoint : Option Checkpoint)
    (votes : List Ballot) :
    Kept fun node => Tallied args checkpoint node votes where
  gossipTx tallied added :=
    ⟨tallied.service.gossipTx added, tallied.cast, tallied.recorded, tallied.apart⟩
  receiveBlock {node} data tallied := by
    have reached := tallied.service.receiveBlock data
    have same : (node.receiveBlock data).2.service.validator = node.service.validator :=
      node.service.validator_receiveBlock data
    refine ⟨reached, ?_, tallied.recorded, tallied.apart⟩
    rw [same]
    exact tallied.cast
  produceBlock {node} timestamp randomness tallied := by
    have reached := tallied.service.produceBlock timestamp randomness
    refine ⟨reached, ?_, tallied.recorded, tallied.apart⟩
    dsimp only
    rw [node.service.validator_produceBlock timestamp randomness]
    exact tallied.cast
  heard _ _ _ tallied := ⟨tallied.service, tallied.cast, tallied.recorded, tallied.apart⟩

/-- A signed vote is added to the tally. -/
theorem Tallied.autoVote
    (tallied : Tallied args checkpoint node votes)
    (randomness : Nat) :
    Tallied args checkpoint (node.autoVote randomness).2
      ((node.ballot randomness).toList ++ votes) := by
  unfold P2PNode.autoVote P2PNode.ballot
  cases due : node.nextVote with
  | none => exact tallied
  | some vote =>
      obtain ⟨wallet, link, nonce⟩ := vote
      dsimp only
      cases signed : voteTx wallet link nonce 0 randomness with
      | error error => exact tallied
      | ok tx =>
          obtain ⟨configured, spent, target, latest, fresh, linked, upwards⟩ :=
            nextVote_eq_some due
          obtain ⟨treeReachable, _⟩ := tallied.service.consistent
          obtain ⟨_, branch⟩ := treeReachable.invariant.head
          have nonneg := spent.trans' (branch.reachable.nonces_nonneg wallet.address)
          have cast : ∀ admitted, Ballot.Cast node.service.validator
              { chain := node.service.chain, link, tx, admitted } := fun admitted =>
            ⟨⟨_, branch.reachable⟩, ⟨target, latest, linked⟩, upwards,
              wallet, nonce, randomness, configured, nonneg, signed⟩
          have height : link.targetHeight = target.index := by rw [linked]; rfl
          have apart : ∀ earlier ∈ votes, earlier.admitted = true →
              link.targetHeight ≠ earlier.link.targetHeight := by
            intro earlier inside admitted same
            have recorded := tallied.recorded earlier inside admitted
            rw [← same, height] at recorded
            exact fresh recorded
          dsimp only [P2PNode.submitTx]
          cases added : node.service.mempool.add tx node.service.chain with
          | error error =>
              refine ⟨tallied.service, ?_, ?_, List.pairwise_cons.mpr ⟨apart, tallied.apart⟩⟩
              · exact List.forall_mem_cons.mpr ⟨cast _, tallied.cast⟩
              · refine List.forall_mem_cons.mpr ⟨?_, tallied.recorded⟩
                intro impossible
                cases impossible
          | ok result =>
              obtain ⟨new, mempool⟩ := result
              refine ⟨tallied.service.gossipTx added, ?_, ?_,
                List.pairwise_cons.mpr ⟨apart, tallied.apart⟩⟩
              · exact List.forall_mem_cons.mpr ⟨cast _, tallied.cast⟩
              · refine List.forall_mem_cons.mpr ⟨fun _ => Finset.mem_insert_self _ _, ?_⟩
                intro earlier inside admitted
                exact Finset.mem_insert_of_mem (tallied.recorded earlier inside admitted)

/-- Every run keeps the tally. -/
theorem Run.tallied
    (run : Run args checkpoint node votes) :
    Tallied args checkpoint node votes := by
  induction run with
  | start initialised =>
      exact ⟨.init initialised, by simp, by simp, .nil⟩
  | onMessage msg _ inductionHypothesis =>
      exact (kept_tallied args checkpoint _).onMessage msg inductionHypothesis
  | submitTx tx _ inductionHypothesis =>
      exact (kept_tallied args checkpoint _).submitTx tx inductionHypothesis
  | produceAndGossip timestamp randomness _ inductionHypothesis =>
      exact (kept_tallied args checkpoint _).produceAndGossip timestamp randomness
        inductionHypothesis
  | tick timestamp randomness _ inductionHypothesis =>
      exact (kept_tallied args checkpoint _).tick timestamp randomness inductionHypothesis
  | autoVote randomness _ inductionHypothesis =>
      exact inductionHypothesis.autoVote randomness

/-! ## When votes prove a fault -/

/-- The canonical chain at a later vote lets an earlier vote stand. -/
structure Ballot.RespectedBy (earlier : Ballot) (chain : ProofOfStakeChain) : Prop where
  /-- If the latest checkpoint is above the earlier target, the chain still
  justifies the earlier source or something higher. -/
  kept : ∀ target, chain.latestCheckpoint = some target →
    earlier.link.targetHeight < target.index →
    ∃ source, chain.IsSource target.index source ∧ earlier.link.sourceHeight ≤ source.2
  /-- If it is below the earlier target, the chain justifies nothing above the
  earlier source. -/
  held : ∀ target, chain.latestCheckpoint = some target →
    target.index < earlier.link.targetHeight →
    ∀ source, chain.IsSource target.index source → source.2 ≤ earlier.link.sourceHeight
  /-- If it is at the target of a vote that the pool refused, the chain leads to
  the same vote. -/
  repeated : earlier.admitted = false → ∀ target, chain.latestCheckpoint = some target →
    target.index = earlier.link.targetHeight →
    target.hash = earlier.link.target ∧ ∃ source,
      chain.IsHighestSource target.index source ∧ source.1 = earlier.link.source

/-- A later vote conflicts with an earlier one unless its chain respects the
earlier one. -/
theorem Ballot.Cast.not_conflicts_iff
    {validator : Option Wallet}
    {later earlier : Ballot}
    (cast : later.Cast validator)
    (apart : earlier.admitted = true → later.link.targetHeight ≠ earlier.link.targetHeight) :
    ¬later.link.abstract.Conflicts earlier.link.abstract ↔ earlier.RespectedBy later.chain := by
  obtain ⟨latest, found, linked⟩ := cast.latest
  obtain ⟨_, reachable⟩ := cast.chain
  obtain ⟨isSource, highest⟩ := later.chain.isHighestSource_voteSource latest.index
  have unique : ∀ target, later.chain.latestCheckpoint = some target → target = latest := by
    intro target other
    exact Option.some.inj (other.symm.trans found)
  simp only [Casper.Link.Conflicts, Casper.Link.Double, Casper.Link.Surrounds, Link.abstract]
  rw [linked] at apart ⊢
  simp only [linkTo] at apart ⊢
  constructor
  · intro harmless
    push Not at harmless
    obtain ⟨double, outer, inner⟩ := harmless
    refine ⟨?_, ?_, ?_⟩
    · intro target other above
      obtain rfl := unique target other
      refine ⟨_, isSource, not_lt.mp fun fallen => ?_⟩
      exact absurd above (not_lt.mpr (outer fallen))
    · intro target other below source candidate
      obtain rfl := unique target other
      refine (highest source candidate).trans (not_lt.mp fun risen => ?_)
      exact absurd below (not_lt.mpr (inner risen))
    · intro _ target other level
      obtain rfl := unique target other
      obtain ⟨sameSource, sameTarget⟩ := double level
      exact ⟨sameTarget, _, ⟨isSource, highest⟩, sameSource⟩
  · rintro respected (⟨level, different⟩ | ⟨fallen, above⟩ | ⟨risen, below⟩)
    · have refused : earlier.admitted = false := by
        rw [Bool.eq_false_iff]
        intro admitted
        exact apart admitted level
      obtain ⟨sameTarget, source, ⟨candidate, top⟩, sameSource⟩ :=
        respected.repeated refused latest found level
      have equal := reachable.isSource_unique candidate isSource
        (le_antisymm (highest _ candidate) (top _ isSource))
      rw [← equal] at different
      exact different.elim (fun apart => apart sameSource) (fun apart => apart sameTarget)
    · obtain ⟨source, candidate, kept⟩ := respected.kept latest found above
      have bounded := highest source candidate
      omega
    · have held := respected.held latest found below _ isSource
      omega

/-- Two votes of a sound wallet prove a fault exactly when their links conflict. -/
theorem Ballot.Cast.fault_iff
    {wallet : Wallet}
    {left right : Ballot}
    (castLeft : left.Cast (some wallet))
    (castRight : right.Cast (some wallet))
    (sound : wallet.Sound)
    (readLeft : ReadsBack left.link.toJson)
    (readRight : ReadsBack right.link.toJson) :
    (∃ fault, verifyVoteFault left.tx right.tx = .ok fault) ↔
      left.link.abstract.Conflicts right.link.abstract := by
  have facts : ∀ {vote : Ballot}, vote.Cast (some wallet) → ReadsBack vote.link.toJson →
      vote.tx.isValid = true ∧ vote.tx.recipient = VOTE_SENTINEL ∧
        vote.tx.sender = wallet.address ∧ voteLink vote.tx.evidence = .ok vote.link := by
    intro vote cast readable
    obtain ⟨signer, nonce, randomness, same, nonneg, signed⟩ := cast.signed
    obtain rfl := Option.some.inj same
    obtain ⟨sender, recipient, evidence⟩ := voteTx_eq_ok signed
    obtain ⟨_, reachable⟩ := cast.chain
    obtain ⟨target, _, linked⟩ := cast.latest
    have source : 0 ≤ vote.link.sourceHeight := by
      rw [linked]
      exact reachable.isSource_nonneg (vote.chain.isHighestSource_voteSource target.index).1
    refine ⟨sound.isValid_voteTx nonneg le_rfl signed, recipient, sender, ?_⟩
    rw [evidence]
    exact voteLink_canonicalText readable source (source.trans cast.upwards.le)
  obtain ⟨validLeft, namedLeft, senderLeft, parsedLeft⟩ := facts castLeft readLeft
  obtain ⟨validRight, namedRight, senderRight, parsedRight⟩ := facts castRight readRight
  have proven := verifyVoteFault_iff parsedLeft parsedRight
  constructor
  · rintro ⟨⟨offender, offense⟩, accepted⟩
    exact ((proven offender).mp ⟨offense, accepted⟩).2.2.2.2.2.2
  · intro conflict
    obtain ⟨offense, accepted⟩ := (proven wallet.address).mpr
      ⟨validLeft, validRight, namedLeft, namedRight, senderLeft, senderRight, conflict⟩
    exact ⟨_, accepted⟩

/-- No two votes of a run prove a fault exactly when every vote was signed on a
chain that respects the votes before it. -/
theorem Run.fault_free_iff
    (run : Run args checkpoint node votes)
    (sound : ∀ wallet, node.service.validator = some wallet → wallet.Sound)
    (readable : ∀ vote ∈ votes, ReadsBack vote.link.toJson) :
    (∀ left ∈ votes, ∀ right ∈ votes,
      ¬∃ fault, verifyVoteFault left.tx right.tx = .ok fault) ↔
      votes.Pairwise fun later earlier => earlier.RespectedBy later.chain := by
  have tallied := run.tallied
  have harmless : ∀ left ∈ votes, ∀ right ∈ votes,
      ((∃ fault, verifyVoteFault left.tx right.tx = .ok fault) ↔
        left.link.abstract.Conflicts right.link.abstract) := by
    intro left insideLeft right insideRight
    have castLeft := tallied.cast left insideLeft
    have castRight := tallied.cast right insideRight
    obtain ⟨wallet, _, _, configured, _⟩ := castLeft.signed
    rw [configured] at castLeft castRight
    exact castLeft.fault_iff castRight (sound wallet configured) (readable left insideLeft)
      (readable right insideRight)
  have respects : votes.Pairwise (fun later earlier =>
      ¬later.link.abstract.Conflicts earlier.link.abstract ↔
        earlier.RespectedBy later.chain) := by
    refine tallied.apart.imp_of_mem fun {later earlier} insideLater _ apart => ?_
    exact (tallied.cast later insideLater).not_conflicts_iff apart
  constructor
  · intro free
    have peaceful : votes.Pairwise fun later earlier =>
        ¬later.link.abstract.Conflicts earlier.link.abstract :=
      List.pairwise_of_forall_mem_list fun later insideLater earlier insideEarlier =>
        (not_congr (harmless later insideLater earlier insideEarlier)).mp
          (free later insideLater earlier insideEarlier)
    exact (peaceful.and respects).imp fun both => both.2.mp both.1
  · intro respected
    have peaceful : votes.Pairwise fun later earlier =>
        ¬later.link.abstract.Conflicts earlier.link.abstract :=
      (respected.and respects).imp fun both => both.2.mpr both.1
    intro left insideLeft right insideRight
    rw [harmless left insideLeft right insideRight]
    have symmetric : Std.Symm fun later earlier : Ballot =>
        ¬later.link.abstract.Conflicts earlier.link.abstract :=
      ⟨fun _ _ apart conflict => apart conflict.symm⟩
    exact peaceful.forall_of_forall (fun _ _ => Casper.Link.not_conflicts_self _) insideLeft
      insideRight

end

end P2PNode

end

/-! ## A reorganisation between two votes -/

namespace VotingSample

open P2PNode

attribute [local instance] Symbolic.primitives

def keyring : List Wallet := [Symbolic.wallet 1, Symbolic.wallet 2]

/-- The node holds most of the stake, and a second validator the rest. -/
def args : GenesisArgs where
  allocations :=
    (Dict.empty.set (Symbolic.wallet 1).address (MAX_SUPPLY_UNITS - 1000)).set
      (Symbolic.wallet 2).address 1000
  initialStakes :=
    (Dict.empty.set (Symbolic.wallet 1).address 700).set (Symbolic.wallet 2).address 300
  timestamp := 2
  epoch := 1

/-- The node before it hears anything. -/
def start : Except Error P2PNode := do
  let service ← NodeService.init args [] (some (Symbolic.wallet 1))
  pure (P2PNode.init service)

/-- The blocks that the second validator seals at some timestamps, genesis left
out. -/
def branch (rounds : List (List Draft × Int)) : Except Error (List Block) := do
  let genesis ← ProofOfStakeChain.init args
  let chain ← rounds.foldlM
    (fun chain (drafts, timestamp) => do
      let transactions ← drafts.mapM (Draft.sign keyring chain)
      chain.addBlock transactions (Symbolic.wallet 2) timestamp 0 0)
    genesis
  pure chain.chain.tail

/-- The node hears of a block, or votes. -/
inductive Event
  | deliver (block : Block)
  | vote

/-- An event changes the node, and a vote is added to its votes. -/
def Event.step : P2PNode × List Ballot → Event → P2PNode × List Ballot
  | (node, votes), .deliver block =>
      ((node.onMessage [(Key.type, .str Key.block), (Key.data, block.encodeBlock)]).2, votes)
  | (node, votes), .vote => ((node.autoVote 0).2, (node.ballot 0).toList ++ votes)

theorem run_events
    {checkpoint : Option Checkpoint}
    {node : P2PNode}
    {votes : List Ballot}
    (run : Run args checkpoint node votes)
    (events : List Event) :
    Run args checkpoint (events.foldl Event.step (node, votes)).1
      (events.foldl Event.step (node, votes)).2 := by
  induction events generalizing node votes with
  | nil => exact run
  | cons event rest inductionHypothesis =>
      cases event with
      | deliver block => exact inductionHypothesis (run.onMessage _)
      | vote => exact inductionHypothesis (run.autoVote 0)

/-- A branch that justifies its first block by the vote of the node. -/
def justifying : Except Error (List Block) := branch [([], 0), ([.vote 0 0 1 0], 0)]

/-- A heavier branch that justifies nothing. -/
def heavier : Except Error (List Block) := branch [([], 2), ([], 5), ([], 0)]

theorem started : succeeded start = true := by decide +kernel

theorem justifying_sealed : succeeded justifying = true := by decide +kernel

theorem heavier_sealed : succeeded heavier = true := by decide +kernel

@[irreducible] def fresh : P2PNode := outcome start started

theorem fresh_run : Run args none fresh [] := by
  have built : start = .ok fresh := by
    unfold fresh
    exact eq_ok_outcome _ started
  simp only [start, bind_eq_ok, pure_eq_ok] at built
  obtain ⟨service, initialised, same⟩ := built
  rw [← same]
  exact .start initialised

/-- The node votes after each block of the first branch. -/
def calm : List Event :=
  (outcome justifying justifying_sealed).flatMap fun block => [.deliver block, .vote]

/-- Then it hears of the second branch, and votes again. -/
def reorganised : List Event :=
  calm ++ (outcome heavier heavier_sealed).map .deliver ++ [.vote]

/-- The node and its votes after some events. -/
@[irreducible] def after (events : List Event) : P2PNode × List Ballot :=
  events.foldl Event.step (fresh, [])

theorem run_after (events : List Event) :
    Run args none (after events).1 (after events).2 := by
  unfold after
  exact run_events fresh_run events

/-- A text holds the link, field by field. -/
def holdsLink (loaded : Option Json) (link : Link) : Bool :=
  match loaded with
  | some (.obj [(s, .str source), (sh, .int sourceHeight), (t, .str target),
      (th, .int targetHeight)]) =>
      decide (s = Key.s ∧ sh = Key.sh ∧ t = Key.t ∧ th = Key.th ∧
        link = { source, sourceHeight, target, targetHeight })
  | _ => false

theorem readsBack_of_holdsLink
    {link : Link}
    (holds : holdsLink (Primitives.jsonLoads (canonicalText link.toJson)) link = true) :
    ReadsBack link.toJson := by
  unfold holdsLink at holds
  split at holds
  · rename_i loaded
    obtain ⟨rfl, rfl, rfl, rfl, rfl⟩ := of_decide_eq_true holds
    exact loaded
  · cases holds

theorem validator_after (events : List Event) :
    (after events).1.service.validator = some (Symbolic.wallet 1) := by
  have steps : ∀ (events : List Event) (before : P2PNode × List Ballot),
      before.1.service.validator = some (Symbolic.wallet 1) →
      (events.foldl Event.step before).1.service.validator = some (Symbolic.wallet 1) := by
    intro events
    induction events with
    | nil => exact fun _ holds => holds
    | cons event rest inductionHypothesis =>
        intro before holds
        refine inductionHypothesis _ ?_
        cases event with
        | deliver block => exact (kept_validator _).onMessage _ holds
        | vote => exact (before.1.validator_autoVote 0).trans holds
  unfold after
  refine steps events _ ?_
  unfold fresh
  rfl

/-- The keys of the node keep the library's promises. -/
theorem sound_after
    (events : List Event)
    (wallet : Wallet)
    (configured : (after events).1.service.validator = some wallet) :
    wallet.Sound := by
  rw [validator_after] at configured
  obtain rfl := Option.some.inj configured
  exact Symbolic.wallet_sound 1

/-- Without a reorganisation both votes stand. -/
theorem fault_free_iff_calm :
    (after calm).2.length = 2 ∧
      (after calm).2.Pairwise fun later earlier => earlier.RespectedBy later.chain := by
  -- one check, because each part of it runs the node again
  have checked : (after calm).2.length = 2 ∧
      (∀ vote ∈ (after calm).2,
        holdsLink (Primitives.jsonLoads (canonicalText vote.link.toJson)) vote.link = true) ∧
      ∀ left ∈ (after calm).2, ∀ right ∈ (after calm).2,
        succeeded (verifyVoteFault left.tx right.tx) = false := by
    decide +kernel
  obtain ⟨two, readable, free⟩ := checked
  refine ⟨two, ?_⟩
  refine ((run_after calm).fault_free_iff (sound_after calm)
    fun vote inside => readsBack_of_holdsLink (readable vote inside)).mp ?_
  rintro left insideLeft right insideRight ⟨fault, accepted⟩
  have refused := free left insideLeft right insideRight
  rw [accepted] at refused
  cases refused

/-- After a reorganisation the node votes around an earlier vote of its own. -/
theorem auto_voter_surrounds_itself :
    ¬∀ (args : GenesisArgs) (checkpoint : Option Checkpoint) (node : P2PNode)
      (votes : List Ballot), Run args checkpoint node votes →
      (∀ wallet, node.service.validator = some wallet → wallet.Sound) →
      (∀ vote ∈ votes, ReadsBack vote.link.toJson) →
      ∀ left ∈ votes, ∀ right ∈ votes,
        ¬∃ fault, verifyVoteFault left.tx right.tx = .ok fault := by
  intro claim
  have checked :
      (∀ vote ∈ (after reorganised).2,
        holdsLink (Primitives.jsonLoads (canonicalText vote.link.toJson)) vote.link = true) ∧
      ∃ left ∈ (after reorganised).2, ∃ right ∈ (after reorganised).2,
        succeeded (verifyVoteFault left.tx right.tx) = true := by
    decide +kernel
  obtain ⟨readable, left, insideLeft, right, insideRight, accepted⟩ := checked
  refine claim args none _ _ (run_after reorganised) (sound_after reorganised)
    (fun vote inside => readsBack_of_holdsLink (readable vote inside)) left insideLeft right
    insideRight ⟨_, eq_ok_outcome _ accepted⟩

end VotingSample

end Mindees
