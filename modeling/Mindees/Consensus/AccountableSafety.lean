import Mindees.Consensus.VoteHistory
import Mindees.Consensus.Faults

/-!
# Accountable safety

Two chains that finalize apart prove a third of the stake faulty as long as
every supermajority is counted over one distribution of stakes.  Stakes that
change between checkpoints break this: two disjoint sets of validators can
finalize apart and nobody has cast two conflicting votes.
-/

namespace Mindees

open Library

/-! ## Stakes in a tally -/

section

variable {quorum : Quorum} {everyone : Finset Str}

/-- The stake of every address in a tally, summed over a set that holds all of
them. -/
theorem activeStake_eq_sum
    (covers : ∀ address ∈ quorum.snapshot.keys, address ∈ everyone) :
    activeStake quorum.snapshot quorum.slashed = everyone.sum quorum.unslashedStake := by
  rw [activeStake, Dict.sumBy_eq_sum _ _ covers]
  refine Finset.sum_congr rfl fun address _ => ?_
  rw [Dict.quantityAt, Quorum.unslashedStake, Dict.getD]
  cases quorum.snapshot.get? address <;> simp

/-- The stake of the voters in a tally. -/
theorem votedStake_eq_sum :
    votedStake quorum.snapshot quorum.voters quorum.slashed =
      quorum.voters.sum quorum.unslashedStake := by
  rw [votedStake, Finset.sdiff_eq_filter, Finset.sum_filter]
  refine Finset.sum_congr rfl fun voter _ => ?_
  rw [Quorum.unslashedStake]
  split_ifs <;> simp_all

end

section

variable [Primitives]

/-! ## Faulty votes -/

/-- The offenders that pairs among some votes prove. -/
def provenFaulty (votes : List Transaction) : List Str :=
  votes.flatMap fun voteA => votes.filterMap fun voteB =>
    match verifyVoteFault voteA voteB with
    | .ok (offender, _) => some offender
    | .error _ => none

/-- The active stake of the offenders in a tally. -/
def faultStake (votes : List Transaction) (quorum : Quorum) : Int :=
  quorum.snapshot.sumBy fun address amount =>
    if address ∈ provenFaulty votes then (if address ∈ quorum.slashed then 0 else amount) else 0

theorem mem_provenFaulty
    (votes : List Transaction)
    (offender : Str) :
    offender ∈ provenFaulty votes ↔
      ∃ voteA ∈ votes, ∃ voteB ∈ votes, ∃ offenseId,
        verifyVoteFault voteA voteB = .ok (offender, offenseId) := by
  simp only [provenFaulty, List.mem_flatMap, List.mem_filterMap]
  constructor
  · rintro ⟨voteA, insideA, voteB, insideB, found⟩
    split at found
    · rename_i other offenseId verified
      cases found
      exact ⟨voteA, insideA, voteB, insideB, offenseId, verified⟩
    · cases found
  · rintro ⟨voteA, insideA, voteB, insideB, offenseId, verified⟩
    exact ⟨voteA, insideA, voteB, insideB, by rw [verified]⟩

/-- Conflicting links prove a fault. -/
theorem verifyVoteFault_of_conflict
    {votes : List Transaction}
    {voter : Str}
    {left right : Link}
    (castLeft : CastVote votes voter left)
    (castRight : CastVote votes voter right)
    (conflict : left.abstract.Conflicts right.abstract) :
    voter ∈ provenFaulty votes := by
  obtain ⟨txA, insideA, validA, namedA, senderA, parsedA⟩ := castLeft
  obtain ⟨txB, insideB, validB, namedB, senderB, parsedB⟩ := castRight
  exact (mem_provenFaulty votes voter).mpr ⟨txA, insideA, txB, insideB,
    (verifyVoteFault_iff parsedA parsedB voter).mpr
      ⟨validA, validB, namedA, namedB, senderA, senderB, conflict⟩⟩

/-! ## Two chains -/

/-- Neither finalized block lies on the other chain. -/
def Conflict (left right : ProofOfStakeChain) : Prop :=
  left.state.finalized.1 ∉ right.chain.map Block.hash ∧
    right.state.finalized.1 ∉ left.chain.map Block.hash

/-- When two chains finalize apart, the validators that pairs of their votes
prove faulty hold a third of the active stake in a tally of one of them. -/
def AccountablySafe (args : GenesisArgs) (left right : ProofOfStakeChain) : Prop :=
  Conflict left right → ∃ quorum, (Tallied args left quorum ∨ Tallied args right quorum) ∧
    activeStake quorum.snapshot quorum.slashed ≤
      3 * faultStake (includedVotes left.chain ++ includedVotes right.chain) quorum

/-! ## Supermajorities -/

variable {weights : Dict Str Int} {votes : List Transaction} {view : Checkpoints}
  {quorum : Quorum} {everyone : Finset Str}

/-- The stake of the offenders in a tally. -/
theorem faultStake_eq_sum
    (covers : ∀ address ∈ quorum.snapshot.keys, address ∈ everyone) :
    faultStake votes quorum = everyone.sum fun address =>
      if address ∈ provenFaulty votes then quorum.unslashedStake address else 0 := by
  rw [faultStake, Dict.sumBy_eq_sum _ _ covers]
  refine Finset.sum_congr rfl fun address _ => ?_
  rw [Dict.quantityAt, Quorum.unslashedStake, Dict.getD]
  cases quorum.snapshot.get? address <;> simp

/-- The voters of a backed quorum hold two thirds of its weights. -/
theorem Quorum.Backed.supermajority
    (backed : quorum.Backed weights votes view)
    (covers : ∀ address ∈ quorum.snapshot.keys, address ∈ everyone) :
    2 * everyone.sum (fun address => weights.getD address 0) ≤
      3 * quorum.voters.sum fun address => weights.getD address 0 := by
  have reached := backed.reached
  rw [Quorum.reached, isSupermajority, Bool.and_eq_true, decide_eq_true_eq, decide_eq_true_eq,
    activeStake_eq_sum covers, votedStake_eq_sum] at reached
  have same : quorum.unslashedStake = fun address => weights.getD address 0 :=
    funext backed.weighed
  rw [same] at reached
  exact reached.2

/-- Two backed quorums over the same weights whose links conflict prove a third
of those weights faulty. -/
theorem faultStake_of_conflict
    {left right : Quorum}
    {leftVotes rightVotes : List Transaction}
    {leftView rightView : Checkpoints}
    (leftBacked : left.Backed weights leftVotes leftView)
    (rightBacked : right.Backed weights rightVotes rightView)
    (conflict : left.link.abstract.Conflicts right.link.abstract) :
    activeStake left.snapshot left.slashed ≤ 3 * faultStake (leftVotes ++ rightVotes) left := by
  let everyone : Finset Str :=
    left.snapshot.keys.toFinset ∪ right.snapshot.keys.toFinset ∪ weights.keys.toFinset
  let weight : Str → Int := fun address => weights.getD address 0
  have coversLeft : ∀ address ∈ left.snapshot.keys, address ∈ everyone := by
    intro address present
    simp [everyone, present]
  have coversRight : ∀ address ∈ right.snapshot.keys, address ∈ everyone := by
    intro address present
    simp [everyone, present]
  have nonneg : ∀ address, 0 ≤ weight address := by
    intro address
    have stake := leftBacked.nonneg address
    rwa [leftBacked.weighed address] at stake
  have outside : ∀ address ∉ everyone, weight address = 0 := by
    intro address absent
    have unknown : address ∉ weights.keys := by
      intro present
      exact absent (by simp [everyone, present])
    rw [Dict.mem_keys_iff, not_exists] at unknown
    simp only [weight, Dict.getD, Option.eq_none_iff_forall_ne_some.mpr unknown]
    rfl
  have shared := Casper.supermajorities_intersect nonneg outside
    (leftBacked.supermajority coversLeft) (rightBacked.supermajority coversRight)
  have faulty : ∀ voter ∈ left.voters ∩ right.voters,
      voter ∈ provenFaulty (leftVotes ++ rightVotes) := by
    intro voter inside
    obtain ⟨insideLeft, insideRight⟩ := Finset.mem_inter.mp inside
    exact verifyVoteFault_of_conflict
      ((leftBacked.voters voter insideLeft).mono (List.subset_append_left _ _))
      ((rightBacked.voters voter insideRight).mono (List.subset_append_right _ _)) conflict
  have counted := Casper.weight_le_of_covered nonneg outside faulty
  have same : left.unslashedStake = weight := funext leftBacked.weighed
  rw [activeStake_eq_sum coversLeft, faultStake_eq_sum coversLeft, same]
  linarith

/-! ## The links of a chain -/

variable {args : GenesisArgs} {chain : ProofOfStakeChain}

/-- The backed supermajority links of a chain. -/
def linksOf (args : GenesisArgs) (weights : Dict Str Int) (chain : ProofOfStakeChain) :
    Set (Casper.Link Str) :=
  { link | ∃ quorum, Tallied args chain quorum ∧
    quorum.Backed weights (includedVotes chain.chain) chain.state.checkpoints ∧
    quorum.link.abstract = link }

namespace ProofOfStakeChain

/-- Recorded checkpoints are blocks of the chain at multiples of the epoch. -/
theorem Reachable.recorded
    (reachable : Reachable args chain)
    {hash : Str}
    {height : Int}
    (found : chain.state.ffgHeight.get? hash = some height) :
    hash ∈ chain.chain.map Block.hash ∧ chain.config.epoch ∣ height ∧ 0 ≤ height := by
  obtain ⟨boundary, position, rfl, here⟩ := reachable.bookkeeping.height_sound hash height found
  exact ⟨List.mem_of_getElem? here, Int.dvd_of_emod_eq_zero boundary, Int.natCast_nonneg position⟩

theorem Reachable.branch
    (reachable : Reachable args chain) :
    Casper.Branch chain.config.epoch (linksOf args weights chain)
      { hash | hash ∈ chain.chain.map Block.hash } := by
  obtain ⟨config, epoch, _⟩ := reachable.config_eq
  refine ⟨by rw [config]; exact epoch, ?_, ?_, ?_, ?_⟩
  · rintro _ ⟨quorum, _, backed, rfl⟩
    exact (reachable.recorded backed.sourceHeight).1
  · rintro _ ⟨quorum, _, backed, rfl⟩
    exact (reachable.recorded backed.targetHeight).1
  · rintro _ ⟨quorum, _, backed, rfl⟩
    exact (reachable.recorded backed.sourceHeight).2.1
  · rintro _ ⟨quorum, _, backed, rfl⟩
    exact (reachable.recorded backed.targetHeight).2.1

/-- The recorded height of genesis is zero, and no other checkpoint has it. -/
theorem Reachable.height_zero_iff
    (reachable : Reachable args chain)
    (distinct : (chain.chain.map Block.hash).Nodup)
    {hash : Str}
    {height : Int}
    (found : chain.state.ffgHeight.get? hash = some height) :
    height = 0 ↔ hash = genesisHash args := by
  obtain ⟨_, _, first⟩ := reachable.config_eq
  have origin : (chain.chain.map Block.hash)[0]? = some (genesisHash args) := by
    rw [List.getElem?_map, first]
    rfl
  obtain ⟨_, position, rfl, here⟩ := reachable.bookkeeping.height_sound hash height found
  constructor
  · intro zero
    obtain rfl : position = 0 := Int.natCast_eq_zero.mp zero
    exact Option.some.inj (here.symm.trans origin)
  · rintro rfl
    have inside := (List.getElem?_eq_some_iff.mp here).1
    rw [(List.getElem?_inj inside distinct).mp (here.trans origin.symm)]
    rfl

/-- Links of the chain lead from genesis to every justified checkpoint. -/
theorem ReachableBy.justified
    (reached : ReachableBy args (WeighedBy weights) chain)
    {checkpoint : Str}
    (justified : checkpoint ∈ chain.state.justified)
    {height : Int}
    (found : chain.state.ffgHeight.get? checkpoint = some height) :
    Casper.Justified (linksOf args weights chain) (genesisHash args) checkpoint height := by
  have reachable := reached.reachable
  -- induction on the height: every link starts lower than it ends
  induction size : height.toNat using Nat.strong_induction_on generalizing checkpoint height with
  | _ _ inductionHypothesis =>
      by_cases first : checkpoint = genesisHash args
      · obtain rfl := (reachable.height_zero_iff reached.distinct found).mpr first
        rw [first]
        exact .root
      · obtain same | ⟨quorum, tallied, backed, target, source⟩ :=
          reached.history.justified checkpoint justified
        · exact absurd same first
        subst target
        obtain rfl : quorum.link.targetHeight = height :=
          Option.some.inj (backed.targetHeight.symm.trans found)
        have low := (reachable.recorded backed.sourceHeight).2.2
        have ordered := backed.ordered
        have earlier := inductionHypothesis quorum.link.sourceHeight.toNat (by omega) source
          backed.sourceHeight rfl
        exact .link quorum.link.abstract earlier ⟨quorum, tallied, backed, rfl⟩

/-- A finalized checkpoint other than genesis is final among the links. -/
theorem ReachableBy.final
    (reached : ReachableBy args (WeighedBy weights) chain)
    (notGenesis : chain.state.finalized.1 ≠ genesisHash args) :
    Casper.Final chain.config.epoch (linksOf args weights chain) chain.state.finalized.1
        chain.state.finalized.2 ∧
      Casper.Justified (linksOf args weights chain) (genesisHash args)
        chain.state.finalized.1 chain.state.finalized.2 ∧
      chain.config.epoch ∣ chain.state.finalized.2 ∧ 0 < chain.state.finalized.2 := by
  have reachable := reached.reachable
  obtain same | ⟨child, tallied, backed, source, sourceHeight, childHeight⟩ :=
    reached.history.finalized
  · exact absurd (congrArg Prod.fst same) notGenesis
  have recorded : chain.state.ffgHeight.get? chain.state.finalized.1 =
      some chain.state.finalized.2 := by
    have found := backed.sourceHeight
    rw [source, sourceHeight] at found
    exact found
  have justified : chain.state.finalized.1 ∈ chain.state.justified :=
    reachable.bookkeeping.finalized_justified
  obtain same | ⟨incoming, talliedIncoming, backedIncoming, target, _⟩ :=
    reached.history.justified _ justified
  · exact absurd same notGenesis
  have targetHeight : incoming.link.targetHeight = chain.state.finalized.2 := by
    have found := backedIncoming.targetHeight
    rw [target] at found
    exact Option.some.inj (found.symm.trans recorded)
  obtain ⟨_, boundary, nonneg⟩ := reachable.recorded recorded
  refine ⟨⟨⟨_, ⟨incoming, talliedIncoming, backedIncoming, rfl⟩, target, targetHeight⟩,
    ⟨_, ⟨child, tallied, backed, rfl⟩, source, sourceHeight, childHeight⟩⟩,
    reached.justified justified recorded, boundary, ?_⟩
  have nonzero : chain.state.finalized.2 ≠ 0 := fun zero =>
    notGenesis ((reachable.height_zero_iff reached.distinct recorded).mp zero)
  omega

/-- Of two runs that count every supermajority over the same weights, without
hash collisions, any two chains are accountably safe. -/
theorem ReachableBy.accountably_safe
    {left right : ProofOfStakeChain}
    (leftReached : ReachableBy args (WeighedBy weights) left)
    (rightReached : ReachableBy args (WeighedBy weights) right) :
    AccountablySafe args left right := by
  rintro ⟨leftApart, rightApart⟩
  have onChain : ∀ {chain : ProofOfStakeChain}, Reachable args chain →
      genesisHash args ∈ chain.chain.map Block.hash := by
    intro chain reachable
    exact List.mem_map.mpr ⟨_, List.mem_of_getElem? reachable.config_eq.2.2, rfl⟩
  have leftNew : left.state.finalized.1 ≠ genesisHash args := by
    intro same
    exact leftApart (same ▸ onChain rightReached.reachable)
  have rightNew : right.state.finalized.1 ≠ genesisHash args := by
    intro same
    exact rightApart (same ▸ onChain leftReached.reachable)
  obtain ⟨leftFinal, leftJustified, leftBoundary, leftPositive⟩ := leftReached.final leftNew
  obtain ⟨rightFinal, rightJustified, rightBoundary, rightPositive⟩ :=
    rightReached.final rightNew
  have epochs : left.config.epoch = right.config.epoch := by
    rw [leftReached.reachable.config_eq.1, rightReached.reachable.config_eq.1]
  -- the chain that finalizes lower conflicts with the way to the other's checkpoint
  have conflicting : ∃ first ∈ linksOf args weights left, ∃ second ∈ linksOf args weights right,
      first.Conflicts second := by
    rcases le_total left.state.finalized.2 right.state.finalized.2 with higher | higher
    · exact leftFinal.exists_conflict (epochs ▸ rightReached.reachable.branch) leftBoundary
        leftPositive rightJustified higher leftApart
    · obtain ⟨second, insideSecond, first, insideFirst, conflict⟩ :=
        rightFinal.exists_conflict (epochs ▸ leftReached.reachable.branch) rightBoundary
          rightPositive leftJustified higher rightApart
      exact ⟨first, insideFirst, second, insideSecond, conflict.symm⟩
  obtain ⟨_, ⟨first, talliedFirst, backedFirst, rfl⟩, _, ⟨second, _, backedSecond, rfl⟩,
    conflict⟩ := conflicting
  exact ⟨first, .inl talliedFirst, faultStake_of_conflict backedFirst backedSecond conflict⟩

end ProofOfStakeChain

/-! ## Steady stakes -/

/-- A block with a new hash that slashes nobody, on a chain whose recorded
snapshots all are the given weights. -/
def isSteady (weights : Dict Str Int) (chain : ProofOfStakeChain) (block : Block) : Bool :=
  block.hash ∉ chain.chain.map Block.hash ∧
    (∀ snapshot ∈ (applyBlockPre chain.config block chain.state).ffgStake.values,
      snapshot = weights) ∧
    chain.state.slashedAddrs = ∅ ∧ ∀ tx ∈ block.transactions, tx.recipient ≠ SLASH_SENTINEL

/-- Steady stakes are what every supermajority is counted over. -/
theorem weighedBy_of_isSteady
    {block : Block}
    (steady : isSteady weights chain block = true) :
    WeighedBy weights chain block := by
  rw [isSteady, decide_eq_true_eq] at steady
  obtain ⟨fresh, uniform, clean, noSlash⟩ := steady
  refine ⟨fresh, ?_⟩
  rintro _ ⟨position, ran, named, parsed, reached⟩ address
  rename_i earlier later tx state link
  let invariant : LedgerState → Prop := fun state =>
    state.ffgStake = (applyBlockPre chain.config block chain.state).ffgStake ∧
      state.slashedAddrs = ∅
  have kept : invariant state := by
    refine applyTxs_invariant invariant ?_ ⟨rfl, ?_⟩ ran
    · rintro other inside before after ⟨stakes, unslashed⟩ _ _ applied
      refine ⟨applied.ffgStake_eq.trans stakes, ?_⟩
      have present : other ∈ block.transactions := by
        rw [position]
        exact List.mem_append_left _ inside
      rw [applied.slashedAddrs_eq (noSlash other present), unslashed]
    · rw [applyBlockPre_slashedAddrs, clean]
  obtain ⟨stakes, unslashed⟩ := kept
  -- an unknown source has no active stake, and a known one the given weights
  have nobody : ((recordVote state tx.sender link).quorum link).slashed = ∅ := unslashed
  have snapshot : ((recordVote state tx.sender link).quorum link).snapshot =
      state.ffgStake.getD link.source Dict.empty := rfl
  have known : state.ffgStake.getD link.source Dict.empty = weights := by
    cases found : state.ffgStake.get? link.source with
    | none =>
        have empty : state.ffgStake.getD link.source Dict.empty = Dict.empty := by
          rw [Dict.getD, found]
          rfl
        rw [Quorum.reached, snapshot, empty, isSupermajority, Bool.and_eq_true,
          decide_eq_true_eq] at reached
        exact absurd reached.1 (lt_irrefl 0)
    | some recorded =>
        rw [Dict.getD_eq_of_get? found]
        rw [stakes] at found
        exact uniform recorded ((Dict.mem_values_iff _ _).mpr ⟨_, found⟩)
  rw [Quorum.unslashedStake, nobody, if_neg (Finset.notMem_empty address), snapshot, known]

/-- A tallied supermajority has active stake. -/
theorem Tallied.active
    (tallied : Tallied args chain quorum) :
    0 < activeStake quorum.snapshot quorum.slashed := by
  induction tallied with
  | earlier _ _ inductionHypothesis => exact inductionHypothesis
  | here _ _ counted =>
      obtain ⟨_, _, _, _, reached⟩ := counted
      rw [Quorum.reached, isSupermajority, Bool.and_eq_true, decide_eq_true_eq] at reached
      exact reached.1

/-- Where no pair of votes proves a fault, chains that finalize apart are not
accountably safe. -/
theorem not_accountablySafe
    {left right : ProofOfStakeChain}
    (apart : Conflict left right)
    (faultless : provenFaulty (includedVotes left.chain ++ includedVotes right.chain) = []) :
    ¬AccountablySafe args left right := by
  intro safe
  obtain ⟨quorum, tallied, share⟩ := safe apart
  have active := tallied.elim Tallied.active Tallied.active
  have blameless :
      faultStake (includedVotes left.chain ++ includedVotes right.chain) quorum = 0 := by
    simp only [faultStake, faultless, List.not_mem_nil, if_false, Dict.sumBy]
    simp
  omega

end

/-! ## Validators that are replaced, and one that stays -/

namespace AccountabilitySample

open ProofOfStakeChain

attribute [local instance] Symbolic.primitives

def keyring : List Wallet := [Symbolic.wallet 1, Symbolic.wallet 2, Symbolic.wallet 3]

/-- One validator, and two accounts that can replace it. -/
def args : GenesisArgs where
  allocations :=
    ((Dict.empty.set (Symbolic.wallet 1).address (MAX_SUPPLY_UNITS - 2000)).set
      (Symbolic.wallet 2).address 1000).set (Symbolic.wallet 3).address 1000
  initialStakes := Dict.empty.set (Symbolic.wallet 1).address 100
  epoch := 1

/-- The stakes as long as nobody moves them. -/
def weights : Dict Str Int := args.initialStakes

/-- The only validator votes for its first two blocks. -/
def honestRounds : List (List Draft) := [[], [.vote 0 0 1 0], [.vote 0 1 2 0]]

/-- It votes the same way for two other blocks. -/
def doubleRounds : List (List Draft) := [[.pay 0 1 1 0], [.vote 0 0 1 0], [.vote 0 1 2 0]]

theorem honestPlayed :
    succeeded (playWhen (isSteady weights) keyring args honestRounds) = true := by
  decide +kernel

theorem doublePlayed :
    succeeded (playWhen (isSteady weights) keyring args doubleRounds) = true := by
  decide +kernel

@[irreducible] def honest : ProofOfStakeChain :=
  outcome (playWhen (isSteady weights) keyring args honestRounds) honestPlayed

@[irreducible] def double : ProofOfStakeChain :=
  outcome (playWhen (isSteady weights) keyring args doubleRounds) doublePlayed

/-- With stakes that stay, the validator that finalized apart is proven faulty. -/
theorem accountably_safe_steady :
    Conflict honest double ∧ AccountablySafe args honest double := by
  have honestReached : ReachableBy args (WeighedBy weights) honest := by
    unfold honest
    exact (playWhen_reachableBy (eq_ok_outcome _ honestPlayed)).mono
      fun _ _ => weighedBy_of_isSteady
  have doubleReached : ReachableBy args (WeighedBy weights) double := by
    unfold double
    exact (playWhen_reachableBy (eq_ok_outcome _ doublePlayed)).mono
      fun _ _ => weighedBy_of_isSteady
  have apart : Conflict honest double := by
    unfold Conflict
    decide +kernel
  exact ⟨apart, honestReached.accountably_safe doubleReached⟩

/-- The first validator hands over to the second, which finalizes height two
with it. -/
def leftRounds : List (List Draft) :=
  [[.stake 1 100 0, .unstake 0 100 0], [], [.vote 0 0 2 0], [.vote 1 2 3 0]]

/-- The first validator hands over to the third, which finalizes height three
with it. -/
def rightRounds : List (List Draft) :=
  [[.stake 2 100 0, .unstake 0 100 0], [], [], [.vote 0 0 3 0], [.vote 2 3 4 0]]

theorem leftPlayed : succeeded (play keyring args leftRounds) = true := by decide +kernel

theorem rightPlayed : succeeded (play keyring args rightRounds) = true := by decide +kernel

@[irreducible] def left : ProofOfStakeChain := outcome (play keyring args leftRounds) leftPlayed

@[irreducible] def right : ProofOfStakeChain :=
  outcome (play keyring args rightRounds) rightPlayed

/-- Both chains finalize, apart, and no pair of their votes proves a fault. -/
theorem replaced_validators_finalize_apart :
    ¬∀ left right, Reachable args left → Reachable args right →
      AccountablySafe args left right := by
  intro claimed
  have leftReachable : Reachable args left := by
    unfold left
    exact play_reachable (eq_ok_outcome _ leftPlayed)
  have rightReachable : Reachable args right := by
    unfold right
    exact play_reachable (eq_ok_outcome _ rightPlayed)
  -- both facts in one go, because each of them replays the two chains
  have checked : Conflict left right ∧
      provenFaulty (includedVotes left.chain ++ includedVotes right.chain) = [] := by
    unfold Conflict
    decide +kernel
  obtain ⟨apart, faultless⟩ := checked
  exact not_accountablySafe apart faultless (claimed left right leftReachable rightReachable)

end AccountabilitySample

end Mindees
