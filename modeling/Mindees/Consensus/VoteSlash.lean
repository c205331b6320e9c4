import Mindees.Core.Reader
import Mindees.Consensus.Produce
import Mindees.Consensus.SlashHistory

/-!
# One vote fault, one slash

The identifier of a vote fault hashes the two votes with the texts of their
signatures, and one signature has several texts.  A fault is punished once as
long as nobody reports it again under other texts.
-/

namespace Mindees

open Library

section

variable [Primitives]

/-! ## The votes that a slash carries -/

/-- The two votes that a slash carries. -/
def carriedVotes (tx : Transaction) : Except Error (Transaction × Transaction) := do
  rejectIf (tx.recipient ≠ SLASH_SENTINEL) "not a slash"
  let data ← loadJson tx.evidence
  rejectIf (((Json.field data Key.kind).getD .null).eq (.str Key.vote) = false) "not a vote fault"
  let a ← require (Json.field data Key.a) .keyError
  let voteA ← decodeTx a
  let b ← require (Json.field data Key.b) .keyError
  let voteB ← decodeTx b
  pure (voteA, voteB)

/-- A slash carries these votes. -/
def CarriesVotes (tx voteA voteB : Transaction) : Prop := carriedVotes tx = .ok (voteA, voteB)

instance (tx voteA voteB : Transaction) : Decidable (CarriesVotes tx voteA voteB) :=
  inferInstanceAs (Decidable (carriedVotes tx = .ok (voteA, voteB)))

theorem CarriesVotes.named
    {tx voteA voteB : Transaction}
    (carries : CarriesVotes tx voteA voteB) :
    tx.recipient = SLASH_SENTINEL := by
  simp only [CarriesVotes, carriedVotes, rejectIf, bind_eq_ok, raiseIf_eq_ok, exists_unit,
    not_not] at carries
  exact carries.1

/-- A relation between two pairs of votes, in either order. -/
def Paired (relation : Transaction → Transaction → Prop) (voteA voteB otherA otherB : Transaction) :
    Prop :=
  (relation voteA otherA ∧ relation voteB otherB) ∨ (relation voteA otherB ∧ relation voteB otherA)

/-- Two votes sign the same bytes. -/
def SamePayload (vote other : Transaction) : Prop := vote.signingPayload = other.signingPayload

/-- Two votes sign the same bytes with signatures of the same text. -/
def SameText (vote other : Transaction) : Prop :=
  SamePayload vote other ∧ vote.signature = other.signature

/-- Two slashes report the same fault: their votes sign the same bytes. -/
def SameFault (old tx : Transaction) : Prop :=
  ∃ voteA voteB otherA otherB, CarriesVotes old voteA voteB ∧ CarriesVotes tx otherA otherB ∧
    Paired SamePayload voteA voteB otherA otherB

/-- A slash reports the fault of another with signatures of other texts. -/
def Reencodes (old tx : Transaction) : Prop :=
  ∃ voteA voteB otherA otherB, CarriesVotes old voteA voteB ∧ CarriesVotes tx otherA otherB ∧
    Paired SamePayload voteA voteB otherA otherB ∧ ¬Paired SameText voteA voteB otherA otherB

theorem Reencodes.sameFault
    {old tx : Transaction}
    (reencodes : Reencodes old tx) :
    SameFault old tx := by
  obtain ⟨voteA, voteB, otherA, otherB, carried, others, payloads, _⟩ := reencodes
  exact ⟨voteA, voteB, otherA, otherB, carried, others, payloads⟩

/-- The signed bytes and the text of the signature determine a vote. -/
theorem SameText.eq
    {vote other : Transaction}
    (same : SameText vote other) :
    vote = other := by
  have fields := Transaction.signingPayload_inj same.1
  rw [← same.2] at fields
  exact fields

/-! ## The identifier of a fault -/

/-- The identifier of the offense that two votes prove. -/
def voteOffense (voteA voteB : Transaction) : Offense :=
  .vote (hex (sha256 (canonical (.arr (sortedPair voteA.txid voteB.txid)))))

omit [Primitives] in
theorem sortedPair_comm (left right : Str) : sortedPair left right = sortedPair right left := by
  unfold sortedPair
  split_ifs with first second second
  · exact absurd first (lt_asymm second)
  · rfl
  · rfl
  · rw [le_antisymm (not_lt.mp first) (not_lt.mp second)]

/-- The same votes in either order have one identifier. -/
theorem voteOffense_eq_of_paired
    {voteA voteB otherA otherB : Transaction}
    (same : Paired SameText voteA voteB otherA otherB) :
    voteOffense voteA voteB = voteOffense otherA otherB := by
  rcases same with ⟨first, second⟩ | ⟨first, second⟩
  · rw [first.eq, second.eq]
  · rw [first.eq, second.eq, voteOffense, sortedPair_comm, voteOffense]

/-- What a verified fault reports. -/
theorem verifyVoteFault_result
    {voteA voteB : Transaction}
    {fault : Str × Str}
    (verified : verifyVoteFault voteA voteB = .ok fault) :
    Offense.vote fault.2 = voteOffense voteA voteB := by
  simp only [verifyVoteFault, bind_eq_ok, pure_eq_ok] at verified
  obtain ⟨_, _, _, _, _, _, _, _, _, _, _, _, _, _, _, _, _, _, rfl⟩ := verified
  rfl

/-- A slash that carries votes proves no offense but theirs. -/
theorem CarriesVotes.offenseOf_eq
    {tx voteA voteB : Transaction}
    (carries : CarriesVotes tx voteA voteB)
    {offense : Offense}
    (proven : offenseOf tx = some offense) :
    offense = voteOffense voteA voteB := by
  rw [offenseOf, if_pos carries.named] at proven
  cases proof : slashOffense tx.evidence with
  | error error =>
      rw [proof] at proven
      cases proven
  | ok result =>
      rw [proof] at proven
      obtain rfl := Option.some.inj proven
      simp only [CarriesVotes, carriedVotes, rejectIf, bind_eq_ok, raiseIf_eq_ok, exists_unit,
        require_eq_ok, pure_eq_ok, Bool.not_eq_false, Prod.mk.injEq] at carries
      obtain ⟨_, data, loaded, kind, a, foundA, _, decodedA, b, foundB, _, decodedB, rfl, rfl⟩ :=
        carries
      simp only [slashOffense, loaded, kind, foundA, foundB, decodedA, decodedB, require_eq_ok,
        bind_eq_ok, pure_eq_ok, if_true, Except.ok.injEq, Option.some.injEq,
        exists_eq_left', Prod.exists] at proof
      obtain ⟨offender, offenseId, verified, rfl⟩ := proof
      exact verifyVoteFault_result verified

/-! ## Histories -/

/-- No transaction of a block reports the fault of an earlier slash of the chain
or the block with signatures of other texts. -/
def SpelledAsBefore (chain : ProofOfStakeChain) (block : Block) : Prop :=
  ∀ earlier tx later, block.transactions = earlier ++ tx :: later →
    ∀ old ∈ chain.history ++ earlier, ¬Reencodes old tx

/-- No slash of the history repeats the fault of an earlier one. -/
def OneSlashPerFault (history : List Transaction) : Prop :=
  history.Pairwise fun old tx => ¬SameFault old tx

omit [Primitives] in
/-- Appending a block to a history keeps a relation between earlier and later
transactions exactly when the block keeps it. -/
theorem pairwise_append_iff
    (relation : Transaction → Transaction → Prop)
    (history transactions : List Transaction) :
    (history ++ transactions).Pairwise relation ↔
      history.Pairwise relation ∧
        ∀ earlier tx later, transactions = earlier ++ tx :: later →
          ∀ old ∈ history ++ earlier, relation old tx := by
  induction transactions generalizing history with
  | nil => simp
  | cons first rest inductionHypothesis =>
      have moved : history ++ first :: rest = history ++ [first] ++ rest := by simp
      rw [moved, inductionHypothesis, List.pairwise_append]
      constructor
      · rintro ⟨⟨old, _, new⟩, others⟩
        refine ⟨old, fun earlier tx later position other inside => ?_⟩
        cases earlier with
        | nil =>
            obtain ⟨rfl, rfl⟩ := List.cons.inj position
            rw [List.append_nil] at inside
            exact new other inside _ List.mem_cons_self
        | cons head earlier =>
            obtain ⟨rfl, tail⟩ := List.cons.inj position
            refine others earlier tx later tail other ?_
            rwa [List.append_assoc, List.singleton_append]
      · rintro ⟨old, others⟩
        refine ⟨⟨old, List.pairwise_singleton _ _, fun other inside tx last => ?_⟩, ?_⟩
        · obtain rfl := List.mem_singleton.mp last
          exact others [] tx rest rfl other (by simpa using inside)
        · intro earlier tx later position other inside
          refine others (first :: earlier) tx later (by rw [position]; rfl) other ?_
          rwa [List.append_assoc, List.singleton_append] at inside

namespace ProofOfStakeChain

variable {args : GenesisArgs} {chain : ProofOfStakeChain}

/-- Without re-encoded reports a history repeats no fault: the record has the
identifier of every fault that was punished. -/
theorem Reachable.oneSlashPerFault
    (reachable : Reachable args chain)
    (spelled : chain.history.Pairwise fun old tx => ¬Reencodes old tx) :
    OneSlashPerFault chain.history := by
  have record := reachable.slashRecord
  have distinct := List.pairwise_filterMap.mp record.distinct
  refine (spelled.and distinct).imp_of_mem ?_
  rintro old tx oldInside inside ⟨asBefore, different⟩ sameFault
  obtain ⟨voteA, voteB, otherA, otherB, carried, others, payloads⟩ := sameFault
  have texts : Paired SameText voteA voteB otherA otherB := by
    by_contra other
    exact asBefore ⟨voteA, voteB, otherA, otherB, carried, others, payloads, other⟩
  obtain ⟨offense, proven⟩ :=
    Option.isSome_iff_exists.mp (record.convicting old oldInside carried.named)
  obtain ⟨again, provenAgain⟩ := Option.isSome_iff_exists.mp (record.convicting tx inside others.named)
  refine different offense proven again provenAgain ?_
  rw [carried.offenseOf_eq proven, others.offenseOf_eq provenAgain]
  exact voteOffense_eq_of_paired texts

theorem ReachableBy.spelledAsBefore
    (reached : ReachableBy args SpelledAsBefore chain) :
    chain.history.Pairwise fun old tx => ¬Reencodes old tx := by
  induction reached with
  | genesis initialised =>
      rw [history_init initialised]
      exact .nil
  | block _ spelled submitted inductionHypothesis =>
      rw [history_submitBlock submitted, pairwise_append_iff]
      exact ⟨inductionHypothesis, spelled⟩

/-- One slash per vote fault: the history of a run repeats no fault exactly when
no block of the run reports a fault again with signatures of other texts. -/
theorem Reachable.oneSlashPerFault_iff
    (reachable : Reachable args chain) :
    OneSlashPerFault chain.history ↔ ReachableBy args SpelledAsBefore chain := by
  constructor
  · intro once
    induction reachable with
    | genesis initialised => exact .genesis initialised
    | @block before after block _ submitted inductionHypothesis =>
        rw [OneSlashPerFault, history_submitBlock submitted, pairwise_append_iff] at once
        refine .block (inductionHypothesis once.1) ?_ submitted
        intro earlier tx later position old inside reencodes
        exact once.2 earlier tx later position old inside reencodes.sameFault
  · intro reached
    exact reachable.oneSlashPerFault reached.spelledAsBefore

end ProofOfStakeChain

end

/-! ## One fault, two slashes -/

namespace VoteSlashSample

open ProofOfStakeChain

attribute [local instance] Symbolic.reading

/-- The reporter and the offender. -/
def keyring : List Wallet := [Symbolic.wallet 1, Symbolic.wallet 2]

def args : GenesisArgs where
  allocations :=
    (Dict.empty.set (Symbolic.wallet 1).address (MAX_SUPPLY_UNITS - 1000)).set
      (Symbolic.wallet 2).address 1000
  initialStakes :=
    (Dict.empty.set (Symbolic.wallet 1).address 500).set (Symbolic.wallet 2).address 500
  treasuryAddress := some (Symbolic.wallet 3).address

/-- A vote of the offender for one of two checkpoints at one height. -/
def vote (target : Char) (nonce : Int) : Except Error Transaction :=
  voteTx (Symbolic.wallet 2) ⟨['g'], 0, [target], 1⟩ nonce 0 0

/-- The same signature with a blank behind it. -/
def respelled (tx : Transaction) : Transaction := { tx with signature := tx.signature ++ [' '] }

/-- The first and the last transaction of a history of three report two votes,
the last with a blank in one signature. -/
def reportsTwice (history : List Transaction) (first second : Transaction) : Bool :=
  match history with
  | [old, _, tx] =>
      decide (CarriesVotes old first second) && decide (CarriesVotes tx (respelled first) second)
  | _ => false

/-- The fault is reported, the offender stakes again, and the fault is reported
again. -/
def run : Except Error (ProofOfStakeChain × Transaction × Transaction) := do
  let first ← vote 'x' 0
  let second ← vote 'y' 1
  let chain ← play keyring args
    [[.slash 0 first second 0], [.stake 1 100 0], [.slash 0 (respelled first) second 0]]
  raiseIf (reportsTwice chain.history first second = false) Error.valueError
  pure (chain, first, second)

theorem ran : succeeded run = true := by decide +kernel

/-- The fault is reported once. -/
def runOnce : Except Error ProofOfStakeChain := do
  let first ← vote 'x' 0
  let second ← vote 'y' 1
  let chain ← play keyring args [[.slash 0 first second 0]]
  raiseIf (chain.history.length ≠ 1) Error.valueError
  pure chain

theorem ranOnce : succeeded runOnce = true := by decide +kernel

/-- One report repeats nothing, and the run meets the condition. -/
theorem oneSlashPerFault_iff_sample :
    ∃ chain, runOnce = .ok chain ∧ ReachableBy args SpelledAsBefore chain := by
  obtain ⟨chain, played⟩ := (succeeded_iff runOnce).mp ranOnce
  refine ⟨chain, played, ?_⟩
  simp only [runOnce, bind_eq_ok, raiseIf_eq_ok, exists_unit, not_not, pure_eq_ok] at played
  obtain ⟨first, _, second, _, chain, played, short, rfl⟩ := played
  have once : OneSlashPerFault chain.history := by
    obtain ⟨tx, history⟩ := List.length_eq_one_iff.mp short
    rw [history]
    exact List.pairwise_singleton _ _
  exact (play_reachable played).oneSlashPerFault_iff.mp once

/-- The offender loses its stake a second time for the same two votes. -/
theorem vote_fault_slashed_twice :
    ¬∀ (args : GenesisArgs) (chain : ProofOfStakeChain),
      Reachable args chain → OneSlashPerFault chain.history := by
  intro claim
  obtain ⟨result, played⟩ := (succeeded_iff run).mp ran
  simp only [run, bind_eq_ok, raiseIf_eq_ok, exists_unit, Bool.not_eq_false] at played
  obtain ⟨first, _, second, _, chain, played, reported, _⟩ := played
  have once := claim args chain (play_reachable played)
  unfold reportsTwice at reported
  split at reported
  · rename_i old stake tx history
    rw [Bool.and_eq_true, decide_eq_true_eq, decide_eq_true_eq] at reported
    rw [history] at once
    have apart : ¬SameFault old tx := (List.pairwise_cons.mp once).1 tx (by simp)
    exact apart ⟨first, second, respelled first, second, reported.1, reported.2, .inl ⟨rfl, rfl⟩⟩
  · cases reported

end VoteSlashSample

end Mindees
