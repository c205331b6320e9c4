import Mindees.Consensus.LockedFees
import Mindees.Node.GenesisFile
import Mindees.Node.Keystore

/-!
# The genesis split

The supply goes to the market and to the founder, who may stake a part and may be bound
to a vesting schedule.  The command that writes such a genesis accepts some schedules
that no node can load.
-/

namespace Mindees

open Library ProofOfStakeChain

namespace Tokenomics

/-- Whole coins for the market. -/
def MARKET_SUPPLY : Int := 750000

/-- Whole coins for the founder. -/
def FOUNDER_SUPPLY : Int := 250000

/-- The balances of the split. -/
def split (market founder : Str) : Dict Str Int :=
  (Dict.empty.set market (MARKET_SUPPLY * COIN)).set founder (FOUNDER_SUPPLY * COIN)

/-- The stake of the founder, if there is one. -/
def stakeOf (founder : Str) (coins : Int) : Dict Str Int :=
  if coins = 0 then Dict.empty else Dict.empty.set founder (coins * COIN)

/-- The schedule of the founder, if there is one. -/
def scheduleOf (founder : Str) (cliff duration : Int) : Dict Str (List Int) :=
  if 0 < duration then
    Dict.empty.set founder [FOUNDER_SUPPLY * COIN, 0, cliff, duration]
  else Dict.empty

/-- Allocations, initial stakes and vesting of the split. -/
def buildGenesis (marketAddr founderAddr : Str) (founderStakeCoins vestCliff vestDuration : Int) :
    Except Error (Dict Str Int × Dict Str Int × Dict Str (List Int)) := do
  raiseIf (marketAddr = founderAddr) .valueError
  raiseIf (¬(0 ≤ founderStakeCoins ∧ founderStakeCoins ≤ FOUNDER_SUPPLY)) .valueError
  let allocations := split marketAddr founderAddr
  raiseIf (total allocations ≠ MAX_SUPPLY_UNITS) .valueError
  pure (allocations, stakeOf founderAddr founderStakeCoins,
    scheduleOf founderAddr vestCliff vestDuration)

/-- The options of the command; an address that is missing is generated. -/
structure Options where
  market : Option Str := none
  founder : Option Str := none
  founderStake : Int := 50000
  vestCliff : Int := 0
  vestDuration : Int := 0
  treasury : Option Str := none
  unbondingBlocks : Int := 100
  timestamp : Int := 1700000000
  /-- What `secrets.randbits` gives. -/
  draws : List Nat

/-- The genesis of the split among some addresses. -/
def Options.genesis (options : Options) (market founder treasury : Str) : GenesisArgs where
  allocations := split market founder
  initialStakes := stakeOf founder options.founderStake
  timestamp := options.timestamp
  vesting := scheduleOf founder options.vestCliff options.vestDuration
  unbondingBlocks := options.unbondingBlocks
  treasuryAddress := some treasury

section

variable [Primitives] [Keys] [Digits]

/-- The given address, or that of a fresh secret. -/
def givenOrFresh (given : Option Str) (draws : List Nat) : Except Exit (Str × List Nat) :=
  match given with
  | some address => .ok (address, draws)
  | none => do
      let (secret, draws) ← require (newSecret draws) (.raised .diverges)
      let wallet ← walletOf secret
      pure (wallet.address, draws)

/-- Write the genesis of the split into a directory, and print its addresses. -/
def initialise (directory : Option BlockStore) (options : Options) :
    Except Exit (BlockStore × Str × Str × Str) := do
  let (market, draws) ← givenOrFresh options.market options.draws
  let (founder, draws) ← givenOrFresh options.founder draws
  let (treasury, _) ← givenOrFresh options.treasury draws
  let (allocations, initialStakes, vesting) ← Exit.call (buildGenesis market founder
    options.founderStake options.vestCliff options.vestDuration)
  let disk ← Exit.call (BlockStore.writeGenesis directory
    { allocations, initialStakes, timestamp := options.timestamp, vesting,
      unbondingBlocks := options.unbondingBlocks, treasuryAddress := some treasury })
  pure (disk, market, founder, treasury)

end

/-! ## The parameters that are read back -/

section

variable {market founder : Str}

theorem entries_split
    (apart : market ≠ founder) :
    (split market founder).entries =
      [(market, MARKET_SUPPLY * COIN), (founder, FOUNDER_SUPPLY * COIN)] := by
  show Dict.put [(market, MARKET_SUPPLY * COIN)] founder _ = _
  rw [Dict.put, if_neg apart]
  rfl

theorem getD_split
    (market founder address : Str) :
    (split market founder).getD address 0 =
      if founder = address then FOUNDER_SUPPLY * COIN
      else if market = address then MARKET_SUPPLY * COIN else 0 := by
  rw [split, Dict.getD_set, Dict.getD_set, Dict.getD_empty]

theorem checkAllocations_sortDict (allocations : Dict Str Int) :
    checkAllocations (sortDict allocations) = checkAllocations allocations := by
  have perm : (sortDict allocations).entries.Perm allocations.entries :=
    List.perm_insertionSort _ _
  have values : (sortDict allocations).values.Perm allocations.values := perm.map _
  have sum : total (sortDict allocations) = total allocations := (perm.map _).sum_eq
  rw [checkAllocations, checkAllocations, sum, values.all_eq, values.any_eq]

theorem checkAllocations_split
    (apart : market ≠ founder) :
    checkAllocations (split market founder) = .ok () := by
  have values : (split market founder).values =
      [MARKET_SUPPLY * COIN, FOUNDER_SUPPLY * COIN] := by
    rw [Dict.values, entries_split apart]
    rfl
  have sum : total (split market founder) = MAX_SUPPLY_UNITS := by
    rw [total, Dict.sumBy, entries_split apart]
    show MARKET_SUPPLY * COIN + (FOUNDER_SUPPLY * COIN + 0) = MAX_SUPPLY_UNITS
    decide
  simp only [checkAllocations, rejectIf, bind_eq_ok, raiseIf_eq_ok, exists_unit, values, sum]
  decide

/-- Staking a part of what the founder has. -/
theorem stake_split
    (market founder : Str)
    {coins : Int}
    (nonneg : 0 ≤ coins)
    (bounded : coins ≤ FOUNDER_SUPPLY) :
    ∃ balances stakes,
      (sortDict (stakeOf founder coins)).entries.foldlM addInitialStake
        (sortDict (split market founder), Dict.empty) = .ok (balances, stakes) ∧
      (∀ address, balances.getD address 0 = (split market founder).getD address 0 -
        if founder = address then coins * COIN else 0) ∧
      ∀ address, stakes.getD address 0 = if founder = address then coins * COIN else 0 := by
  have unit : (0 : Int) < COIN := by decide
  have lookup : ∀ address, (sortDict (split market founder)).getD address 0 =
      (split market founder).getD address 0 := fun address => by
    rw [Dict.getD, get?_sortDict, Dict.getD]
  by_cases nothing : coins = 0
  · subst nothing
    refine ⟨_, _, rfl, fun address => ?_, fun address => ?_⟩
    · rw [lookup, zero_mul, ite_self, sub_zero]
    · rw [Dict.getD_empty, zero_mul, ite_self]
  · have positive : 0 < coins * COIN := mul_pos (by omega) unit
    have covered : coins * COIN ≤ FOUNDER_SUPPLY * COIN := mul_le_mul_of_nonneg_right bounded unit.le
    have held : (sortDict (split market founder)).getD founder 0 = FOUNDER_SUPPLY * COIN := by
      rw [lookup, getD_split, if_pos rfl]
    have known : (sortDict (split market founder)).contains founder = true :=
      contains_of_funded (by rw [held]; decide)
    refine ⟨credit (sortDict (split market founder)) founder (-(coins * COIN)),
      credit Dict.empty founder (coins * COIN), ?_, fun address => ?_, fun address => ?_⟩
    · rw [stakeOf, if_neg nothing]
      refine (foldlM_cons_eq_ok _ _ _ _).mpr ⟨_, ?_, rfl⟩
      simp only [addInitialStake, rejectIf, bind_eq_ok, raiseIf_eq_ok, exists_unit, pure_eq_ok]
      refine ⟨?_, ?_, _, (addItem_eq_ok _ _ _ _).mpr ⟨known, rfl⟩, rfl⟩
      · rw [not_or, Bool.not_eq_false, isUnits_iff]
        exact ⟨positive.le, positive.ne'⟩
      · rw [held]
        exact not_lt.mpr covered
    · rw [getD_credit, lookup]
      split_ifs <;> omega
    · rw [getD_credit, Dict.getD_empty, zero_add]

end

/-- The schedule is refused exactly when its cliff is negative. -/
theorem check_scheduleOf
    {founder : Str}
    {balances stakes : Dict Str Int}
    (held : balances.getD founder 0 + stakes.getD founder 0 = FOUNDER_SUPPLY * COIN)
    (cliff duration : Int) :
    (sortDict (scheduleOf founder cliff duration)).entries.foldlM (checkGrant balances stakes) () =
        .ok () ↔
      (0 < duration → 0 ≤ cliff) := by
  by_cases running : 0 < duration
  · have entries : (sortDict (scheduleOf founder cliff duration)).entries =
        [(founder, [FOUNDER_SUPPLY * COIN, 0, cliff, duration])] := by
      rw [scheduleOf, if_pos running]
      rfl
    rw [entries]
    constructor
    · intro ran _
      obtain ⟨valid, _⟩ := foldlM_checkGrant ran _ List.mem_cons_self
      exact valid.cliff
    · intro sound
      refine (foldlM_cons_eq_ok _ _ _ _).mpr ⟨(), ?_, rfl⟩
      simp only [checkGrant, rejectIf, bind_eq_ok, raiseIf_eq_ok, exists_unit]
      refine ⟨?_, ?_⟩
      · rw [not_or, not_not, Bool.not_eq_false]
        refine ⟨rfl, ?_⟩
        simp only [List.all_cons, List.all_nil, Bool.and_true, Bool.and_eq_true, isUnits_iff]
        exact ⟨by decide, le_rfl, sound running, running.le⟩
      · rw [held]
        exact lt_irrefl _
  · rw [scheduleOf, if_neg running]
    exact ⟨fun _ positive => absurd positive running, fun _ => rfl⟩

/-- The grant of the founder. -/
theorem get?_scheduleOf
    (founder address : Str)
    (cliff duration : Int) :
    ((sortDict (scheduleOf founder cliff duration)).mapValues toGrant).get? address =
      if 0 < duration ∧ founder = address then some ⟨FOUNDER_SUPPLY * COIN, 0, cliff, duration⟩
      else none := by
  rw [Dict.get?_mapValues, get?_sortDict, scheduleOf]
  by_cases running : 0 < duration
  · rw [if_pos running, Dict.get?_set, Dict.get?_empty]
    simp only [running, true_and]
    split_ifs <;> rfl
  · rw [if_neg running, if_neg fun both => running both.1]
    rfl

section

variable [Primitives]

/-- A fresh store loads what its parameters make. -/
theorem load_writeGenesis
    (reads : ∀ value : Json, value.Readable → Primitives.jsonLoads (jsonDumps value) = some value)
    {args : GenesisArgs}
    {disk : BlockStore}
    (written : BlockStore.writeGenesis none args = .ok disk) :
    disk.genesisParams = .ok args.keySorted ∧ disk.load = init args.keySorted := by
  have file : disk = { genesis := jsonDumps (genesisPayload args).sorted, blocks := none } := by
    simp only [BlockStore.writeGenesis, rejectIf, bind_eq_ok, pure_eq_ok] at written
    obtain ⟨_, _, same⟩ := written
    exact same.symm
  have params : disk.genesisParams = .ok args.keySorted := by
    refine genesisParams_writeGenesis written ?_
    rw [file]
    exact reads _ (readable_genesisPayload args).sorted
  refine ⟨params, ?_⟩
  have nothing : disk.committedLines = [] := by
    rw [file]
    rfl
  rw [BlockStore.load, params, nothing]
  exact bind_pure (init args.keySorted)

variable {options : Options} {market founder treasury : Str}

/-- What a chain of the split starts with. -/
structure Starts
    (options : Options)
    (market founder : Str)
    (chain : ProofOfStakeChain) : Prop where
  balance : ∀ address, chain.balanceOf address =
    if founder = address then (FOUNDER_SUPPLY - options.founderStake) * COIN
    else if market = address then MARKET_SUPPLY * COIN else 0
  stake : ∀ address, chain.stakeOf address =
    if founder = address then options.founderStake * COIN else 0
  vesting : ∀ address, chain.config.vesting.get? address =
    if 0 < options.vestDuration ∧ founder = address then
      some ⟨FOUNDER_SUPPLY * COIN, 0, options.vestCliff, options.vestDuration⟩
    else none

/-- The constructor takes the parameters unless the schedule has a negative cliff. -/
theorem exists_init_iff
    (apart : market ≠ founder)
    (nonneg : 0 ≤ options.founderStake)
    (bounded : options.founderStake ≤ FOUNDER_SUPPLY) :
    (∃ chain, init (options.genesis market founder treasury).keySorted = .ok chain) ↔
      (0 < options.vestDuration → 0 ≤ options.vestCliff) := by
  obtain ⟨balances, stakes, staked, balance, stake⟩ := stake_split market founder nonneg bounded
  have held : balances.getD founder 0 + stakes.getD founder 0 = FOUNDER_SUPPLY * COIN := by
    rw [balance, stake, getD_split, if_pos rfl, if_pos rfl]
    omega
  have schedule := check_scheduleOf held options.vestCliff options.vestDuration
  rw [← schedule]
  constructor
  · rintro ⟨chain, initialised⟩
    obtain ⟨_, otherBalances, otherStakes, otherStaked, ran, _⟩ :=
      (init_eq_ok _ _).mp initialised
    obtain ⟨rfl, rfl⟩ := Prod.mk.inj (Except.ok.inj (otherStaked.symm.trans staked))
    exact ran
  · intro ran
    have allocated : checkAllocations (sortDict (split market founder)) = .ok () := by
      rw [checkAllocations_sortDict, checkAllocations_split apart]
    simp only [init, rejectIf, bind_eq_ok, raiseIf_eq_ok, exists_unit, pure_eq_ok]
    exact ⟨_, allocated, (balances, stakes), staked, ran, not_le.mpr (by decide : (0 : Int) < 32),
      rfl⟩

theorem starts_of_init
    (nonneg : 0 ≤ options.founderStake)
    (bounded : options.founderStake ≤ FOUNDER_SUPPLY)
    {chain : ProofOfStakeChain}
    (initialised : init (options.genesis market founder treasury).keySorted = .ok chain) :
    Starts options market founder chain := by
  obtain ⟨balances, stakes, staked, balance, stake⟩ := stake_split market founder nonneg bounded
  obtain ⟨_, otherBalances, otherStakes, otherStaked, _, _, config, state, _⟩ :=
    (init_eq_ok _ _).mp initialised
  obtain ⟨rfl, rfl⟩ := Prod.mk.inj (Except.ok.inj (otherStaked.symm.trans staked))
  refine ⟨fun address => ?_, fun address => ?_, fun address => ?_⟩
  · rw [balanceOf, state]
    show (withTreasury _ _).getD address 0 = _
    rw [getD_withTreasury, balance, getD_split]
    split_ifs
    · rw [Int.sub_mul]
    · rw [sub_zero]
    · rw [sub_zero]
  · rw [ProofOfStakeChain.stakeOf, state]
    exact stake address
  · rw [config]
    exact get?_scheduleOf _ _ _ _

variable [Keys] [Digits]

/-- The command writes the parameters of the split and nothing else. -/
theorem initialise_eq_ok
    {disk : BlockStore}
    (written : initialise none options = .ok (disk, market, founder, treasury)) :
    market ≠ founder ∧ 0 ≤ options.founderStake ∧ options.founderStake ≤ FOUNDER_SUPPLY ∧
      BlockStore.writeGenesis none (options.genesis market founder treasury) = .ok disk := by
  simp only [initialise, buildGenesis, bind_eq_ok, Exit.call_eq_ok, raiseIf_eq_ok, exists_unit,
    pure_eq_ok, Prod.exists, Prod.mk.injEq] at written
  obtain ⟨_, _, _, _, _, _, _, _, _, _, _, _, ⟨apart, staked, _, rfl, rfl, rfl⟩, _, made, rfl, rfl,
    rfl, rfl⟩ := written
  obtain ⟨nonneg, bounded⟩ := not_not.mp staked
  exact ⟨apart, nonneg, bounded, made⟩

/-- The genesis that the command writes loads unless a schedule was asked for with a
negative cliff, which the command does not check.  What loads is the split, and on every
chain that grows from it the supply is the cap, and before the cliff a founder that was
never slashed has its whole share, up to the fees of its votes and slashes. -/
theorem boots
    (reads : ∀ value : Json, value.Readable → Primitives.jsonLoads (jsonDumps value) = some value)
    {disk : BlockStore}
    (written : initialise none options = .ok (disk, market, founder, treasury)) :
    ((∃ chain, disk.load = .ok chain) ↔ (0 < options.vestDuration → 0 ≤ options.vestCliff)) ∧
    ∃ args, disk.genesisParams = .ok args ∧
      (∀ chain, disk.load = .ok chain → Starts options market founder chain) ∧
      ∀ chain, Reachable args chain →
        chain.state.totalSupply = MAX_SUPPLY_UNITS ∧
        (0 < options.vestDuration → founder ∉ chain.state.slashedAddrs →
          chain.head.index < options.vestCliff →
          FOUNDER_SUPPLY * COIN ≤
            chain.state.holding founder + leakedFees founder chain.chain) := by
  obtain ⟨apart, nonneg, bounded, made⟩ := initialise_eq_ok written
  obtain ⟨params, loads⟩ := load_writeGenesis reads made
  rw [loads]
  refine ⟨exists_init_iff apart nonneg bounded, _, params,
    fun chain initialised => starts_of_init nonneg bounded initialised,
    fun chain reachable => ⟨reachable.totalSupply_eq, fun running unslashed early => ?_⟩⟩
  obtain ⟨rules, _⟩ := reachable.config_eq
  have granted := get?_scheduleOf founder founder options.vestCliff options.vestDuration
  rw [if_pos ⟨running, rfl⟩] at granted
  have schedule : chain.config.vesting =
      (sortDict (scheduleOf founder options.vestCliff options.vestDuration)).mapValues toGrant :=
    congrArg Config.vesting rules
  rw [← schedule] at granted
  have covered := (reachable.locksLeak founder _ granted unslashed).2
  have whole : (⟨FOUNDER_SUPPLY * COIN, 0, options.vestCliff, options.vestDuration⟩ :
      Grant).lockedAt chain.head.index = FOUNDER_SUPPLY * COIN := by
    rw [Grant.lockedAt, locked, vested, if_neg (not_le.mpr running),
      if_pos (show chain.head.index < 0 + options.vestCliff by omega), sub_zero]
  rwa [whole] at covered

end

end Tokenomics

/-! ## A split that boots and one that does not -/

namespace TokenomicsSample

open Tokenomics

attribute [local instance] Symbolic.reading Symbolic.digits KeystoreSample.keys

/-- A vesting founder, and addresses that are generated. -/
def options (cliff : Int) : Options where
  vestCliff := cliff
  vestDuration := 4
  draws := [1, 2, 3]

theorem written : succeeded (initialise none (options 2)) = true := by decide +kernel

theorem writtenNegative : succeeded (initialise none (options (-1))) = true := by decide +kernel

/-- A cliff of two blocks boots, one of minus one is written all the same and does not. -/
theorem boots_unless_negative :
    (∃ chain, (outcome (initialise none (options 2)) written).1.load = .ok chain) ∧
      ¬∃ chain, (outcome (initialise none (options (-1))) writtenNegative).1.load = .ok chain := by
  have sound := (boots KeystoreSample.loads (eq_ok_outcome _ written)).1
  have unsound := (boots KeystoreSample.loads (eq_ok_outcome _ writtenNegative)).1
  refine ⟨sound.mpr fun _ => by decide, fun loaded => ?_⟩
  exact absurd (unsound.mp loaded (by decide)) (by decide)

end TokenomicsSample

end Mindees
