import Mindees.Consensus.Electable
import Mindees.Library.Shares

/-!
# Elections are stake-proportional

The seed is reduced modulo the active stake, and the validators in address order
divide the residues among themselves: each elects itself with exactly as many
residues as it has stake.
-/

namespace Mindees

open Library

/-- The sum of the positive entries. -/
def positiveTotal (stakes : Dict Str Int) : Int :=
  stakes.sumBy fun _ amount => if 0 < amount then amount else 0

/-- The residues of the seed that make an election return an address. -/
def electingResidues (stakes : Dict Str Int) (address : Str) : Set Int :=
  {residue | ∃ drawn, (intFromBytes drawn : Int) % positiveTotal stakes = residue ∧
    electValidator stakes drawn = .ok address}

/-! ## Seeds -/

/-- Every number is the big-endian value of some bytes. -/
theorem exists_intFromBytes (value : Nat) : ∃ raw, intFromBytes raw = value := by
  induction value using Nat.strong_induction_on with
  | _ value inductionHypothesis =>
      by_cases zero : value = 0
      · exact ⟨[], zero.symm⟩
      · obtain ⟨raw, prior⟩ := inductionHypothesis (value / 256) (by omega)
        refine ⟨raw ++ [UInt8.ofNat (value % 256)], ?_⟩
        have digit : (UInt8.ofNat (value % 256)).toNat = value % 256 := by
          rw [UInt8.toNat_ofNat']
          omega
        rw [intFromBytes] at prior ⊢
        rw [List.foldl_append, prior, List.foldl_cons, List.foldl_nil, digit]
        omega

/-! ## Validators in order -/

section

variable {stakes : Dict Str Int}

theorem sortedValidators_nodup (stakes : Dict Str Int) : (sortedValidators stakes).Nodup := by
  rw [sortedValidators, (List.perm_insertionSort _ _).nodup_iff]
  exact stakes.nodupKeys.sublist (List.filter_sublist.map Prod.fst)

theorem weight_nonneg (stakes : Dict Str Int) :
    ∀ address ∈ sortedValidators stakes, 0 ≤ stakes.getD address 0 := by
  intro address inside
  exact ((mem_sortedValidators stakes address).mp inside).le

/-- The sum over the validators is the sum of the positive entries. -/
theorem sum_sortedValidators (stakes : Dict Str Int) :
    ((sortedValidators stakes).map fun address => stakes.getD address 0).sum =
      positiveTotal stakes := by
  have amounts : ∀ entry ∈ stakes.entries, stakes.getD entry.1 0 = entry.2 := by
    intro entry inside
    rw [Dict.getD_eq_of_get? ((stakes.mem_entries_iff entry.1 entry.2).mp inside)]
  have split : ∀ entries ⊆ stakes.entries,
      (((entries.filter fun entry => 0 < entry.2).map Prod.fst).map fun address =>
        stakes.getD address 0).sum =
      (entries.map fun entry => if 0 < entry.2 then entry.2 else 0).sum := by
    intro entries part
    induction entries with
    | nil => rfl
    | cons entry rest inductionHypothesis =>
        obtain ⟨here, others⟩ := List.cons_subset.mp part
        rw [List.map_cons, List.sum_cons, ← inductionHypothesis others, List.filter_cons]
        split_ifs with positive counted counted
        · simp [amounts entry here]
        · simp_all
        · simp_all
        · rw [zero_add]
  have sorted := List.perm_insertionSort (· ≤ ·)
    ((stakes.entries.filter fun entry => 0 < entry.2).map Prod.fst)
  rw [sortedValidators, (sorted.map _).sum_eq, split _ (List.Subset.refl _)]
  rfl

/-- The election loop is a draw weighted by stake. -/
theorem electLoop_eq_draw
    (stakes : Dict Str Int)
    (pick cumulative : Int)
    (validators : List Str) :
    electLoop stakes pick validators cumulative =
      draw (fun address => stakes.getD address 0) (pick - cumulative) validators := by
  induction validators generalizing cumulative with
  | nil => rfl
  | cons address rest inductionHypothesis =>
      have moved : pick - (cumulative + stakes.getD address 0) =
          pick - cumulative - stakes.getD address 0 := by omega
      rw [electLoop, draw, inductionHypothesis, moved]
      apply if_congr
      · omega
      · rfl
      · rfl

theorem positiveTotal_pos
    (staked : HasValidator stakes) :
    0 < positiveTotal stakes := by
  rw [← sum_sortedValidators]
  exact sortedValidators_sum_pos staked

/-- The loop returns: no residue is left over for the code after it. -/
theorem exists_draw_residue
    (staked : HasValidator stakes)
    (drawn : Bytes) :
    ∃ address, draw (fun address => stakes.getD address 0)
      ((intFromBytes drawn : Int) % positiveTotal stakes) (sortedValidators stakes) =
        some address := by
  have positive := positiveTotal_pos staked
  apply exists_draw
  · exact Int.emod_nonneg _ positive.ne'
  · rw [sum_sortedValidators]
    exact Int.emod_lt_of_pos _ positive

/-- An election is a draw of the residue of its seed. -/
theorem electValidator_eq_ok_iff
    (staked : HasValidator stakes)
    (drawn : Bytes)
    (address : Str) :
    electValidator stakes drawn = .ok address ↔
      draw (fun address => stakes.getD address 0)
        ((intFromBytes drawn : Int) % positiveTotal stakes) (sortedValidators stakes) =
          some address := by
  obtain ⟨winner, found⟩ := exists_draw_residue staked drawn
  have positive := positiveTotal_pos staked
  simp only [electValidator, sum_sortedValidators, electLoop_eq_draw, sub_zero, found, rejectIf,
    bind_eq_ok, raiseIf_eq_ok, exists_unit, pure_eq_ok, Option.some_inj]
  exact and_iff_right positive.ne'

/-- The residues that elect a validator are its share of the draw. -/
theorem electingResidues_eq
    (staked : HasValidator stakes)
    (address : Str) :
    electingResidues stakes address =
      {pick | 0 ≤ pick ∧ draw (fun address => stakes.getD address 0) pick
        (sortedValidators stakes) = some address} := by
  have positive := positiveTotal_pos staked
  ext residue
  constructor
  · rintro ⟨drawn, rfl, elected⟩
    refine ⟨Int.emod_nonneg _ positive.ne', ?_⟩
    exact (electValidator_eq_ok_iff staked drawn address).mp elected
  · rintro ⟨nonneg, found⟩
    obtain ⟨raw, value⟩ := exists_intFromBytes residue.toNat
    have below : residue < positiveTotal stakes := by
      rw [← sum_sortedValidators]
      exact lt_sum_of_draw (weight_nonneg stakes) found
    have reduced : (intFromBytes raw : Int) % positiveTotal stakes = residue := by
      rw [value, Int.toNat_of_nonneg nonneg]
      exact Int.emod_eq_of_lt nonneg below
    refine ⟨raw, reduced, ?_⟩
    rw [electValidator_eq_ok_iff staked, reduced]
    exact found

/-- The order of insertion decides nothing. -/
theorem sortedValidators_congr
    {other : Dict Str Int}
    (same : ∀ address, other.get? address = stakes.get? address) :
    sortedValidators other = sortedValidators stakes := by
  have entries := ((Dict.perm_of_get?_eq same).filter fun entry => 0 < entry.2).map Prod.fst
  apply List.Perm.eq_of_sortedLE
  · exact List.sortedLE_insertionSort
  · exact List.sortedLE_insertionSort
  · exact ((List.perm_insertionSort _ _).trans entries).trans (List.perm_insertionSort _ _).symm

end

/-! ## The election -/

/-- Among the residues of the seed, exactly as many elect an address as it has
stake.  The loop always returns, and only a residue and the amounts count. -/
theorem electValidator_proportional
    (stakes : Dict Str Int)
    (staked : ∃ address, 0 < stakes.getD address 0) :
    (∀ drawn, ∃ address,
      electLoop stakes ((intFromBytes drawn : Int) % positiveTotal stakes)
          (sortedValidators stakes) 0 = some address ∧
        electValidator stakes drawn = .ok address) ∧
    (∀ residue, 0 ≤ residue → residue < positiveTotal stakes →
      ∃ drawn, (intFromBytes drawn : Int) % positiveTotal stakes = residue) ∧
    (∀ drawn other, (intFromBytes drawn : Int) % positiveTotal stakes =
        (intFromBytes other : Int) % positiveTotal stakes →
      electValidator stakes drawn = electValidator stakes other) ∧
    (∀ address, 0 < stakes.getD address 0 →
      ((electingResidues stakes address).ncard : Int) = stakes.getD address 0) ∧
    (∀ drawn address, electValidator stakes drawn = .ok address →
      0 < stakes.getD address 0) ∧
    ∀ other : Dict Str Int, (∀ address, other.get? address = stakes.get? address) →
      ∀ drawn, electValidator other drawn = electValidator stakes drawn := by
  have positive := positiveTotal_pos staked
  refine ⟨?returns, ?residues, ?residue, ?proportional, ?validator, ?order⟩
  case returns =>
    intro drawn
    obtain ⟨address, found⟩ := exists_draw_residue staked drawn
    refine ⟨address, ?_, (electValidator_eq_ok_iff staked drawn address).mpr found⟩
    rw [electLoop_eq_draw, sub_zero]
    exact found
  case residues =>
    intro residue nonneg below
    obtain ⟨raw, value⟩ := exists_intFromBytes residue.toNat
    refine ⟨raw, ?_⟩
    rw [value, Int.toNat_of_nonneg nonneg]
    exact Int.emod_eq_of_lt nonneg below
  case residue =>
    intro drawn other same
    obtain ⟨address, found⟩ := exists_draw_residue staked drawn
    rw [(electValidator_eq_ok_iff staked drawn address).mpr found, Eq.comm,
      electValidator_eq_ok_iff staked other address, ← same]
    exact found
  case proportional =>
    intro address own
    rw [electingResidues_eq staked, ncard_draw (weight_nonneg stakes)
      (sortedValidators_nodup stakes) ((mem_sortedValidators stakes address).mpr own),
      Int.toNat_of_nonneg own.le]
  case validator =>
    intro drawn address elected
    exact electValidator_pos elected
  case order =>
    intro other same drawn
    have amounts : ∀ address, other.getD address 0 = stakes.getD address 0 := by
      intro address
      rw [Dict.getD, same, Dict.getD]
    have otherStaked : HasValidator other := by
      obtain ⟨address, own⟩ := staked
      exact ⟨address, by rw [amounts]; exact own⟩
    have weights : (fun address => other.getD address 0) =
        fun address => stakes.getD address 0 := by
      funext address
      exact amounts address
    obtain ⟨address, found⟩ := exists_draw_residue staked drawn
    rw [(electValidator_eq_ok_iff staked drawn address).mpr found,
      electValidator_eq_ok_iff otherStaked drawn address, ← sum_sortedValidators, weights,
      sortedValidators_congr same, sum_sortedValidators]
    exact found

namespace ProportionalSample

/-- Three quarters of the stake on one side. -/
def stakes : Dict Str Int := (Dict.empty.set ['a'] 3).set ['b'] 1

theorem electValidator_proportional_sample :
    (∃ address, 0 < stakes.getD address 0) ∧
      ((electingResidues stakes ['a']).ncard : Int) = 3 :=
  ⟨⟨['a'], by decide⟩,
    (electValidator_proportional stakes ⟨['a'], by decide⟩).2.2.2.1 ['a'] (by decide)⟩

end ProportionalSample

end Mindees
