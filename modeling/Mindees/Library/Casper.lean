import Mathlib.Algebra.BigOperators.Group.Finset.Basic
import Mathlib.Algebra.Order.BigOperators.Group.Finset
import Mathlib.Algebra.Order.Group.Int
import Mathlib.Tactic.Linarith

/-!
# Links between checkpoints

The combinatorics of vote-based finality.  Validators vote for links between
checkpoints, links with a supermajority justify their targets, and a justified
checkpoint with a supermajority link to its direct epoch child is final.  Two
branches that finalize apart hold two links that no validator may vote for
together, and two supermajorities over one distribution of weights share a third
of it.
-/

namespace Library
namespace Casper

/-- A link between two checkpoints, each with its height. -/
structure Link (κ : Type*) where
  source : κ
  sourceHeight : Int
  target : κ
  targetHeight : Int

variable {κ ν : Type*}

/-- Two links to one target height. -/
def Link.Double (left right : Link κ) : Prop :=
  left.targetHeight = right.targetHeight ∧
    (left.source ≠ right.source ∨ left.target ≠ right.target)

/-- The outer link starts below and ends above the inner one. -/
def Link.Surrounds (outer inner : Link κ) : Prop :=
  outer.sourceHeight < inner.sourceHeight ∧ inner.targetHeight < outer.targetHeight

instance [DecidableEq κ] (left right : Link κ) : Decidable (left.Double right) :=
  inferInstanceAs (Decidable (_ ∧ _))

instance (outer inner : Link κ) : Decidable (outer.Surrounds inner) :=
  inferInstanceAs (Decidable (_ ∧ _))

/-- Two links that no validator may vote for together. -/
def Link.Conflicts (left right : Link κ) : Prop :=
  left.Double right ∨ left.Surrounds right ∨ right.Surrounds left

theorem Link.not_conflicts_self (link : Link κ) : ¬link.Conflicts link := by
  rintro (⟨_, different⟩ | ⟨below, _⟩ | ⟨below, _⟩)
  · exact different.elim (fun apart => apart rfl) (fun apart => apart rfl)
  · exact lt_irrefl _ below
  · exact lt_irrefl _ below

theorem Link.Conflicts.symm
    {left right : Link κ}
    (conflict : left.Conflicts right) :
    right.Conflicts left := by
  rcases conflict with ⟨height, different⟩ | outer | inner
  · exact .inl ⟨height.symm, different.imp Ne.symm Ne.symm⟩
  · exact .inr (.inr outer)
  · exact .inr (.inl inner)

/-! ## Justification -/

/-- The checkpoints that links reach from the root. -/
inductive Justified (links : Set (Link κ)) (root : κ) : κ → Int → Prop
  | root : Justified links root root 0
  | link (link : Link κ) :
      Justified links root link.source link.sourceHeight → link ∈ links →
      Justified links root link.target link.targetHeight

/-- Some link on the way to a checkpoint crosses every height below it. -/
theorem Justified.crossing
    {links : Set (Link κ)}
    {root checkpoint : κ}
    {height level : Int}
    (justified : Justified links root checkpoint height)
    (positive : 0 < level)
    (below : level ≤ height) :
    ∃ link ∈ links, link.sourceHeight < level ∧ level ≤ link.targetHeight := by
  induction justified with
  | root => omega
  | link link _ inside inductionHypothesis =>
      by_cases early : level ≤ link.sourceHeight
      · exact inductionHypothesis early
      · exact ⟨link, inside, not_le.mp early, below⟩

/-- The links of one branch: between checkpoints of the branch, at multiples of
the epoch. -/
structure Branch (epoch : Int) (links : Set (Link κ)) (on : Set κ) : Prop where
  epoch_pos : 0 < epoch
  source_on : ∀ link ∈ links, link.source ∈ on
  target_on : ∀ link ∈ links, link.target ∈ on
  source_boundary : ∀ link ∈ links, epoch ∣ link.sourceHeight
  target_boundary : ∀ link ∈ links, epoch ∣ link.targetHeight

/-- A final checkpoint: reached by a link, with a link to its epoch child. -/
structure Final (epoch : Int) (links : Set (Link κ)) (checkpoint : κ) (height : Int) : Prop where
  incoming : ∃ link ∈ links, link.target = checkpoint ∧ link.targetHeight = height
  child : ∃ link ∈ links, link.source = checkpoint ∧ link.sourceHeight = height ∧
    link.targetHeight = height + epoch

/-- A checkpoint that is final on one branch conflicts with every branch that
justifies past its height without passing through it. -/
theorem Final.exists_conflict
    {epoch : Int}
    {links otherLinks : Set (Link κ)}
    {on : Set κ}
    {checkpoint root other : κ}
    {height otherHeight : Int}
    (final : Final epoch links checkpoint height)
    (branch : Branch epoch otherLinks on)
    (boundary : epoch ∣ height)
    (positive : 0 < height)
    (justified : Justified otherLinks root other otherHeight)
    (higher : height ≤ otherHeight)
    (apart : checkpoint ∉ on) :
    ∃ left ∈ links, ∃ right ∈ otherLinks, left.Conflicts right := by
  obtain ⟨incoming, incomingInside, target, targetHeight⟩ := final.incoming
  obtain ⟨child, childInside, source, sourceHeight, childHeight⟩ := final.child
  obtain ⟨crossing, inside, below, above⟩ := justified.crossing positive higher
  have sourceApart : crossing.source ≠ checkpoint := by
    rintro rfl
    exact apart (branch.source_on crossing inside)
  have targetApart : crossing.target ≠ checkpoint := by
    rintro rfl
    exact apart (branch.target_on crossing inside)
  rcases above.eq_or_lt with meets | beyond
  · -- both branches vote at the final height
    refine ⟨incoming, incomingInside, crossing, inside, .inl ⟨by omega, .inr ?_⟩⟩
    rw [target]
    exact targetApart.symm
  · -- the crossing link ends at the child's height or beyond it
    obtain ⟨low, lowEqual⟩ := boundary
    obtain ⟨high, highEqual⟩ := branch.target_boundary crossing inside
    have gap : low + 1 ≤ high := by
      have scaled : epoch * low < epoch * high := by omega
      have strict := lt_of_mul_lt_mul_left scaled branch.epoch_pos.le
      omega
    have reaches : height + epoch ≤ crossing.targetHeight := by
      have scaled := mul_le_mul_of_nonneg_left gap branch.epoch_pos.le
      rw [mul_add, mul_one] at scaled
      omega
    rcases reaches.eq_or_lt with level | beyond
    · refine ⟨child, childInside, crossing, inside, .inl ⟨by omega, .inl ?_⟩⟩
      rw [source]
      exact sourceApart.symm
    · exact ⟨child, childInside, crossing, inside, .inr (.inr ⟨by omega, by omega⟩)⟩

/-! ## Supermajorities -/

variable [DecidableEq ν]

/-- Two supermajorities over the same weights share a third of the total. -/
theorem supermajorities_intersect
    {weight : ν → Int}
    {everyone left right : Finset ν}
    (nonneg : ∀ voter, 0 ≤ weight voter)
    (outside : ∀ voter ∉ everyone, weight voter = 0)
    (leftMajority : 2 * everyone.sum weight ≤ 3 * left.sum weight)
    (rightMajority : 2 * everyone.sum weight ≤ 3 * right.sum weight) :
    everyone.sum weight ≤ 3 * (left ∩ right).sum weight := by
  have combined : (left ∪ right).sum weight + (left ∩ right).sum weight =
      left.sum weight + right.sum weight :=
    Finset.sum_union_inter
  have bounded : (left ∪ right).sum weight ≤ everyone.sum weight := by
    have inside : (left ∪ right).sum weight ≤ (left ∪ right ∪ everyone).sum weight :=
      Finset.sum_le_sum_of_subset_of_nonneg Finset.subset_union_left
        (fun voter _ _ => nonneg voter)
    have same : everyone.sum weight = (left ∪ right ∪ everyone).sum weight :=
      Finset.sum_subset Finset.subset_union_right (fun voter _ absent => outside voter absent)
    rw [same]
    exact inside
  linarith

/-- What a set of voters weighs is part of what everyone in a larger set
weighs. -/
theorem weight_le_of_covered
    {weight : ν → Int}
    {everyone shared : Finset ν}
    {counted : ν → Prop}
    [DecidablePred counted]
    (nonneg : ∀ voter, 0 ≤ weight voter)
    (outside : ∀ voter ∉ everyone, weight voter = 0)
    (covered : ∀ voter ∈ shared, counted voter) :
    shared.sum weight ≤ everyone.sum fun voter => if counted voter then weight voter else 0 := by
  have restricted : (shared ∩ everyone).sum weight = shared.sum weight := by
    refine Finset.sum_subset Finset.inter_subset_left ?_
    intro voter inside absent
    refine outside voter fun present => absent ?_
    exact Finset.mem_inter.mpr ⟨inside, present⟩
  rw [← restricted, ← Finset.sum_filter]
  refine Finset.sum_le_sum_of_subset_of_nonneg ?_ (fun voter _ _ => nonneg voter)
  intro voter inside
  obtain ⟨member, present⟩ := Finset.mem_inter.mp inside
  exact Finset.mem_filter.mpr ⟨present, covered voter member⟩

end Casper
end Library
