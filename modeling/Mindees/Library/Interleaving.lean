import Mathlib.Algebra.BigOperators.Group.List.Basic
import Mathlib.Data.Int.Order.Basic
import Mindees.Library.Raise

/-!
# Interleavings

Steps that many owners take, in any order that keeps the order of each owner's
own.  Where a run ends is settled view by view: a view that only the steps of one
owner change, a view that adds up what the steps contribute, a view that a step
switches on for good, and the thresholds that these reach.
-/

namespace Library

universe u v w

variable {ε : Type u} {α σ : Type v}

/-- Two arrangements of the same items that keep the order of each owner's own. -/
structure SameOrder {κ : Type w} [DecidableEq κ] (owner : α → κ) (left right : List α) : Prop where
  perm : left.Perm right
  own : ∀ key, left.filter (fun item => owner item = key) =
    right.filter fun item => owner item = key

/-- Neighbours of different owners may change places. -/
theorem SameOrder.swap
    {κ : Type w}
    [DecidableEq κ]
    {owner : α → κ}
    {first second : α}
    (different : owner first ≠ owner second)
    (rest : List α) :
    SameOrder owner (first :: second :: rest) (second :: first :: rest) where
  perm := .swap second first rest
  own key := by
    by_cases mine : owner first = key
    · have other : owner second ≠ key := fun same => different (mine.trans same.symm)
      simp only [List.filter_cons, mine, other, decide_true, decide_false, if_true,
        Bool.false_eq_true, if_false]
    · simp only [List.filter_cons, mine, decide_false, Bool.false_eq_true, if_false]

section

variable {step : σ → α → Except ε σ} {items : List α} {start finish : σ}

/-- A view that only the steps of one owner change is what these steps make of it. -/
theorem foldlM_own
    {κ ν : Type w}
    [DecidableEq κ]
    {owner : α → κ}
    {key : κ}
    {view : σ → ν}
    {change : ν → α → ν}
    (changes : ∀ item ∈ items, ∀ before after, step before item = .ok after →
      view after = if owner item = key then change (view before) item else view before)
    (ran : items.foldlM step start = .ok finish) :
    view finish = (items.filter fun item => owner item = key).foldl change (view start) := by
  refine foldlM_traces
    (fun taken state => view state =
      (taken.filter fun item => owner item = key).foldl change (view start)) ?_ rfl ran
  intro earlier item later position before after reached stepped
  have inside : item ∈ items := by simp [position]
  rw [changes item inside before after stepped, List.filter_append, List.foldl_append, ← reached]
  by_cases mine : owner item = key
  · simp [mine]
  · simp [mine]

/-- A view that every step adds to is the sum of what the steps add. -/
theorem foldlM_sum
    {M : Type w}
    [AddCommGroup M]
    {view : σ → M}
    {amount : α → M}
    (adds : ∀ item ∈ items, ∀ before after, step before item = .ok after →
      view after = view before + amount item)
    (ran : items.foldlM step start = .ok finish) :
    view finish = view start + (items.map amount).sum := by
  refine foldlM_traces
    (fun taken state => view state = view start + (taken.map amount).sum) ?_ (add_zero _).symm ran
  intro earlier item later position before after reached stepped
  have inside : item ∈ items := by simp [position]
  rw [adds item inside before after stepped, reached, List.map_append, List.sum_append,
    List.map_singleton, List.sum_singleton, add_assoc]

/-- What a step switches on for good is on at the end if it was at the start or
some step switched it on. -/
theorem foldlM_touched
    {view : σ → Prop}
    {touches : α → Prop}
    (switches : ∀ item ∈ items, ∀ before after, step before item = .ok after →
      (view after ↔ view before ∨ touches item))
    (ran : items.foldlM step start = .ok finish) :
    view finish ↔ view start ∨ ∃ item ∈ items, touches item := by
  refine foldlM_traces
    (fun taken state => view state ↔ view start ∨ ∃ item ∈ taken, touches item) ?_ ?_ ran
  case refine_2 => simp only [List.not_mem_nil, false_and, exists_false, or_false]
  intro earlier item later position before after reached stepped
  have inside : item ∈ items := by simp [position]
  rw [switches item inside before after stepped, reached, or_assoc]
  simp only [List.mem_append, List.mem_singleton, or_and_right, exists_or, exists_eq_left]

end

/-! ## Two runs -/

section

variable {κ ν : Type w} [DecidableEq κ] {owner : α → κ} {left right : List α}
  {step : σ → α → Except ε σ} {start leftFinish rightFinish : σ}

/-- The steps of one owner leave its view the same in both orders. -/
theorem SameOrder.own_eq
    (order : SameOrder owner left right)
    (key : κ)
    (view : σ → ν)
    (change : ν → α → ν)
    (changes : ∀ item ∈ left, ∀ before after, step before item = .ok after →
      view after = if owner item = key then change (view before) item else view before)
    (leftRan : left.foldlM step start = .ok leftFinish)
    (rightRan : right.foldlM step start = .ok rightFinish) :
    view leftFinish = view rightFinish := by
  have moved := foldlM_own changes leftRan
  rw [order.own key] at moved
  rw [moved]
  symm
  apply foldlM_own _ rightRan
  intro item inside
  exact changes item (order.perm.mem_iff.mpr inside)

/-- What the steps add up to is the same in both orders. -/
theorem sum_eq_of_perm
    {M : Type w}
    [AddCommGroup M]
    (perm : left.Perm right)
    (view : σ → M)
    (amount : α → M)
    (adds : ∀ item ∈ left, ∀ before after, step before item = .ok after →
      view after = view before + amount item)
    (leftRan : left.foldlM step start = .ok leftFinish)
    (rightRan : right.foldlM step start = .ok rightFinish) :
    view leftFinish = view rightFinish := by
  have moved := foldlM_sum adds leftRan
  rw [(perm.map amount).sum_eq] at moved
  rw [moved]
  symm
  apply foldlM_sum _ rightRan
  intro item inside
  exact adds item (perm.mem_iff.mpr inside)

/-- What the steps switch on is the same in both orders. -/
theorem touched_iff_of_perm
    (perm : left.Perm right)
    (view : σ → Prop)
    (touches : α → Prop)
    (switches : ∀ item ∈ left, ∀ before after, step before item = .ok after →
      (view after ↔ view before ∨ touches item))
    (leftRan : left.foldlM step start = .ok leftFinish)
    (rightRan : right.foldlM step start = .ok rightFinish) :
    view leftFinish ↔ view rightFinish := by
  have moved := foldlM_touched switches leftRan
  simp only [perm.mem_iff] at moved
  rw [moved]
  symm
  apply foldlM_touched _ rightRan
  intro item inside
  exact switches item (perm.mem_iff.mpr inside)

end

/-! ## Thresholds -/

section

variable {β γ : Type w} {votedOn : α → Option β} {full : σ → β → Prop}

/-- A step that votes on an edge: edges that are full stay full, and only the
edge that is voted on can become full. -/
structure TallyStep
    (votedOn : α → Option β)
    (full : σ → β → Prop)
    (before : σ)
    (item : α)
    (after : σ) : Prop where
  grows : ∀ edge, full before edge → full after edge
  frame : ∀ edge, votedOn item ≠ some edge → full after edge → full before edge

/-- Some item votes on an edge that is full. -/
def Crossed
    (votedOn : α → Option β)
    (full : σ → β → Prop)
    (items : List α)
    (state : σ)
    (edge : β) : Prop :=
  (∃ item ∈ items, votedOn item = some edge) ∧ full state edge

/-- One more step crosses the edge it votes on, if that is full now. -/
theorem crossed_concat
    {before after : σ}
    {earlier : List α}
    {item : α}
    (tallied : TallyStep votedOn full before item after)
    (edge : β) :
    Crossed votedOn full (earlier ++ [item]) after edge ↔
      Crossed votedOn full earlier before edge ∨ votedOn item = some edge ∧ full after edge := by
  constructor
  · rintro ⟨⟨other, inside, voted⟩, reached⟩
    by_cases here : votedOn item = some edge
    · exact .inr ⟨here, reached⟩
    · rcases List.mem_append.mp inside with old | new
      · exact .inl ⟨⟨other, old, voted⟩, tallied.frame edge here reached⟩
      · rw [List.mem_singleton.mp new] at voted
        exact absurd voted here
  · rintro (⟨⟨other, inside, voted⟩, reached⟩ | ⟨voted, reached⟩)
    · exact ⟨⟨other, List.mem_append_left _ inside, voted⟩, tallied.grows edge reached⟩
    · exact ⟨⟨item, List.mem_append_right _ List.mem_cons_self, voted⟩, reached⟩

/-- The best of some candidates that beat the first choice, or the first choice. -/
structure IsLatest
    (height : γ → Int)
    (first : γ)
    (candidate : γ → Prop)
    (choice : γ) : Prop where
  chosen : choice = first ∨ candidate choice ∧ height first < height choice
  highest : ∀ other, candidate other → height other ≤ height choice

theorem IsLatest.first_le
    {height : γ → Int}
    {first choice : γ}
    {candidate : γ → Prop}
    (latest : IsLatest height first candidate choice) :
    height first ≤ height choice := by
  rcases latest.chosen with rfl | ⟨_, above⟩
  · exact le_rfl
  · exact above.le

/-- There is only one when no two candidates are equally high. -/
theorem IsLatest.unique
    {height : γ → Int}
    {first left right : γ}
    {candidate : γ → Prop}
    (apart : ∀ one other, candidate one → candidate other → height one = height other →
      one = other)
    (leftLatest : IsLatest height first candidate left)
    (rightLatest : IsLatest height first candidate right) :
    left = right := by
  have leftFirst := leftLatest.first_le
  have rightFirst := rightLatest.first_le
  rcases leftLatest.chosen with leftSame | ⟨leftIn, leftAbove⟩
  · rcases rightLatest.chosen with rightSame | ⟨rightIn, rightAbove⟩
    · exact leftSame.trans rightSame.symm
    · have bounded := leftLatest.highest right rightIn
      rw [leftSame] at bounded
      omega
  · have bounded := rightLatest.highest left leftIn
    rcases rightLatest.chosen with rightSame | ⟨rightIn, rightAbove⟩
    · rw [rightSame] at bounded
      omega
    · exact apart left right leftIn rightIn (le_antisymm bounded (leftLatest.highest right rightIn))

variable {step : σ → α → Except ε σ} {items : List α} {start finish : σ} {fixed : σ → Prop}

/-- The marks at the end are those of the start and the targets of crossed edges. -/
theorem foldlM_marked
    (marked : σ → γ → Prop)
    (target : β → γ)
    (initially : fixed start)
    (kept : ∀ item ∈ items, ∀ before after, fixed before → step before item = .ok after →
      fixed after)
    (tallies : ∀ item ∈ items, ∀ before after, fixed before → step before item = .ok after →
      TallyStep votedOn full before item after)
    (marks : ∀ item ∈ items, ∀ before after, fixed before → step before item = .ok after →
      ∀ mark, (marked after mark ↔ marked before mark ∨
        ∃ edge, (votedOn item = some edge ∧ full after edge) ∧ target edge = mark))
    (ran : items.foldlM step start = .ok finish)
    (mark : γ) :
    marked finish mark ↔
      marked start mark ∨ ∃ edge, Crossed votedOn full items finish edge ∧ target edge = mark := by
  have traced := foldlM_traces
    (fun taken state => fixed state ∧ (marked state mark ↔ marked start mark ∨
      ∃ edge, Crossed votedOn full taken state edge ∧ target edge = mark)) ?_ ?_ ran
  · exact traced.2
  · rintro earlier item later position before after ⟨holds, reached⟩ stepped
    have inside : item ∈ items := by simp [position]
    have tallied := tallies item inside before after holds stepped
    refine ⟨kept item inside before after holds stepped, ?_⟩
    simp only [marks item inside before after holds stepped mark, reached,
      crossed_concat tallied, or_and_right, exists_or, or_assoc]
  · refine ⟨initially, ?_⟩
    simp only [Crossed, List.not_mem_nil, false_and, exists_false, or_false]

/-- The choice at the end is the latest among the first one and the candidates of
crossed edges. -/
theorem foldlM_latest
    {latest : σ → γ}
    {height : γ → Int}
    {candidateOf : β → γ → Prop}
    (initially : fixed start)
    (kept : ∀ item ∈ items, ∀ before after, fixed before → step before item = .ok after →
      fixed after)
    (tallies : ∀ item ∈ items, ∀ before after, fixed before → step before item = .ok after →
      TallyStep votedOn full before item after)
    (chooses : ∀ item ∈ items, ∀ before after, fixed before → step before item = .ok after →
      IsLatest height (latest before)
        (fun other => ∃ edge, (votedOn item = some edge ∧ full after edge) ∧
          candidateOf edge other) (latest after))
    (ran : items.foldlM step start = .ok finish) :
    IsLatest height (latest start)
      (fun other => ∃ edge, Crossed votedOn full items finish edge ∧ candidateOf edge other)
      (latest finish) := by
  have traced := foldlM_traces
    (fun taken state => fixed state ∧ IsLatest height (latest start)
      (fun other => ∃ edge, Crossed votedOn full taken state edge ∧ candidateOf edge other)
      (latest state)) ?_ ?_ ran
  · exact traced.2
  · rintro earlier item later position before after ⟨holds, reached⟩ stepped
    have inside : item ∈ items := by simp [position]
    have tallied := tallies item inside before after holds stepped
    have chosen := chooses item inside before after holds stepped
    have rises := chosen.first_le
    have base := reached.first_le
    refine ⟨kept item inside before after holds stepped, ?_, ?_⟩
    · rcases chosen.chosen with same | ⟨⟨edge, voted, offers⟩, above⟩
      · rw [same]
        rcases reached.chosen with first | ⟨⟨edge, crossed, offers⟩, above⟩
        · exact .inl first
        · exact .inr ⟨⟨edge, (crossed_concat tallied edge).mpr (.inl crossed), offers⟩, above⟩
      · exact .inr ⟨⟨edge, (crossed_concat tallied edge).mpr (.inr voted), offers⟩, by omega⟩
    · rintro other ⟨edge, crossed, offers⟩
      rcases (crossed_concat tallied edge).mp crossed with old | voted
      · exact (reached.highest other ⟨edge, old, offers⟩).trans rises
      · exact chosen.highest other ⟨edge, voted, offers⟩
  · refine ⟨initially, .inl rfl, ?_⟩
    rintro other ⟨edge, ⟨⟨item, inside, _⟩, _⟩, _⟩
    cases inside

end

end Library
