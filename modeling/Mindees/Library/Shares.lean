import Mathlib.Algebra.BigOperators.Group.List.Lemmas
import Mathlib.Algebra.Order.BigOperators.Group.List
import Mathlib.Data.Int.Interval
import Mathlib.Data.Set.Card

/-!
# Weighted draws

A pick walks a list of weighted items until it falls into the share of one of
them.  The share of an item is the interval of its own weight that starts where
the shares before it end, so the picks that draw an item are as many as its
weight.
-/

namespace Library

variable {α : Type*} {weight : α → Int}

/-- The item whose share a pick falls into. -/
def draw (weight : α → Int) : (pick : Int) → List α → Option α
  | _, [] => none
  | pick, item :: rest =>
      if pick < weight item then some item else draw weight (pick - weight item) rest

theorem mem_of_draw
    {items : List α}
    {item : α}
    {pick : Int}
    (drawn : draw weight pick items = some item) :
    item ∈ items := by
  induction items generalizing pick with
  | nil => cases drawn
  | cons first rest inductionHypothesis =>
      rw [draw] at drawn
      split_ifs at drawn
      · cases drawn
        exact List.mem_cons_self
      · exact List.mem_cons_of_mem first (inductionHypothesis drawn)

/-- A pick below the sum of the weights draws an item. -/
theorem exists_draw
    {items : List α}
    {pick : Int}
    (nonneg : 0 ≤ pick)
    (inside : pick < (items.map weight).sum) :
    ∃ item, draw weight pick items = some item := by
  induction items generalizing pick with
  | nil =>
      rw [List.map_nil, List.sum_nil] at inside
      omega
  | cons first rest inductionHypothesis =>
      rw [List.map_cons, List.sum_cons] at inside
      rw [draw]
      split_ifs with own
      · exact ⟨first, rfl⟩
      · apply inductionHypothesis
        · omega
        · omega

/-- No pick from the sum of the weights on draws an item. -/
theorem lt_sum_of_draw
    {items : List α}
    {item : α}
    {pick : Int}
    (weights : ∀ other ∈ items, 0 ≤ weight other)
    (drawn : draw weight pick items = some item) :
    pick < (items.map weight).sum := by
  induction items generalizing pick with
  | nil => cases drawn
  | cons first rest inductionHypothesis =>
      have others : ∀ other ∈ rest, 0 ≤ weight other :=
        fun other inside => weights other (List.mem_cons_of_mem first inside)
      rw [draw] at drawn
      rw [List.map_cons, List.sum_cons]
      split_ifs at drawn with own
      · have sum : 0 ≤ (rest.map weight).sum := List.sum_nonneg (by simpa using others)
        omega
      · have below := inductionHypothesis others drawn
        omega

/-- The share of an item begins at the sum of the weights before it. -/
theorem draw_eq_some_iff
    {before after : List α}
    {item : α}
    {pick : Int}
    (weights : ∀ other ∈ before, 0 ≤ weight other)
    (distinct : (before ++ item :: after).Nodup)
    (nonneg : 0 ≤ pick) :
    draw weight pick (before ++ item :: after) = some item ↔
      (before.map weight).sum ≤ pick ∧ pick < (before.map weight).sum + weight item := by
  induction before generalizing pick with
  | nil =>
      have absent : item ∉ after := (List.nodup_cons.mp distinct).1
      simp only [List.nil_append, draw, List.map_nil, List.sum_nil, zero_add]
      split_ifs with own
      · exact iff_of_true rfl ⟨nonneg, own⟩
      · exact iff_of_false (fun drawn => absent (mem_of_draw drawn)) fun share => own share.2
  | cons first before inductionHypothesis =>
      rw [List.cons_append, List.nodup_cons] at distinct
      have apart : first ≠ item := by
        rintro rfl
        exact distinct.1 (by simp)
      have others : ∀ other ∈ before, 0 ≤ weight other :=
        fun other inside => weights other (List.mem_cons_of_mem first inside)
      have sum : 0 ≤ (before.map weight).sum := by
        apply List.sum_nonneg
        intro value inside
        obtain ⟨other, member, rfl⟩ := List.mem_map.mp inside
        exact others other member
      rw [List.cons_append, draw, List.map_cons, List.sum_cons]
      split_ifs with own
      · refine iff_of_false (fun drawn => apart (Option.some.inj drawn)) fun share => ?_
        omega
      · rw [inductionHypothesis others distinct.2 (by omega)]
        omega

/-- As many picks draw an item as it has weight. -/
theorem ncard_draw
    {items : List α}
    {item : α}
    (weights : ∀ other ∈ items, 0 ≤ weight other)
    (distinct : items.Nodup)
    (inside : item ∈ items) :
    {pick : Int | 0 ≤ pick ∧ draw weight pick items = some item}.ncard =
      (weight item).toNat := by
  obtain ⟨before, after, rfl⟩ := List.append_of_mem inside
  have earlier : ∀ other ∈ before, 0 ≤ weight other :=
    fun other member => weights other (List.mem_append_left _ member)
  have sum : 0 ≤ (before.map weight).sum := by
    apply List.sum_nonneg
    intro value member
    obtain ⟨other, listed, rfl⟩ := List.mem_map.mp member
    exact earlier other listed
  have share : {pick : Int | 0 ≤ pick ∧ draw weight pick (before ++ item :: after) = some item} =
      ↑(Finset.Ico (before.map weight).sum ((before.map weight).sum + weight item)) := by
    ext pick
    rw [Finset.coe_Ico, Set.mem_Ico]
    constructor
    · rintro ⟨nonneg, drawn⟩
      exact (draw_eq_some_iff earlier distinct nonneg).mp drawn
    · intro bounds
      have nonneg : 0 ≤ pick := sum.trans bounds.1
      exact ⟨nonneg, (draw_eq_some_iff earlier distinct nonneg).mpr bounds⟩
  rw [share, Set.ncard_coe_finset, Int.card_Ico, add_sub_cancel_left]

end Library
