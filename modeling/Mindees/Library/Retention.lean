import Mathlib.Data.Finset.Card
import Mathlib.Data.Int.Order.Basic

/-!
# A bounded store of the best

Items are offered one by one to a store of bounded size.  A full store takes an
item only in exchange for a cheapest one of lower priority.  What it has lost or
turned away then never beats what it keeps.
-/

namespace Library

variable {α : Type*} [DecidableEq α]

/-- The kept items are as many of the offered ones as there is room for, and no
other offered item has a higher priority than a kept one. -/
structure KeepsBest
    (capacity : Nat)
    (priority : α → Int)
    (offered kept : Finset α) : Prop where
  part : kept ⊆ offered
  size : kept.card = min offered.card capacity
  best : ∀ lost ∈ offered, lost ∉ kept → ∀ held ∈ kept, priority lost ≤ priority held

namespace KeepsBest

variable {capacity : Nat} {priority : α → Int} {offered kept : Finset α} {item : α}

omit [DecidableEq α] in
theorem empty (capacity : Nat) (priority : α → Int) :
    KeepsBest capacity priority (∅ : Finset α) ∅ where
  part := Finset.Subset.refl ∅
  size := by simp
  best := by simp

omit [DecidableEq α] in
/-- With room left nothing has been lost. -/
theorem eq_of_room
    (keeps : KeepsBest capacity priority offered kept)
    (room : kept.card < capacity) :
    kept = offered := by
  apply Finset.eq_of_subset_of_card_le keeps.part
  have size := keeps.size
  omega

/-- Offering a kept item again changes nothing. -/
theorem known
    (keeps : KeepsBest capacity priority offered kept)
    (held : item ∈ kept) :
    KeepsBest capacity priority (insert item offered) kept := by
  rw [Finset.insert_eq_of_mem (keeps.part held)]
  exact keeps

/-- A store with room takes the item. -/
theorem add_of_room
    (keeps : KeepsBest capacity priority offered kept)
    (room : kept.card < capacity)
    (fresh : item ∉ kept) :
    KeepsBest capacity priority (insert item offered) (insert item kept) := by
  have same := keeps.eq_of_room room
  subst same
  refine ⟨Finset.Subset.refl _, ?_, ?_⟩
  · rw [Finset.card_insert_of_notMem fresh]
    omega
  · intro lost inside outside
    exact absurd inside outside

/-- A full store turns away what does not beat any of its items. -/
theorem refuse
    (keeps : KeepsBest capacity priority offered kept)
    (full : capacity ≤ kept.card)
    (beaten : ∀ held ∈ kept, priority item ≤ priority held) :
    KeepsBest capacity priority (insert item offered) kept where
  part := keeps.part.trans (Finset.subset_insert item offered)
  size := by
    have size := keeps.size
    have more := Finset.card_le_card (Finset.subset_insert item offered)
    omega
  best := by
    intro lost inside outside held member
    rcases Finset.mem_insert.mp inside with rfl | earlier
    · exact beaten held member
    · exact keeps.best lost earlier outside held member

/-- A full store exchanges a cheapest item for a better one.  The new item was
never offered before: it would have been kept. -/
theorem exchange
    {cheapest : α}
    (keeps : KeepsBest capacity priority offered kept)
    (full : capacity ≤ kept.card)
    (held : cheapest ∈ kept)
    (minimal : ∀ other ∈ kept, priority cheapest ≤ priority other)
    (better : priority cheapest < priority item)
    (fresh : item ∉ kept) :
    KeepsBest capacity priority (insert item offered) (insert item (kept.erase cheapest)) := by
  have new : item ∉ offered := by
    intro earlier
    exact absurd (keeps.best item earlier fresh cheapest held) (not_le.mpr better)
  have absent : item ∉ kept.erase cheapest := fun inside => fresh (Finset.mem_of_mem_erase inside)
  refine ⟨?_, ?_, ?_⟩
  · exact Finset.insert_subset_insert item ((Finset.erase_subset _ _).trans keeps.part)
  · rw [Finset.card_insert_of_notMem absent, Finset.card_erase_of_mem held,
      Finset.card_insert_of_notMem new]
    have size := keeps.size
    have some := Finset.card_pos.mpr ⟨cheapest, held⟩
    omega
  · -- what is lost now is the cheapest item, or no better than it
    have bounded : ∀ other ∈ insert item (kept.erase cheapest),
        priority cheapest ≤ priority other := by
      intro other member
      rcases Finset.mem_insert.mp member with rfl | remaining
      · exact better.le
      · exact minimal other (Finset.mem_of_mem_erase remaining)
    intro lost inside outside other member
    rw [Finset.mem_insert, Finset.mem_erase, not_or, not_and] at outside
    have earlier := (Finset.mem_insert.mp inside).resolve_left outside.1
    by_cases evicted : lost = cheapest
    · rw [evicted]
      exact bounded other member
    · exact (keeps.best lost earlier (outside.2 evicted) cheapest held).trans
        (bounded other member)

end KeepsBest

end Library
