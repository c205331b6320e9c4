import Mathlib.Data.List.Infix
import Mathlib.Data.List.Nodup
import Mathlib.Tactic.Common

/-!
# Runs of total steps

A property that a step keeps exactly when the step meets a condition holds
throughout a run exactly when every step of the run meets it.
-/

namespace Library

variable {σ α : Type*} {step : σ → α → σ} {start : σ} {items : List α}

theorem prefix_singleton
    {item : α}
    (inside : items <+: [item]) :
    items = [] ∨ items = [item] := by
  rcases List.prefix_cons_iff.mp inside with rfl | ⟨rest, rfl, nothing⟩
  · exact .inl rfl
  · rw [List.prefix_nil.mp nothing]
    exact .inr rfl

/-- A property of every state of a run is one of its first state and of every
state of the rest. -/
theorem forall_prefix_cons
    (property : List α → Prop)
    (item : α)
    (rest : List α) :
    (∀ earlier, earlier <+: item :: rest → property earlier) ↔
      property [] ∧ ∀ earlier, earlier <+: rest → property (item :: earlier) := by
  constructor
  · intro always
    exact ⟨always [] List.nil_prefix, fun earlier inside =>
      always (item :: earlier) (List.prefix_cons_inj item |>.mpr inside)⟩
  · rintro ⟨first, later⟩ earlier inside
    cases earlier with
    | nil => exact first
    | cons other earlier =>
        obtain ⟨rfl, within⟩ := List.cons_prefix_cons.mp inside
        exact later earlier within

/-- A condition on every step of a run is one on its first step and on every
step of the rest. -/
theorem forall_split_cons
    (condition : List α → α → Prop)
    (item : α)
    (rest : List α) :
    (∀ earlier other later, item :: rest = earlier ++ other :: later →
        condition earlier other) ↔
      condition [] item ∧ ∀ earlier other later, rest = earlier ++ other :: later →
        condition (item :: earlier) other := by
  constructor
  · intro always
    refine ⟨always [] item rest rfl, fun earlier other later split => ?_⟩
    exact always (item :: earlier) other later (by rw [split, List.cons_append])
  · rintro ⟨first, next⟩ earlier other later split
    cases earlier with
    | nil =>
        obtain ⟨rfl, rfl⟩ := List.cons.inj split
        exact first
    | cons head earlier =>
        obtain ⟨rfl, rest_eq⟩ := List.cons.inj split
        exact next earlier other later rest_eq

/-- A condition on every step of a run, and on the steps that come after it, is
one on the last step and on every step before it. -/
theorem forall_split_concat
    (condition : List α → α → List α → Prop)
    (rest : List α)
    (last : α) :
    (∀ earlier item later, rest ++ [last] = earlier ++ item :: later →
        condition earlier item later) ↔
      (∀ earlier item later, rest = earlier ++ item :: later →
        condition earlier item (later ++ [last])) ∧ condition rest last [] := by
  constructor
  · intro always
    refine ⟨fun earlier item later split => ?_, always rest last [] rfl⟩
    exact always earlier item (later ++ [last]) (by rw [split, List.append_assoc, List.cons_append])
  · rintro ⟨before, atEnd⟩ earlier item later split
    rcases List.eq_nil_or_concat later with rfl | ⟨later, final, rfl⟩
    · obtain ⟨rfl, same⟩ := List.append_inj' split rfl
      obtain rfl := List.singleton_inj.mp same
      exact atEnd
    · rw [List.concat_eq_append, ← List.cons_append, ← List.append_assoc] at split
      obtain ⟨inside, same⟩ := List.append_inj' split rfl
      obtain rfl := List.singleton_inj.mp same
      rw [List.concat_eq_append]
      exact before earlier item later inside

/-- A list has no repetition if no item occurs before itself. -/
theorem nodup_of_splits
    (fresh : ∀ earlier item later, items = earlier ++ item :: later → item ∉ earlier) :
    items.Nodup := by
  induction items using List.reverseRecOn with
  | nil => exact List.nodup_nil
  | append_singleton rest last inductionHypothesis =>
      obtain ⟨before, atEnd⟩ :=
        (forall_split_concat (fun earlier item _ => item ∉ earlier) rest last).mp fresh
      rw [← List.concat_eq_append, List.nodup_concat]
      exact ⟨atEnd, inductionHypothesis before⟩

/-- If a step keeps a property exactly under a condition, the property holds
throughout a run exactly when every step of the run meets the condition. -/
theorem foldl_always_iff
    {invariant property : σ → Prop}
    {condition : σ → α → Prop}
    (preserved : ∀ state item, invariant state → invariant (step state item))
    (exactly : ∀ state item, invariant state → property state →
      (property (step state item) ↔ condition state item))
    (initially : invariant start)
    (holds : property start) :
    (∀ earlier, earlier <+: items → property (earlier.foldl step start)) ↔
      ∀ earlier item later, items = earlier ++ item :: later →
        condition (earlier.foldl step start) item := by
  induction items generalizing start with
  | nil =>
      constructor
      · intro _ earlier item later split
        exact absurd split (by simp)
      · intro _ earlier inside
        rw [List.prefix_nil.mp inside]
        exact holds
  | cons item rest inductionHypothesis =>
      rw [forall_prefix_cons (fun earlier => property (earlier.foldl step start)),
        forall_split_cons (fun earlier item => condition (earlier.foldl step start) item)]
      simp only [List.foldl_nil, List.foldl_cons, ← exactly start item initially holds]
      constructor
      · rintro ⟨_, later⟩
        have next : property (step start item) := later [] List.nil_prefix
        exact ⟨next, (inductionHypothesis (preserved start item initially) next).mp later⟩
      · rintro ⟨next, later⟩
        exact ⟨holds, (inductionHypothesis (preserved start item initially) next).mpr later⟩

end Library
