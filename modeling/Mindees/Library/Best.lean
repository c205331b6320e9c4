import Mathlib.Order.Defs.Unbundled
import Mathlib.Tactic.Common

/-!
# Scanning for the best element

A scan keeps the best eligible element seen so far.  When elements are compared
by a strict total order, its result is the best of all eligible elements and the
one it started from, whatever the order of the input.
-/

namespace Library

variable {α : Type*}

/-- Keep the best eligible element. -/
def scanBest
    (eligible : α → Bool)
    (better : α → α → Bool)
    (start : α)
    (items : List α) : α :=
  items.foldl (fun best item => if eligible item && better item best then item else best) start

/-- A comparison that orders any two different elements one way and is
transitive. -/
structure StrictTotal (better : α → α → Bool) : Prop where
  total : ∀ left right, left ≠ right → better left right = true ∨ better right left = true
  asymm : ∀ left right, better left right = true → better right left = false
  trans : ∀ first second third, better first second = true → better second third = true →
    better first third = true

/-- The scan returns its start or an eligible element. -/
theorem scanBest_mem
    (eligible : α → Bool)
    (better : α → α → Bool)
    (start : α)
    (items : List α) :
    scanBest eligible better start items = start ∨
      (scanBest eligible better start items ∈ items ∧
        eligible (scanBest eligible better start items) = true) := by
  induction items generalizing start with
  | nil => exact .inl rfl
  | cons item rest inductionHypothesis =>
      rw [scanBest, List.foldl_cons, ← scanBest]
      split_ifs with chosen
      · rw [Bool.and_eq_true] at chosen
        rcases inductionHypothesis item with same | ⟨inside, fits⟩
        · rw [same]
          exact .inr ⟨List.mem_cons_self, chosen.1⟩
        · exact .inr ⟨List.mem_cons_of_mem item inside, fits⟩
      · rcases inductionHypothesis start with same | ⟨inside, fits⟩
        · exact .inl same
        · exact .inr ⟨List.mem_cons_of_mem item inside, fits⟩

/-- Nothing eligible, and not the start, is better than what the scan returns. -/
theorem scanBest_best
    (eligible : α → Bool)
    {better : α → α → Bool}
    (order : StrictTotal better)
    (start : α)
    (items : List α) :
    (scanBest eligible better start items = start ∨
        better (scanBest eligible better start items) start = true) ∧
      ∀ item ∈ items, eligible item = true →
        scanBest eligible better start items = item ∨
          better (scanBest eligible better start items) item = true := by
  induction items generalizing start with
  | nil => exact ⟨.inl rfl, fun item inside => absurd inside List.not_mem_nil⟩
  | cons item rest inductionHypothesis =>
      rw [scanBest, List.foldl_cons, ← scanBest]
      split_ifs with chosen
      · rw [Bool.and_eq_true] at chosen
        obtain ⟨overItem, overRest⟩ := inductionHypothesis item
        refine ⟨.inr ?_, fun other inside fits => ?_⟩
        · rcases overItem with same | ahead
          · rw [same]
            exact chosen.2
          · exact order.trans _ item start ahead chosen.2
        · rcases List.mem_cons.mp inside with rfl | later
          · exact overItem
          · exact overRest other later fits
      · obtain ⟨overStart, overRest⟩ := inductionHypothesis start
        refine ⟨overStart, fun other inside fits => ?_⟩
        rcases List.mem_cons.mp inside with rfl | later
        · -- the item lost against the start of the remaining scan
          have lost : better other start = false := by
            rw [fits, Bool.true_and, Bool.not_eq_true] at chosen
            exact chosen
          by_cases same : other = start
          · rw [same]
            exact overStart
          · have beaten : better start other = true :=
              (order.total start other (Ne.symm same)).resolve_right (by rw [lost]; exact Bool.false_ne_true)
            rcases overStart with equal | ahead
            · rw [equal]
              exact .inr beaten
            · exact .inr (order.trans _ start other ahead beaten)
        · exact overRest other later fits

end Library
