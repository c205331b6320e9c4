import Mathlib.Data.List.Sort
import Mindees.Library.Queues

/-!
# Markets of numbered items

Every owner has items that are numbered one after the other and cost it something.
Its run is the items from the next number on, as long as it can pay for them, and a
pick merges the runs of all owners by fee.
-/

namespace Library

universe u v

/-- What a market reads of an item. -/
structure Market (κ : Type u) (α : Type v) where
  owner : α → κ
  number : α → Int
  fee : α → Int
  /-- The balance that the owner needs, and what the item does to it. -/
  price : α → Int × Int

namespace Market

variable {κ : Type u} {α : Type v} [DecidableEq κ] (market : Market κ α)

/-- The contiguous affordable items from a number on. -/
def run : (expected balance : Int) → List α → List α
  | _, _, [] => []
  | expected, balance, item :: rest =>
      -- a gap, or an item that cannot be paid for, ends the run
      if market.number item ≠ expected then []
      else if balance < (market.price item).1 then []
      else item :: run (expected + 1) (balance + (market.price item).2) rest

/-- What one owner has ready: its run, with its items by number. -/
def ready (expected balance : κ → Int) (owner : κ) (items : List α) : List α :=
  market.run (expected owner) (balance owner)
    (items.insertionSort fun left right => market.number left ≤ market.number right)

/-- The runs of all owners, merged by fee. -/
def pick (expected balance : κ → Int) (items : List α) (room : Nat) : List α :=
  merge (collect (market.ready expected balance) (groupBy market.owner items)) market.fee room

/-- The items of one owner. -/
def owned (owner : κ) (items : List α) : List α :=
  items.filter fun item => market.owner item = owner

/-- What items do to the balance of their owner. -/
def spent (items : List α) : Int := (items.map fun item => (market.price item).2).sum

section

variable {market} {item : α} {earlier later items : List α}

@[simp] theorem owned_append (owner : κ) (first second : List α) :
    market.owned owner (first ++ second) = market.owned owner first ++ market.owned owner second :=
  List.filter_append ..

@[simp] theorem owned_cons_self (item : α) (rest : List α) :
    market.owned (market.owner item) (item :: rest) =
      item :: market.owned (market.owner item) rest := by
  simp [owned]

theorem owned_singleton (owner : κ) (item : α) :
    market.owned owner [item] = if market.owner item = owner then [item] else [] := by
  by_cases same : market.owner item = owner <;> simp [owned, same]

omit [DecidableEq κ] in
@[simp] theorem spent_nil : market.spent [] = 0 := rfl

omit [DecidableEq κ] in
@[simp] theorem spent_singleton (item : α) : market.spent [item] = (market.price item).2 := by
  simp [spent]

omit [DecidableEq κ] in
@[simp] theorem spent_append (first second : List α) :
    market.spent (first ++ second) = market.spent first + market.spent second := by
  simp [spent]

/-! ## Runs -/

omit [DecidableEq κ] in
/-- In a run every item has the next number and is affordable. -/
theorem run_next
    {expected balance : Int}
    (taken : earlier ++ [item] <+: market.run expected balance items) :
    market.number item = expected + earlier.length ∧
      (market.price item).1 ≤ balance + market.spent earlier := by
  induction items generalizing expected balance earlier with
  | nil =>
      rw [run, List.prefix_nil] at taken
      simp at taken
  | cons first rest inductionHypothesis =>
      rw [run] at taken
      split_ifs at taken with gap poor
      · rw [List.prefix_nil] at taken
        simp at taken
      · rw [List.prefix_nil] at taken
        simp at taken
      · cases earlier with
        | nil =>
            obtain ⟨rfl, _⟩ := List.cons_prefix_cons.mp taken
            simp only [not_not] at gap
            simp only [not_lt] at poor
            simpa [spent] using ⟨gap, poor⟩
        | cons before earlier =>
            rw [List.cons_append, List.cons_prefix_cons] at taken
            obtain ⟨rfl, onward⟩ := taken
            obtain ⟨number, affordable⟩ := inductionHypothesis onward
            refine ⟨?_, ?_⟩
            · rw [number, List.length_cons]
              push_cast
              omega
            · rw [spent, List.map_cons, List.sum_cons, ← spent]
              omega

omit [DecidableEq κ] in
/-- A run is a first part of its list. -/
theorem run_initial
    (expected balance : Int)
    (items : List α) :
    market.run expected balance items <+: items := by
  induction items generalizing expected balance with
  | nil => exact List.prefix_rfl
  | cons first rest inductionHypothesis =>
      rw [run]
      split_ifs
      · exact List.nil_prefix
      · exact List.nil_prefix
      · exact List.cons_prefix_cons.mpr ⟨rfl, inductionHypothesis _ _⟩

/-! ## Picks -/

variable {expected balance : κ → Int} {room : Nat}

/-- What an owner has ready is among the items and its own. -/
theorem mem_ready
    {owner : κ}
    (inside : item ∈ (collect (market.ready expected balance)
      (groupBy market.owner items)).getD owner []) :
    item ∈ items ∧ market.owner item = owner := by
  rw [getD_collect] at inside
  have group := getD_groupBy market.owner items owner
  cases found : (groupBy market.owner items).get? owner with
  | none =>
      rw [found] at inside
      exact absurd inside List.not_mem_nil
  | some queue =>
      rw [found] at inside
      rw [Dict.getD_eq_of_get? found] at group
      have ran : item ∈ market.ready expected balance owner queue := inside
      have sorted := (run_initial _ _ _).subset ran
      rw [List.mem_insertionSort, group, List.mem_filter, decide_eq_true_iff] at sorted
      exact sorted

/-- The picked items of one owner are a first part of what it has ready. -/
theorem owned_pick_ready
    (market : Market κ α)
    (expected balance : κ → Int)
    (items : List α)
    (room : Nat)
    (owner : κ) :
    market.owned owner (market.pick expected balance items room) <+:
      (collect (market.ready expected balance) (groupBy market.owner items)).getD owner [] :=
  filter_merge market.fee (fun _ _ inside => (mem_ready inside).2) room owner

/-- The picked items of one owner are a first part of a run that starts at its next
number and its balance. -/
theorem owned_pick
    (market : Market κ α)
    (expected balance : κ → Int)
    (items : List α)
    (room : Nat)
    (owner : κ) :
    ∃ queue, market.owned owner (market.pick expected balance items room) <+:
      market.run (expected owner) (balance owner) queue := by
  have picked := market.owned_pick_ready expected balance items room owner
  rw [getD_collect] at picked
  cases found : (groupBy market.owner items).get? owner with
  | none =>
      rw [found] at picked
      refine ⟨[], ?_⟩
      rw [run]
      exact picked
  | some queue =>
      rw [found] at picked
      exact ⟨_, picked⟩

theorem mem_of_mem_pick
    (inside : item ∈ market.pick expected balance items room) :
    item ∈ items := by
  have kept : item ∈ market.owned (market.owner item) (market.pick expected balance items room) :=
    List.mem_filter.mpr ⟨inside, decide_eq_true rfl⟩
  exact (mem_ready ((market.owned_pick_ready expected balance items room _).subset kept)).1

/-- A picked item has the next number of its owner and is affordable after the owner's
earlier ones. -/
theorem pick_next
    (picked : market.pick expected balance items room = earlier ++ item :: later) :
    market.number item = expected (market.owner item) +
        (market.owned (market.owner item) earlier).length ∧
      (market.price item).1 ≤ balance (market.owner item) +
        market.spent (market.owned (market.owner item) earlier) := by
  obtain ⟨queue, taken⟩ := market.owned_pick expected balance items room (market.owner item)
  refine run_next (List.IsPrefix.trans ?_ taken)
  rw [picked, owned_append, owned_cons_self]
  exact ⟨market.owned (market.owner item) later, by simp⟩

/-- No item is picked twice: an earlier copy would have a smaller number. -/
theorem not_mem_of_pick
    (picked : market.pick expected balance items room = earlier ++ item :: later) :
    item ∉ earlier := by
  intro inside
  obtain ⟨before, between, rfl⟩ := List.append_of_mem inside
  obtain ⟨number, _⟩ := pick_next picked
  rw [List.append_assoc, List.cons_append] at picked
  obtain ⟨earlierNumber, _⟩ := pick_next picked
  rw [number, owned_append, owned_cons_self, List.length_append, List.length_cons]
    at earlierNumber
  push_cast at earlierNumber
  omega

end

end Market

end Library
