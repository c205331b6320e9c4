import Mathlib.Data.Set.Function
import Mathlib.Data.List.Nodup

/-!
# Merkle trees

Trees over a hash function with digests of one width, in which the last node of
an odd level is doubled.  As long as the hash function does not collide on what
the trees hash, a root determines its leaves: distinct leaves keep every level
free of repetitions, so a doubled node cannot be mistaken for two, and leaves
that hash longer texts than inner nodes do keep trees of different heights apart.
-/

namespace Library
namespace Merkle

universe u v

variable {α : Type u}

/-- The texts that one level hashes: neighbours joined, an odd last node
doubled. -/
def joined : List (List α) → List (List α)
  | [] => []
  | [last] => [last ++ last]
  | left :: right :: rest => (left ++ right) :: joined rest

/-- The next level. -/
def level (hash : List α → List α) (layer : List (List α)) : List (List α) :=
  (joined layer).map hash

/-- A number of levels up. -/
def climb (hash : List α → List α) : Nat → List (List α) → List (List α)
  | 0, layer => layer
  | steps + 1, layer => climb hash steps (level hash layer)

/-- Everything that is hashed on the way up. -/
def hashed (hash : List α → List α) : Nat → List (List α) → List (List α)
  | 0, _ => []
  | steps + 1, layer => joined layer ++ hashed hash steps (level hash layer)

/-- A function that tells the items of two lists apart tells the lists apart. -/
theorem eq_of_map_eq
    {β : Type v}
    {function : α → β}
    {left right : List α}
    (injective : ∀ item ∈ left, ∀ other ∈ right, function item = function other → item = other)
    (same : left.map function = right.map function) :
    left = right := by
  induction left generalizing right with
  | nil => exact (List.map_eq_nil_iff.mp same.symm).symm
  | cons item left inductionHypothesis =>
      cases right with
      | nil => exact absurd same (List.cons_ne_nil _ _)
      | cons other right =>
          obtain ⟨images, later⟩ := List.cons.inj same
          have equal := injective item (by simp) other (by simp) images
          have rest := inductionHypothesis
            (fun item inside other otherInside =>
              injective item (by simp [inside]) other (by simp [otherInside])) later
          rw [equal, rest]

/-! ## One level -/

theorem mem_joined
    {layer : List (List α)}
    {text : List α}
    (inside : text ∈ joined layer) :
    ∃ left ∈ layer, ∃ right ∈ layer, text = left ++ right := by
  fun_induction joined layer with
  | case1 => cases inside
  | case2 last =>
      obtain rfl := List.mem_singleton.mp inside
      exact ⟨last, List.mem_cons_self, last, List.mem_cons_self, rfl⟩
  | case3 left right rest inductionHypothesis =>
      rcases List.mem_cons.mp inside with rfl | later
      · exact ⟨left, by simp, right, by simp, rfl⟩
      · obtain ⟨first, firstInside, second, secondInside, rfl⟩ := inductionHypothesis later
        exact ⟨first, by simp [firstInside], second, by simp [secondInside], rfl⟩

theorem joined_ne_nil
    {layer : List (List α)}
    (nonempty : layer ≠ []) :
    joined layer ≠ [] := by
  fun_cases joined layer with
  | case1 => exact absurd rfl nonempty
  | case2 | case3 => exact List.cons_ne_nil _ _

/-- All nodes have the same width. -/
def Even (width : Nat) (layer : List (List α)) : Prop := ∀ node ∈ layer, node.length = width

theorem Even.tail
    {width : Nat}
    {left right : List α}
    {rest : List (List α)}
    (even : Even width (left :: right :: rest)) :
    left.length = width ∧ right.length = width ∧ Even width rest :=
  ⟨even left (by simp), even right (by simp), fun node inside => even node (by simp [inside])⟩

/-- Distinct nodes of one width join to distinct texts. -/
theorem joined_nodup
    {width : Nat}
    {layer : List (List α)}
    (even : Even width layer)
    (distinct : layer.Nodup) :
    (joined layer).Nodup := by
  fun_induction joined layer with
  | case1 => exact List.nodup_nil
  | case2 => exact List.nodup_singleton _
  | case3 left right rest inductionHypothesis =>
      obtain ⟨leftWidth, _, restEven⟩ := even.tail
      have restDistinct : rest.Nodup := (List.nodup_cons.mp (List.nodup_cons.mp distinct).2).2
      refine List.nodup_cons.mpr ⟨fun again => ?_, inductionHypothesis restEven restDistinct⟩
      -- a second join with the same text would start with the same node
      obtain ⟨first, firstInside, second, _, same⟩ := mem_joined again
      have widths : left.length = first.length := by
        rw [leftWidth, restEven first firstInside]
      have equal := (List.append_inj same widths).1
      have repeated : left ∈ right :: rest := by
        rw [equal]
        exact List.mem_cons_of_mem right firstInside
      exact (List.nodup_cons.mp distinct).1 repeated

/-- The joined texts determine distinct nodes of one width. -/
theorem joined_inj
    {width : Nat}
    {left right : List (List α)}
    (leftEven : Even width left)
    (rightEven : Even width right)
    (leftDistinct : left.Nodup)
    (rightDistinct : right.Nodup)
    (same : joined left = joined right) :
    left = right := by
  -- a doubled node is not a pair of distinct nodes
  have apart : ∀ {last first second : List α} {rest : List (List α)},
      last.length = width → Even width (first :: second :: rest) →
      (first :: second :: rest).Nodup → joined [last] ≠ joined (first :: second :: rest) := by
    intro last first second rest lastWidth even distinct equal
    obtain ⟨firstWidth, _, _⟩ := even.tail
    have texts := List.append_inj (List.cons.inj equal).1 (by rw [lastWidth, firstWidth])
    have repeated : first ∈ second :: rest := by
      rw [← texts.1, texts.2]
      exact List.mem_cons_self
    exact (List.nodup_cons.mp distinct).1 repeated
  fun_induction joined left generalizing right with
  | case1 =>
      by_contra different
      exact joined_ne_nil (Ne.symm different) same.symm
  | case2 last =>
      cases right with
      | nil => exact absurd same (List.cons_ne_nil _ _)
      | cons first others =>
          cases others with
          | nil =>
              have texts := (List.cons.inj same).1
              have widths : last.length = first.length := by
                rw [leftEven last (by simp), rightEven first (by simp)]
              rw [(List.append_inj texts widths).1]
          | cons second rest =>
              exact absurd same (apart (leftEven last (by simp)) rightEven rightDistinct)
  | case3 first second rest inductionHypothesis =>
      obtain ⟨firstWidth, secondWidth, restEven⟩ := leftEven.tail
      cases right with
      | nil => exact absurd same (List.cons_ne_nil _ _)
      | cons third others =>
          cases others with
          | nil => exact absurd same.symm (apart (rightEven third (by simp)) leftEven leftDistinct)
          | cons fourth others =>
              obtain ⟨thirdWidth, _, othersEven⟩ := rightEven.tail
              obtain ⟨texts, later⟩ := List.cons.inj same
              obtain ⟨rfl, rfl⟩ := List.append_inj texts (by rw [firstWidth, thirdWidth])
              have restDistinct := (List.nodup_cons.mp (List.nodup_cons.mp leftDistinct).2).2
              have othersDistinct := (List.nodup_cons.mp (List.nodup_cons.mp rightDistinct).2).2
              rw [inductionHypothesis restEven othersEven restDistinct othersDistinct later]

/-! ## The climb -/

/-- Digests have one width, and it is not zero. -/
structure Digests (hash : List α → List α) (width : Nat) : Prop where
  positive : 0 < width
  fixed : ∀ text, (hash text).length = width

variable {hash : List α → List α} {width : Nat} {inputs : Set (List α)}
  {left right layer : List (List α)}

theorem Digests.even_level
    (digests : Digests hash width)
    (layer : List (List α)) :
    Even width (level hash layer) := by
  intro node inside
  obtain ⟨text, _, rfl⟩ := List.mem_map.mp inside
  exact digests.fixed text

/-- Without collisions no level repeats a node. -/
theorem level_nodup
    (free : Set.InjOn hash inputs)
    (even : Even width layer)
    (distinct : layer.Nodup)
    (covered : ∀ text ∈ joined layer, text ∈ inputs) :
    (level hash layer).Nodup := by
  refine (List.nodup_map_iff_inj_on (joined_nodup even distinct)).mpr ?_
  intro text inside other otherInside same
  exact free (covered text inside) (covered other otherInside) same

/-- Equal levels have equal texts under them. -/
theorem joined_eq_of_level
    (free : Set.InjOn hash inputs)
    (leftCovered : ∀ text ∈ joined left, text ∈ inputs)
    (rightCovered : ∀ text ∈ joined right, text ∈ inputs)
    (same : level hash left = level hash right) :
    joined left = joined right := by
  refine eq_of_map_eq ?_ same
  intro text inside other otherInside digest
  exact free (leftCovered text inside) (rightCovered other otherInside) digest

/-- Climbs of one height that end alike started alike. -/
theorem climb_inj
    (digests : Digests hash width)
    (free : Set.InjOn hash inputs)
    {steps : Nat}
    (leftEven : Even width left)
    (rightEven : Even width right)
    (leftDistinct : left.Nodup)
    (rightDistinct : right.Nodup)
    (leftCovered : ∀ text ∈ hashed hash steps left, text ∈ inputs)
    (rightCovered : ∀ text ∈ hashed hash steps right, text ∈ inputs)
    (same : climb hash steps left = climb hash steps right) :
    left = right := by
  induction steps generalizing left right with
  | zero => exact same
  | succ steps inductionHypothesis =>
      have leftHere : ∀ text ∈ joined left, text ∈ inputs :=
        fun text inside => leftCovered text (List.mem_append_left _ inside)
      have rightHere : ∀ text ∈ joined right, text ∈ inputs :=
        fun text inside => rightCovered text (List.mem_append_left _ inside)
      have levels := inductionHypothesis (digests.even_level left) (digests.even_level right)
        (level_nodup free leftEven leftDistinct leftHere)
        (level_nodup free rightEven rightDistinct rightHere)
        (fun text inside => leftCovered text (List.mem_append_right _ inside))
        (fun text inside => rightCovered text (List.mem_append_right _ inside)) same
      exact joined_inj leftEven rightEven leftDistinct rightDistinct
        (joined_eq_of_level free leftHere rightHere levels)

theorem climb_add
    (hash : List α → List α)
    (first second : Nat)
    (layer : List (List α)) :
    climb hash (first + second) layer = climb hash second (climb hash first layer) := by
  induction first generalizing layer with
  | zero => rw [Nat.zero_add, climb]
  | succ first inductionHypothesis =>
      rw [Nat.succ_add, climb, inductionHypothesis, climb]

theorem hashed_add
    (hash : List α → List α)
    (first second : Nat)
    (layer : List (List α)) :
    hashed hash (first + second) layer =
      hashed hash first layer ++ hashed hash second (climb hash first layer) := by
  induction first generalizing layer with
  | zero => rw [Nat.zero_add, hashed, climb, List.nil_append]
  | succ first inductionHypothesis =>
      rw [Nat.succ_add, hashed, inductionHypothesis, hashed, climb, List.append_assoc]

/-- What a climb without collisions keeps. -/
theorem climb_even_nodup
    (digests : Digests hash width)
    (free : Set.InjOn hash inputs)
    {steps : Nat}
    (even : Even width layer)
    (distinct : layer.Nodup)
    (covered : ∀ text ∈ hashed hash steps layer, text ∈ inputs) :
    Even width (climb hash steps layer) ∧ (climb hash steps layer).Nodup := by
  induction steps generalizing layer with
  | zero => exact ⟨even, distinct⟩
  | succ steps inductionHypothesis =>
      refine inductionHypothesis (digests.even_level layer) ?_ ?_
      · refine level_nodup free even distinct ?_
        intro text inside
        exact covered text (List.mem_append_left _ inside)
      · intro text inside
        exact covered text (List.mem_append_right _ inside)

/-- Leaves are digests of texts longer than two digests. -/
def Leaves (hash : List α → List α) (width : Nat) (inputs : Set (List α))
    (layer : List (List α)) : Prop :=
  ∀ leaf ∈ layer, ∃ text ∈ inputs, 2 * width < text.length ∧ leaf = hash text

theorem Leaves.even
    (digests : Digests hash width)
    (leaves : Leaves hash width inputs layer) :
    Even width layer := by
  intro leaf inside
  obtain ⟨text, _, _, rfl⟩ := leaves leaf inside
  exact digests.fixed text

/-- Every node on the way up is the digest of a text that is not empty. -/
theorem Leaves.preimage_climb
    (digests : Digests hash width)
    (leaves : Leaves hash width inputs layer)
    {steps : Nat}
    (covered : ∀ text ∈ hashed hash steps layer, text ∈ inputs) :
    ∀ node ∈ climb hash steps layer, ∃ text ∈ inputs, text ≠ [] ∧ node = hash text := by
  have start : ∀ node ∈ layer, ∃ text ∈ inputs, text ≠ [] ∧ node = hash text := by
    intro node inside
    obtain ⟨text, textHashed, long, same⟩ := leaves node inside
    exact ⟨text, textHashed, List.length_pos_iff.mp (by omega), same⟩
  clear leaves
  induction steps generalizing layer with
  | zero => exact start
  | succ steps inductionHypothesis =>
      refine @inductionHypothesis (level hash layer)
        (fun text inside => covered text (List.mem_append_right _ inside)) ?_
      intro node inside
      obtain ⟨text, member, rfl⟩ := List.mem_map.mp inside
      refine ⟨text, covered text (List.mem_append_left _ member), ?_, rfl⟩
      obtain ⟨left, leftInside, right, _, rfl⟩ := mem_joined member
      obtain ⟨below, _, _, rfl⟩ := start left leftInside
      have positive := digests.positive
      rw [← digests.fixed below] at positive
      exact List.append_ne_nil_of_left_ne_nil (List.length_pos_iff.mp positive) _

/-- A node is no leaf. -/
theorem Leaves.ne_level
    (free : Set.InjOn hash inputs)
    (leaves : Leaves hash width inputs layer)
    (nonempty : layer ≠ [])
    {below : List (List α)}
    (even : Even width below)
    (covered : ∀ text ∈ joined below, text ∈ inputs) :
    layer ≠ level hash below := by
  rintro rfl
  obtain ⟨node, inside⟩ := List.exists_mem_of_ne_nil _ nonempty
  obtain ⟨text, textHashed, long, same⟩ := leaves node inside
  obtain ⟨other, member, rfl⟩ := List.mem_map.mp inside
  obtain rfl := free (covered other member) textHashed same
  obtain ⟨left, leftInside, right, rightInside, rfl⟩ := mem_joined member
  rw [List.length_append, even left leftInside, even right rightInside] at long
  omega

/-- Trees that end alike, of any heights, have the same leaves. -/
theorem leaves_inj
    (digests : Digests hash width)
    (free : Set.InjOn hash inputs)
    {leftSteps rightSteps : Nat}
    (leftLeaves : Leaves hash width inputs left)
    (rightLeaves : Leaves hash width inputs right)
    (leftNonempty : left ≠ [])
    (rightNonempty : right ≠ [])
    (leftDistinct : left.Nodup)
    (rightDistinct : right.Nodup)
    (leftCovered : ∀ text ∈ hashed hash leftSteps left, text ∈ inputs)
    (rightCovered : ∀ text ∈ hashed hash rightSteps right, text ∈ inputs)
    (same : climb hash leftSteps left = climb hash rightSteps right) :
    left = right := by
  -- the lower tree is as high as the upper part of the higher one
  have ordered : ∀ {low high : List (List α)} {steps extra : Nat},
      Leaves hash width inputs low → Leaves hash width inputs high → low ≠ [] → low.Nodup →
      high.Nodup → (∀ text ∈ hashed hash steps low, text ∈ inputs) →
      (∀ text ∈ hashed hash (extra + steps) high, text ∈ inputs) →
      climb hash steps low = climb hash (extra + steps) high → low = high := by
    intro low high steps extra lowLeaves highLeaves lowNonempty lowDistinct highDistinct
      lowCovered highCovered equal
    rw [hashed_add] at highCovered
    rw [climb_add] at equal
    have bottom : ∀ text ∈ hashed hash extra high, text ∈ inputs :=
      fun text inside => highCovered text (List.mem_append_left _ inside)
    obtain ⟨upperEven, upperDistinct⟩ :=
      climb_even_nodup digests free (highLeaves.even digests) highDistinct bottom
    have meet : low = climb hash extra high :=
      climb_inj digests free (lowLeaves.even digests) upperEven lowDistinct upperDistinct
        lowCovered (fun text inside => highCovered text (List.mem_append_right _ inside)) equal
    cases extra with
    | zero => exact meet
    | succ extra =>
        rw [climb_add hash extra 1] at meet
        rw [hashed_add] at bottom
        have lowest : ∀ text ∈ hashed hash extra high, text ∈ inputs :=
          fun text inside => bottom text (List.mem_append_left _ inside)
        have even :=
          (climb_even_nodup digests free (highLeaves.even digests) highDistinct lowest).1
        refine absurd meet (lowLeaves.ne_level free lowNonempty even fun text inside => ?_)
        refine bottom text (List.mem_append_right _ ?_)
        simpa only [hashed, List.append_nil] using inside
  rcases Nat.le_total leftSteps rightSteps with lower | higher
  · obtain ⟨extra, rfl⟩ := Nat.exists_eq_add_of_le' lower
    exact ordered leftLeaves rightLeaves leftNonempty leftDistinct rightDistinct leftCovered
      rightCovered same
  · obtain ⟨extra, rfl⟩ := Nat.exists_eq_add_of_le' higher
    exact (ordered rightLeaves leftLeaves rightNonempty rightDistinct leftDistinct rightCovered
      leftCovered same.symm).symm

end Merkle
end Library
