import Mathlib.Data.Nat.Digits.Lemmas
import Mathlib.Data.List.TakeWhile

/-!
# Changing the base of a numeral

A numeral is a list of digits, the most significant one first.  It is rebased by
writing its value in another base behind as many zeros as it starts with, and
rebasing it back undoes that.
-/

namespace Library
namespace Positional

variable {source target : Nat} {digits left right : List Nat}

/-- The value of a numeral. -/
def value (base : Nat) (digits : List Nat) : Nat := Nat.ofDigits base digits.reverse

/-- A numeral without leading zeros. -/
def write (base value : Nat) : List Nat := (Nat.digits base value).reverse

/-- The same value in another base, behind the same zeros. -/
def rebase (source target : Nat) : List Nat → List Nat
  | 0 :: rest => 0 :: rebase source target rest
  | digits => write target (value source digits)

theorem value_append_singleton
    (base digit : Nat)
    (digits : List Nat) :
    value base (digits ++ [digit]) = base * value base digits + digit := by
  rw [value, List.reverse_append, List.reverse_singleton, List.singleton_append,
    Nat.ofDigits_cons, Nat.add_comm, value]

theorem value_zero_cons
    (base : Nat)
    (digits : List Nat) :
    value base (0 :: digits) = value base digits := by
  rw [value, List.reverse_cons, Nat.ofDigits_append_zero, value]

theorem value_zeros_append
    (base zeros : Nat)
    (digits : List Nat) :
    value base (List.replicate zeros 0 ++ digits) = value base digits := by
  induction zeros with
  | zero => rfl
  | succ zeros inductionHypothesis =>
      rw [List.replicate_succ, List.cons_append, value_zero_cons, inductionHypothesis]

/-- Reading the digits one after the other gives the value. -/
theorem value_eq_foldl
    (base : Nat)
    (digits : List Nat) :
    value base digits = digits.foldl (fun sofar digit => base * sofar + digit) 0 := by
  induction digits using List.reverseRecOn with
  | nil => rfl
  | append_singleton earlier digit inductionHypothesis =>
      rw [value_append_singleton, inductionHypothesis, List.foldl_append]
      rfl

@[simp] theorem value_write (base number : Nat) : value base (write base number) = number := by
  rw [value, write, List.reverse_reverse, Nat.ofDigits_digits]

/-- A numeral without leading zeros is the one that its value is written as. -/
theorem write_value
    (several : 1 < source)
    (bounded : ∀ digit ∈ digits, digit < source)
    (first : digits.head? ≠ some 0) :
    write source (value source digits) = digits := by
  rw [write, value, Nat.digits_ofDigits source several, List.reverse_reverse]
  · simpa using bounded
  · intro nonempty zero
    apply first
    rw [← List.getLast?_reverse, List.getLast?_eq_some_getLast nonempty, zero]

theorem head_write (target number : Nat) : (write target number).head? ≠ some 0 := by
  intro zero
  rw [write, List.head?_reverse] at zero
  by_cases nothing : number = 0
  · simp [nothing] at zero
  · have nonempty : Nat.digits target number ≠ [] :=
      Nat.digits_ne_nil_iff_ne_zero.mpr nothing
    rw [List.getLast?_eq_some_getLast nonempty, Option.some.injEq] at zero
    exact Nat.getLast_digit_ne_zero target nothing zero

theorem rebase_of_head
    (first : digits.head? ≠ some 0) :
    rebase source target digits = write target (value source digits) := by
  rw [rebase]
  rintro rest rfl
  exact first rfl

/-- The zeros in front and the value behind them. -/
theorem rebase_eq (digits : List Nat) :
    rebase source target digits =
      digits.takeWhile (· = 0) ++ write target (value source digits) := by
  fun_induction rebase source target digits with
  | case1 rest inductionHypothesis =>
      rw [inductionHypothesis, value_zero_cons]
      simp
  | case2 digits nonzero =>
      have none : digits.takeWhile (· = 0) = [] := by
        cases digits with
        | nil => rfl
        | cons first rest =>
            have : first ≠ 0 := by
              rintro rfl
              exact nonzero rest rfl
            simp [this]
      rw [none, List.nil_append]

theorem rebase_lt
    (several : 1 < target)
    {digit : Nat}
    (inside : digit ∈ rebase source target digits) :
    digit < target := by
  fun_induction rebase source target digits with
  | case1 rest inductionHypothesis =>
      rcases List.mem_cons.mp inside with rfl | later
      · omega
      · exact inductionHypothesis later
  | case2 digits nonzero =>
      exact Nat.digits_lt_base several (List.mem_reverse.mp inside)

/-- Rebasing back gives the numeral. -/
theorem rebase_rebase
    (several : 1 < source)
    (bounded : ∀ digit ∈ digits, digit < source) :
    rebase target source (rebase source target digits) = digits := by
  fun_induction rebase source target digits with
  | case1 rest inductionHypothesis =>
      rw [rebase, inductionHypothesis (List.forall_mem_cons.mp bounded).2]
  | case2 digits nonzero =>
      have first : digits.head? ≠ some 0 := by
        intro zero
        obtain ⟨rest, rfl⟩ := List.head?_eq_some_iff.mp zero
        exact nonzero rest rfl
      rw [rebase_of_head (head_write target _), value_write,
        write_value several bounded first]

/-- Numerals that are rebased to the same one are equal. -/
theorem rebase_inj
    (several : 1 < source)
    (leftBounded : ∀ digit ∈ left, digit < source)
    (rightBounded : ∀ digit ∈ right, digit < source)
    (same : rebase source target left = rebase source target right) :
    left = right := by
  rw [← rebase_rebase several leftBounded, same,
    rebase_rebase several rightBounded]

end Positional
end Library
