import Mathlib.Data.Nat.Log
import Mathlib.Data.Rat.Lemmas
import Mathlib.Algebra.Order.Field.Rat
import Mathlib.Algebra.Order.Field.Power
import Mathlib.Tactic.FieldSimp
import Mathlib.Tactic.Linarith
import Mathlib.Tactic.Positivity
import Mathlib.Tactic.Ring
import Mathlib.Tactic.Zify

/-!
# Decimal arithmetic in a context

A decimal number is a sign, a coefficient and a power of ten.  Products are
exact and then fitted into a context of so many digits and a range of exponents,
rounding half to even.  What a rounding does is said on rational numbers: the
result is a multiple of a unit, no farther from the exact value than half of it,
and an even multiple when it is just as far.
-/

namespace Library

/-- `rounded` is the multiple of `unit` that is nearest to `exact`, the even one of two. -/
structure RoundsEven (unit exact rounded : ℚ) : Prop where
  multiple : ∃ count : ℤ, rounded = count * unit
  near : 2 * |exact - rounded| ≤ unit
  even : 2 * |exact - rounded| = unit → ∃ count : ℤ, rounded = 2 * count * unit

namespace RoundsEven

variable {unit exact rounded : ℚ}

/-- Multiples of a unit are no farther apart than a value is from both. -/
theorem gap_le
    (positive : 0 < unit)
    (exact left right : ℚ) :
    |left - right| * unit ≤ |exact - left * unit| + |exact - right * unit| := by
  calc
    |left - right| * unit = |left * unit - right * unit| := by
      rw [← sub_mul, abs_mul, abs_of_pos positive]
    _ ≤ |left * unit - exact| + |exact - right * unit| := abs_sub_le _ _ _
    _ = |exact - left * unit| + |exact - right * unit| := by
      rw [abs_sub_comm (left * unit)]

/-- An even multiple within half a unit is the result. -/
theorem eq_of_even
    (rounds : RoundsEven unit exact rounded)
    (positive : 0 < unit)
    {count : ℤ}
    (near : 2 * |exact - 2 * count * unit| ≤ unit) :
    rounded = 2 * count * unit := by
  obtain ⟨multiple, rfl⟩ := rounds.multiple
  have gap := gap_le positive exact multiple (2 * count)
  have apart : |(multiple : ℚ) - 2 * count| ≤ 1 := by
    apply le_of_mul_le_mul_right _ positive
    linarith [rounds.near]
  have apart : |multiple - 2 * count| ≤ 1 := by exact_mod_cast apart
  by_cases same : multiple = 2 * count
  · rw [same]
    push_cast
    ring
  · -- The result would be one unit away, and the value half way: then it is even too.
    exfalso
    have one : |multiple - 2 * count| = 1 := by
      have := abs_pos.mpr (sub_ne_zero.mpr same)
      omega
    have half : 2 * |exact - multiple * unit| = unit := by
      have one : |(multiple : ℚ) - 2 * count| = 1 := by exact_mod_cast one
      rw [one] at gap
      linarith [rounds.near]
    obtain ⟨other, twice⟩ := rounds.even half
    have equal : (multiple : ℚ) = 2 * other := mul_right_cancel₀ positive.ne' twice
    have equal : multiple = 2 * other := by exact_mod_cast equal
    rcases abs_eq (by decide) |>.mp one with above | below <;> omega

/-- A value that is a multiple of the unit is kept. -/
theorem eq_of_multiple
    (rounds : RoundsEven unit exact rounded)
    (positive : 0 < unit)
    {count : ℤ}
    (multiple : exact = count * unit) :
    rounded = exact := by
  obtain ⟨other, rfl⟩ := rounds.multiple
  have near := rounds.near
  rw [multiple, ← sub_mul, abs_mul, abs_of_pos positive] at near
  have close : 2 * |(count : ℚ) - other| ≤ 1 := by
    refine le_of_mul_le_mul_right ?_ positive
    linarith
  have close : 2 * |count - other| ≤ 1 := by exact_mod_cast close
  have same : count = other := by
    have := abs_nonneg (count - other)
    have zero : |count - other| = 0 := by omega
    exact sub_eq_zero.mp (abs_eq_zero.mp zero)
  rw [multiple, same]

/-- The result is the value just when the value is a multiple of the unit. -/
theorem eq_iff
    (rounds : RoundsEven unit exact rounded)
    (positive : 0 < unit) :
    rounded = exact ↔ ∃ count : ℤ, exact = count * unit := by
  constructor
  · rintro rfl
    exact rounds.multiple
  · rintro ⟨count, multiple⟩
    exact rounds.eq_of_multiple positive multiple

/-- The result is zero just when the value is within half a unit of it. -/
theorem eq_zero_iff
    (rounds : RoundsEven unit exact rounded)
    (positive : 0 < unit) :
    rounded = 0 ↔ 2 * |exact| ≤ unit := by
  constructor
  · rintro rfl
    simpa using rounds.near
  · intro near
    have zero : rounded = 2 * ((0 : ℤ) : ℚ) * unit := by
      apply rounds.eq_of_even positive
      simpa using near
    simpa using zero

/-- Rounding to a power of ten gives an integer just when an integer is within half of it. -/
theorem isInt_iff
    {place : ℤ}
    (rounds : RoundsEven (10 ^ place) exact rounded) :
    (∃ whole : ℤ, rounded = whole) ↔ ∃ whole : ℤ, 2 * |exact - whole| ≤ 10 ^ place := by
  constructor
  · rintro ⟨whole, rfl⟩
    exact ⟨whole, rounds.near⟩
  · rintro ⟨whole, near⟩
    obtain ⟨count, rfl⟩ := rounds.multiple
    rcases le_or_gt 0 place with coarse | fine
    · obtain ⟨power, rfl⟩ := Int.eq_ofNat_of_zero_le coarse
      exact ⟨count * 10 ^ power, by push_cast; rw [zpow_natCast]⟩
    · -- Below the decimal point an integer is an even multiple of the unit.
      obtain ⟨power, rfl⟩ : ∃ power : ℕ, place = -(power + 1 : ℕ) :=
        ⟨(-place - 1).toNat, by omega⟩
      have even : (whole : ℚ) =
          2 * ((whole * 5 * 10 ^ power : ℤ) : ℚ) * 10 ^ (-((power + 1 : ℕ) : ℤ)) := by
        rw [zpow_neg, zpow_natCast, pow_succ]
        push_cast
        field_simp
        ring
      rw [even] at near
      refine ⟨whole, ?_⟩
      rw [rounds.eq_of_even (by positivity) near, ← even]

/-- Rounding keeps a number from changing its sign. -/
theorem nonneg
    (rounds : RoundsEven unit exact rounded)
    (positive : 0 < unit)
    (size : 0 ≤ exact) :
    0 ≤ rounded := by
  obtain ⟨count, rfl⟩ := rounds.multiple
  by_contra negative
  have below : (count : ℚ) < 0 := neg_of_mul_neg_left (not_le.mp negative) positive.le
  have below : count < 0 := by exact_mod_cast below
  have below : (count : ℚ) ≤ -1 := by exact_mod_cast (show count ≤ -1 by omega)
  have far : count * unit ≤ -1 * unit := mul_le_mul_of_nonneg_right below positive.le
  have near : exact - count * unit ≤ |exact - count * unit| := le_abs_self _
  linarith [rounds.near]

theorem neg
    (rounds : RoundsEven unit exact rounded) :
    RoundsEven unit (-exact) (-rounded) := by
  have distance : |-exact - -rounded| = |exact - rounded| := by
    rw [neg_sub_neg, abs_sub_comm]
  refine ⟨?_, by rw [distance]; exact rounds.near, ?_⟩
  · obtain ⟨count, rfl⟩ := rounds.multiple
    exact ⟨-count, by push_cast; ring⟩
  · intro half
    rw [distance] at half
    obtain ⟨count, rfl⟩ := rounds.even half
    exact ⟨-count, by push_cast; ring⟩

theorem scale
    {factor : ℚ}
    (rounds : RoundsEven unit exact rounded)
    (positive : 0 < factor) :
    RoundsEven (unit * factor) (exact * factor) (rounded * factor) := by
  have distance : |exact * factor - rounded * factor| = |exact - rounded| * factor := by
    rw [← sub_mul, abs_mul, abs_of_pos positive]
  refine ⟨?_, ?_, ?_⟩
  · obtain ⟨count, rfl⟩ := rounds.multiple
    exact ⟨count, by ring⟩
  · rw [distance, ← mul_assoc]
    exact mul_le_mul_of_nonneg_right rounds.near positive.le
  · intro half
    rw [distance, ← mul_assoc] at half
    obtain ⟨count, rfl⟩ := rounds.even (mul_right_cancel₀ positive.ne' half)
    exact ⟨count, by ring⟩

/-- A multiple of the unit rounds to itself. -/
theorem refl_of_multiple
    {count : ℤ}
    (positive : 0 < unit)
    (multiple : exact = count * unit) :
    RoundsEven unit exact exact := by
  refine ⟨⟨count, multiple⟩, by simpa using positive.le, ?_⟩
  intro half
  simp only [sub_self, abs_zero, mul_zero] at half
  exact absurd half positive.ne

end RoundsEven

/-- A number with a sign, a coefficient and a power of ten. -/
structure Decimal where
  negative : Bool
  coefficient : Nat
  exponent : Int
  deriving DecidableEq

namespace Decimal

/-- The sign of a number, also of a zero. -/
def sign (number : Decimal) : Int := if number.negative then -1 else 1

/-- The number a decimal stands for. -/
def value (number : Decimal) : ℚ :=
  number.sign * (number.coefficient * 10 ^ number.exponent)

/-- How many digits a coefficient is written with. -/
def length (coefficient : Nat) : Nat := Nat.log 10 coefficient + 1

/-- How many digits the coefficient of a number is written with. -/
def digits (number : Decimal) : Nat := length number.coefficient

/-- `coefficient` without its last `dropped` digits, rounded half to even. -/
def roundHalfEven (coefficient dropped : Nat) : Nat :=
  let kept := coefficient / 10 ^ dropped
  let rest := coefficient % 10 ^ dropped
  if 2 * rest < 10 ^ dropped then kept
  else if 2 * rest = 10 ^ dropped ∧ kept % 2 = 0 then kept
  else kept + 1

/-- The exact product. -/
def mul (left right : Decimal) : Decimal where
  negative := left.negative != right.negative
  coefficient := left.coefficient * right.coefficient
  exponent := left.exponent + right.exponent

/-- The nearest integer, as a decimal. -/
def toIntegralValue (number : Decimal) : Decimal :=
  if 0 ≤ number.exponent then number
  else { number with
    coefficient := roundHalfEven number.coefficient (-number.exponent).toNat
    exponent := 0 }

/-- The signed coefficient of a number written with a smaller exponent. -/
def aligned (number : Decimal) (place : Int) : Int :=
  number.sign * (number.coefficient * 10 ^ (number.exponent - place).toNat : Nat)

/-- Numbers are compared at the smaller of their exponents. -/
def numericEq (left right : Decimal) : Bool :=
  let place := min left.exponent right.exponent
  left.aligned place = right.aligned place

/-- Whether a number is below zero; the negative zero is not. -/
def isNegative (number : Decimal) : Bool := number.negative && number.coefficient != 0

/-- The integer part. -/
def toInt (number : Decimal) : Int :=
  number.sign *
    (if 0 ≤ number.exponent then number.coefficient * 10 ^ number.exponent.toNat
      else number.coefficient / 10 ^ (-number.exponent).toNat : Nat)

@[simp] theorem sign_mul (left right : Decimal) :
    (left.mul right).sign = left.sign * right.sign := by
  rw [sign, sign, sign, mul]
  cases first : left.negative <;> cases second : right.negative <;> rfl

@[simp] theorem abs_sign (number : Decimal) : |number.sign| = 1 := by
  rw [sign]
  split_ifs <;> rfl

theorem abs_value (number : Decimal) :
    |number.value| = number.coefficient * 10 ^ number.exponent := by
  have size : (0 : ℚ) ≤ number.coefficient * 10 ^ number.exponent := by positivity
  rw [value, abs_mul, abs_of_nonneg size, ← Int.cast_abs, abs_sign, Int.cast_one, one_mul]

/-- A number is as far from another of its sign as their sizes are apart. -/
theorem abs_value_sub (number : Decimal) (size : ℚ) :
    |number.value - number.sign * size| = |(|number.value|) - size| := by
  rw [abs_value, value, ← mul_sub, abs_mul, ← Int.cast_abs, abs_sign, Int.cast_one, one_mul]

@[simp] theorem value_mul (left right : Decimal) :
    (left.mul right).value = left.value * right.value := by
  have powers : (10 : ℚ) ^ (left.exponent + right.exponent) =
      10 ^ left.exponent * 10 ^ right.exponent := zpow_add₀ (by norm_num) _ _
  rw [value, sign_mul, value, value, mul, powers]
  push_cast
  ring

theorem value_eq_zero_iff (number : Decimal) :
    number.value = 0 ↔ number.coefficient = 0 := by
  rw [← abs_eq_zero, abs_value]
  simp [zpow_ne_zero]

/-- The digits bound the number from above. -/
theorem abs_value_lt (number : Decimal) :
    |number.value| < 10 ^ (number.digits + number.exponent) := by
  have below : (number.coefficient : ℚ) < 10 ^ number.digits := by
    exact_mod_cast Nat.lt_pow_succ_log_self (by decide) number.coefficient
  rw [abs_value, zpow_add₀ (by norm_num), zpow_natCast]
  exact mul_lt_mul_of_pos_right below (by positivity)

/-- A number reaches the power of ten of its leading digit and no larger one. -/
theorem pow_le_abs_value_iff
    (number : Decimal)
    (nonzero : number.coefficient ≠ 0)
    (place : Int) :
    10 ^ place ≤ |number.value| ↔ place < number.digits + number.exponent := by
  constructor
  · intro reached
    have powers : (10 : ℚ) ^ place < 10 ^ (number.digits + number.exponent) :=
      reached.trans_lt number.abs_value_lt
    exact (zpow_lt_zpow_iff_right₀ (by norm_num)).mp powers
  · intro below
    have leading : (10 : ℚ) ^ (number.digits - 1) ≤ number.coefficient := by
      exact_mod_cast Nat.pow_log_le_self 10 nonzero
    calc
      (10 : ℚ) ^ place ≤ 10 ^ ((number.digits - 1 : Nat) + number.exponent) := by
        apply zpow_le_zpow_right₀ (by norm_num)
        have : 0 < number.digits := Nat.succ_pos _
        omega
      _ = 10 ^ (number.digits - 1) * 10 ^ number.exponent := by
        rw [zpow_add₀ (by norm_num), zpow_natCast]
      _ ≤ |number.value| := by
        rw [abs_value]
        exact mul_le_mul_of_nonneg_right leading (by positivity)

theorem isNegative_iff (number : Decimal) : number.isNegative = true ↔ number.value < 0 := by
  have size : (0 : ℚ) < 10 ^ number.exponent := by positivity
  rw [isNegative, value, sign]
  cases number.negative with
  | false => simpa using (mul_nonneg (Nat.cast_nonneg number.coefficient) size.le)
  | true =>
      have positive : (0 : ℚ) < number.coefficient * 10 ^ number.exponent ↔
          number.coefficient ≠ 0 := by
        rw [mul_pos_iff_of_pos_right size, Nat.cast_pos, Nat.pos_iff_ne_zero]
      simpa using positive.symm

theorem value_eq_aligned
    (number : Decimal)
    {place : Int}
    (below : place ≤ number.exponent) :
    number.value = number.aligned place * 10 ^ place := by
  have power : (10 : ℚ) ^ number.exponent =
      10 ^ (number.exponent - place).toNat * 10 ^ place := by
    rw [← zpow_natCast, ← zpow_add₀ (by norm_num)]
    congr 1
    omega
  rw [value, aligned, power]
  push_cast
  ring

theorem numericEq_iff (left right : Decimal) :
    left.numericEq right = true ↔ left.value = right.value := by
  rw [numericEq, decide_eq_true_eq, left.value_eq_aligned (min_le_left _ _),
    right.value_eq_aligned (min_le_right _ _), mul_left_inj' (by positivity), Int.cast_inj]

/-- A coefficient has more digits than so many when it reaches that power of ten. -/
theorem lt_length_iff
    {kept : Nat}
    (positive : 0 < kept)
    (coefficient : Nat) :
    kept < length coefficient ↔ 10 ^ kept ≤ coefficient := by
  rw [length, Nat.lt_succ_iff]
  by_cases zero : coefficient = 0
  · simp [zero, positive.ne']
  · exact Nat.le_log_iff_pow_le (by decide) zero

/-- Zeros at the end of a coefficient add to its digits. -/
theorem length_mul_pow
    {coefficient : Nat}
    (nonzero : coefficient ≠ 0)
    (places : Nat) :
    length (coefficient * 10 ^ places) = length coefficient + places := by
  induction places with
  | zero => simp
  | succ places inductionHypothesis =>
      have shorter : coefficient * 10 ^ places ≠ 0 := by positivity
      rw [length] at inductionHypothesis ⊢
      rw [pow_succ, ← mul_assoc, Nat.log_mul_base (by decide) shorter]
      omega

/-- A coefficient keeps its digits but the dropped ones, up to a carry. -/
theorem roundHalfEven_le
    {coefficient dropped kept : Nat}
    (small : coefficient < 10 ^ (kept + dropped)) :
    roundHalfEven coefficient dropped ≤ 10 ^ kept := by
  rw [pow_add] at small
  have quotient := Nat.div_lt_of_lt_mul (Nat.mul_comm (10 ^ kept) _ ▸ small)
  rw [roundHalfEven]
  split_ifs <;> omega

/-- Dropping digits rounds the coefficient to a power of ten. -/
theorem roundsEven_roundHalfEven (coefficient dropped : Nat) :
    RoundsEven (10 ^ dropped) coefficient
      (roundHalfEven coefficient dropped * 10 ^ dropped) := by
  have split : (coefficient : ℚ) =
      (coefficient / 10 ^ dropped : Nat) * 10 ^ dropped + (coefficient % 10 ^ dropped : Nat) := by
    exact_mod_cast (Nat.div_add_mod' coefficient (10 ^ dropped)).symm
  have small : coefficient % 10 ^ dropped < 10 ^ dropped := Nat.mod_lt _ (by positivity)
  have cast : ((10 ^ dropped : Nat) : ℚ) = 10 ^ dropped := by push_cast; rfl
  rw [roundHalfEven]
  generalize coefficient / 10 ^ dropped = kept at split ⊢
  generalize coefficient % 10 ^ dropped = rest at split small ⊢
  generalize (10 : ℚ) ^ dropped = unit at split cast ⊢
  generalize 10 ^ dropped = power at small cast ⊢
  subst cast
  have down : |(coefficient : ℚ) - kept * power| = rest := by
    rw [split, add_sub_cancel_left, abs_of_nonneg (by positivity)]
  have up : |(coefficient : ℚ) - (kept + 1 : Nat) * power| = power - rest := by
    have gap : (coefficient : ℚ) - (kept + 1 : Nat) * power = -(power - rest) := by
      rw [split]
      push_cast
      ring
    have small : (rest : ℚ) ≤ power := by exact_mod_cast small.le
    rw [gap, abs_neg, abs_of_nonneg (by linarith)]
  split_ifs with below half
  · refine ⟨⟨kept, by push_cast; rfl⟩, ?_, ?_⟩ <;> rw [down]
    · exact_mod_cast below.le
    · intro equal
      have equal : 2 * rest = power := by exact_mod_cast equal
      omega
  · obtain ⟨half, even⟩ := half
    refine ⟨⟨kept, by push_cast; rfl⟩, ?_, ?_⟩
    · rw [down]
      exact_mod_cast half.le
    · intro _
      obtain ⟨count, rfl⟩ := Nat.dvd_of_mod_eq_zero even
      exact ⟨count, by push_cast; ring⟩
  · refine ⟨⟨kept + 1, by push_cast; rfl⟩, ?_, ?_⟩ <;> rw [up]
    · have above : (power : ℚ) ≤ 2 * rest := by exact_mod_cast Nat.le_of_not_lt below
      linarith
    · intro equal
      have equal : (2 : ℚ) * rest = power := by linarith
      have equal : 2 * rest = power := by exact_mod_cast equal
      obtain ⟨count, odd⟩ : ∃ count, kept = 2 * count + 1 := ⟨kept / 2, by omega⟩
      exact ⟨count + 1, by rw [odd]; push_cast; ring⟩

/-- A number written with fewer digits, rounded at the place of the last one kept. -/
theorem roundsEven_value
    (number : Decimal)
    (place : Int)
    (above : number.exponent ≤ place) :
    RoundsEven (10 ^ place) number.value
      (number.sign *
        (roundHalfEven number.coefficient (place - number.exponent).toNat * 10 ^ place)) := by
  have power : (10 : ℚ) ^ place =
      10 ^ (place - number.exponent).toNat * 10 ^ number.exponent := by
    rw [← zpow_natCast, ← zpow_add₀ (by norm_num)]
    congr 1
    omega
  have size := (roundsEven_roundHalfEven number.coefficient
    (place - number.exponent).toNat).scale (show (0 : ℚ) < 10 ^ number.exponent by positivity)
  rw [← power, mul_assoc, ← power] at size
  rw [value, sign]
  split_ifs
  · simpa using size.neg
  · simpa using size

/-- A number whose last digit is at or above a place is a multiple of its unit. -/
theorem exists_multiple
    (number : Decimal)
    {place : Int}
    (below : place ≤ number.exponent) :
    ∃ count : ℤ, number.value = count * 10 ^ place :=
  ⟨number.aligned place, number.value_eq_aligned below⟩

/-- A number equals its nearest integer just when it is one. -/
theorem numericEq_toIntegralValue_iff (number : Decimal) :
    number.numericEq number.toIntegralValue = true ↔
      ∃ whole : ℤ, number.value = whole := by
  rw [numericEq_iff, toIntegralValue]
  split_ifs with integral
  · have multiple := number.exists_multiple integral
    simpa using multiple
  · have rounds := number.roundsEven_value 0 (by omega)
    simp only [zpow_zero, mul_one, zero_sub] at rounds
    have same := rounds.eq_iff (by norm_num)
    simp only [mul_one] at same
    rw [← same, eq_comm, value, value, sign, sign]
    simp

/-- The integer part of an integer is the integer. -/
theorem toInt_eq
    {number : Decimal}
    {whole : ℤ}
    (integral : number.value = whole) :
    number.toInt = whole := by
  rw [toInt]
  split_ifs with coarse
  · have exact := number.value_eq_aligned coarse
    rw [integral, zpow_zero, mul_one, aligned, sub_zero] at exact
    exact_mod_cast exact.symm
  · obtain ⟨places, fine⟩ : ∃ places : Nat, number.exponent = -places :=
      ⟨(-number.exponent).toNat, by omega⟩
    have unit : number.sign * number.sign = 1 := by rw [← sq, ← sq_abs, abs_sign, one_pow]
    have size : (number.coefficient : ℚ) = number.sign * whole * 10 ^ places := by
      have unit : (number.sign : ℚ) * number.sign = 1 := by exact_mod_cast unit
      rw [value, fine, zpow_neg, zpow_natCast] at integral
      rw [← integral, ← mul_assoc, unit]
      field_simp
    have size : (number.coefficient : ℤ) = number.sign * whole * 10 ^ places := by
      exact_mod_cast size
    rw [fine, neg_neg, Int.toNat_natCast]
    push_cast
    rw [size, Int.mul_ediv_cancel _ (by positivity), ← mul_assoc, unit, one_mul]

end Decimal

/-- How many digits a result may have and how far its exponent may go. -/
structure DecimalContext where
  prec : Nat
  emax : Int
  emin : Int
  positive : 0 < prec
  ordered : emin ≤ emax

namespace DecimalContext

/-- The smallest exponent of a result. -/
def etiny (context : DecimalContext) : Int := context.emin - (context.prec - 1)

/-- The largest exponent of a result with all its digits. -/
def etop (context : DecimalContext) : Int := context.emax - (context.prec - 1)

/-- The last place that a result as large as the number keeps. -/
def lastPlace (context : DecimalContext) (number : Decimal) : Int :=
  max (number.digits + number.exponent - context.prec) context.etiny

/-- A number fitted into the context; `none` when its exponent overflows. -/
def fix (context : DecimalContext) (number : Decimal) : Option Decimal :=
  if number.coefficient = 0 then
    some { number with exponent := min (max number.exponent context.etiny) context.emax }
  else if context.etop < number.digits + number.exponent - context.prec then none
  else
    let place := context.lastPlace number
    if number.exponent < place then
      let coefficient :=
        Decimal.roundHalfEven number.coefficient (place - number.exponent).toNat
      -- A carry may leave one digit too many, the last of them a zero.
      if context.prec < Decimal.length coefficient then
        if context.etop < place + 1 then none
        else some { number with coefficient := coefficient / 10, exponent := place + 1 }
      else some { number with coefficient := coefficient, exponent := place }
    else some number

variable (context : DecimalContext) (number : Decimal)

/-- All digits of the largest exponent reach the first number out of range. -/
theorem pow_prec_mul :
    (10 : ℚ) ^ context.prec * 10 ^ context.etop = 10 ^ (context.emax + 1) := by
  rw [← zpow_natCast, ← zpow_add₀ (by norm_num), etop]
  congr 1
  ring

theorem abs_value_lt :
    |number.value| < 10 ^ context.prec * 10 ^ context.lastPlace number := by
  rw [← zpow_natCast, ← zpow_add₀ (by norm_num)]
  apply number.abs_value_lt.trans_le
  apply zpow_le_zpow_right₀ (by norm_num)
  rw [lastPlace]
  omega

/-- What fitting does to a number in range: it keeps at most so many digits, and a carry out
of the largest exponent overflows. -/
structure Kept (kept : Nat) : Prop where
  inRange : context.lastPlace number ≤ context.etop
  rounds : RoundsEven (10 ^ context.lastPlace number) number.value
    (number.sign * (kept * 10 ^ context.lastPlace number))
  bounded : kept ≤ 10 ^ context.prec
  fitted : (context.fix number = none ∧ kept = 10 ^ context.prec ∧
      context.lastPlace number = context.etop) ∨
    ∃ result, context.fix number = some result ∧
      result.value = number.sign * (kept * 10 ^ context.lastPlace number) ∧
      (kept = 10 ^ context.prec → context.lastPlace number < context.etop)

theorem lastPlace_le
    {number : Decimal}
    (inRange : ¬ context.etop < number.digits + number.exponent - context.prec) :
    context.lastPlace number ≤ context.etop := by
  have := context.ordered
  rw [lastPlace, max_le_iff, etiny, etop]
  rw [etop] at inRange
  omega

/-- Fitting a number that has digits to lose. -/
theorem kept_of_rounded
    (nonzero : number.coefficient ≠ 0)
    (inRange : ¬ context.etop < number.digits + number.exponent - context.prec)
    (fine : number.exponent < context.lastPlace number) :
    context.Kept number (Decimal.roundHalfEven number.coefficient
      (context.lastPlace number - number.exponent).toNat) := by
  have top := context.lastPlace_le inRange
  have bounded : Decimal.roundHalfEven number.coefficient
      (context.lastPlace number - number.exponent).toNat ≤ 10 ^ context.prec := by
    apply Decimal.roundHalfEven_le
    apply (Nat.lt_pow_succ_log_self (by decide : 1 < 10) number.coefficient).trans_le
    apply Nat.pow_le_pow_right (by decide)
    have place : number.digits + number.exponent - context.prec ≤ context.lastPlace number :=
      le_max_left _ _
    rw [Decimal.digits, Decimal.length] at place
    omega
  refine ⟨top, number.roundsEven_value _ fine.le, bounded, ?_⟩
  simp only [fix, if_neg nonzero, if_neg inRange, if_pos fine,
    Decimal.lt_length_iff context.positive]
  generalize Decimal.roundHalfEven number.coefficient
    (context.lastPlace number - number.exponent).toNat = kept at bounded
  split_ifs with carry above
  · exact Or.inl ⟨rfl, by omega, by omega⟩
  · refine Or.inr ⟨_, rfl, ?_, fun _ => by omega⟩
    have whole : kept = 10 ^ context.prec := by omega
    have tenth : kept = 10 * (kept / 10) := by
      have := dvd_pow_self 10 context.positive.ne'
      omega
    have power : (10 : ℚ) ^ (context.lastPlace number + 1) =
        10 ^ context.lastPlace number * 10 := zpow_add_one₀ (by norm_num) _
    rw [Decimal.value, power]
    generalize kept / 10 = rest at tenth ⊢
    rw [tenth, Decimal.sign, Decimal.sign]
    push_cast
    ring
  · refine Or.inr ⟨_, rfl, rfl, ?_⟩
    intro full
    omega

/-- Fitting a number that has no digits to lose. -/
theorem kept_of_exact
    (nonzero : number.coefficient ≠ 0)
    (inRange : ¬ context.etop < number.digits + number.exponent - context.prec)
    (exact : ¬ number.exponent < context.lastPlace number) :
    context.Kept number
      (number.coefficient * 10 ^ (number.exponent - context.lastPlace number).toNat) := by
  have written := number.value_eq_aligned (not_lt.mp exact)
  have size := context.abs_value_lt number
  have fitted : context.fix number = some number := by
    simp only [fix, if_neg nonzero, if_neg inRange, if_neg exact]
  have unit : (0 : ℚ) < 10 ^ context.lastPlace number := by positivity
  rw [Decimal.aligned] at written
  generalize number.coefficient * 10 ^ (number.exponent - context.lastPlace number).toNat = kept
    at written ⊢
  have value : number.value = number.sign * (kept * 10 ^ context.lastPlace number) := by
    rw [written]
    push_cast
    ring
  have small : kept < 10 ^ context.prec := by
    rw [value, abs_mul, ← Int.cast_abs, Decimal.abs_sign, Int.cast_one, one_mul,
      abs_of_nonneg (by positivity)] at size
    exact_mod_cast lt_of_mul_lt_mul_right size unit.le
  refine ⟨context.lastPlace_le inRange, ?_, small.le,
    Or.inr ⟨number, fitted, value, fun full => absurd full small.ne⟩⟩
  rw [← value]
  exact RoundsEven.refl_of_multiple unit written

/-- A number out of range overflows, any other keeps some of its digits. -/
theorem fix_cases (nonzero : number.coefficient ≠ 0) :
    (10 ^ (context.emax + 1) ≤ |number.value| ∧ context.fix number = none) ∨
      |number.value| < 10 ^ (context.emax + 1) ∧ ∃ kept, context.Kept number kept := by
  have reaches := number.pow_le_abs_value_iff nonzero (context.emax + 1)
  have top : context.etop < number.digits + number.exponent - context.prec ↔
      10 ^ (context.emax + 1) ≤ |number.value| := by
    rw [reaches, etop]
    constructor <;> intro <;> omega
  by_cases inRange : context.etop < number.digits + number.exponent - context.prec
  · refine Or.inl ⟨top.mp inRange, ?_⟩
    rw [fix, if_neg nonzero, if_pos inRange]
  · refine Or.inr ⟨lt_of_not_ge fun reached => inRange (top.mpr reached), ?_⟩
    by_cases fine : number.exponent < context.lastPlace number
    · exact ⟨_, context.kept_of_rounded number nonzero inRange fine⟩
    · exact ⟨_, context.kept_of_exact number nonzero inRange fine⟩

/-- A zero stays a zero. -/
theorem value_of_fix_zero
    {number result : Decimal}
    (fitted : context.fix number = some result)
    (zero : number.coefficient = 0) :
    result.value = 0 := by
  rw [fix, if_pos zero, Option.some.injEq] at fitted
  rw [← fitted]
  exact (Decimal.value_eq_zero_iff _).mpr zero

/-- A fitted number is the exact one, rounded at the last place kept. -/
theorem roundsEven_of_fix
    {number result : Decimal}
    (fitted : context.fix number = some result)
    (nonzero : number.coefficient ≠ 0) :
    RoundsEven (10 ^ context.lastPlace number) number.value result.value := by
  rcases context.fix_cases number nonzero with ⟨_, overflow⟩ | ⟨_, kept, spec⟩
  · rw [overflow] at fitted
    cases fitted
  · rcases spec.fitted with ⟨overflow, _⟩ | ⟨same, found, value, _⟩
    · rw [overflow] at fitted
      cases fitted
    · rw [found, Option.some.injEq] at fitted
      rw [← fitted, value]
      exact spec.rounds

/-- Half a unit of the largest exponent below the first power of ten out of range. -/
theorem Kept.limit_reached_iff
    {context : DecimalContext}
    {number : Decimal}
    {kept : Nat}
    (spec : context.Kept number kept)
    (small : |number.value| < 10 ^ (context.emax + 1)) :
    2 * 10 ^ (context.emax + 1) ≤ 2 * |number.value| + 10 ^ context.etop ↔
      kept = 10 ^ context.prec ∧ context.lastPlace number = context.etop := by
  have unit : (0 : ℚ) < 10 ^ context.etop := by positivity
  have limit := context.pow_prec_mul
  constructor
  · intro reached
    obtain ⟨lower, digits⟩ : ∃ lower, context.prec = lower + 1 :=
      ⟨context.prec - 1, (Nat.succ_pred context.positive.ne').symm⟩
    have ten : (10 : ℚ) ^ context.prec = 10 * 10 ^ lower := by rw [digits, pow_succ']
    have many : (1 : ℚ) ≤ 10 ^ lower := one_le_pow₀ (by norm_num)
    have top : context.lastPlace number = context.etop := by
      -- One place lower, all digits together stay below a tenth of the limit.
      by_contra other
      have below : (10 : ℚ) ^ (context.lastPlace number + 1) ≤ 10 ^ context.etop := by
        apply zpow_le_zpow_right₀ (by norm_num)
        have := spec.inRange
        omega
      have size := context.abs_value_lt number
      rw [zpow_add_one₀ (by norm_num)] at below
      rw [ten] at size limit
      nlinarith
    have half : 2 * |number.value - number.sign * 10 ^ (context.emax + 1)| ≤
        10 ^ context.etop := by
      rw [Decimal.abs_value_sub, abs_of_neg (by linarith)]
      linarith
    have even : (number.sign : ℚ) * 10 ^ (context.emax + 1) =
        2 * ((number.sign * 5 * 10 ^ lower : ℤ) : ℚ) * 10 ^ context.etop := by
      rw [← limit, ten]
      push_cast
      ring
    have rounds := spec.rounds
    rw [top] at rounds
    rw [even] at half
    have result := rounds.eq_of_even unit half
    rw [← even, ← limit] at result
    have sign : (number.sign : ℚ) ≠ 0 := by
      have := number.abs_sign
      exact_mod_cast abs_ne_zero.mp (by omega)
    have full := mul_right_cancel₀ unit.ne' (mul_left_cancel₀ sign result)
    exact ⟨by exact_mod_cast full, top⟩
  · rintro ⟨full, top⟩
    have near := spec.rounds.near
    rw [top, full, Decimal.abs_value_sub] at near
    push_cast at near
    rw [limit, abs_of_neg (by linarith)] at near
    linarith

/-- A number overflows when it is less than half a unit of the largest exponent below the
first power of ten out of range. -/
theorem fix_eq_none_iff :
    context.fix number = none ↔
      2 * 10 ^ (context.emax + 1) ≤ 2 * |number.value| + 10 ^ context.etop := by
  have unit : (0 : ℚ) < 10 ^ context.etop := by positivity
  by_cases zero : number.coefficient = 0
  · have small : (10 : ℚ) ^ context.etop < 10 ^ (context.emax + 1) := by
      apply zpow_lt_zpow_right₀ (by norm_num)
      have := context.positive
      rw [etop]
      omega
    rw [fix, if_pos zero, number.value_eq_zero_iff.mpr zero]
    simp
    linarith
  · rcases context.fix_cases number zero with ⟨large, overflow⟩ | ⟨small, kept, spec⟩
    · simp only [overflow, true_iff]
      linarith
    · rw [spec.limit_reached_iff small]
      rcases spec.fitted with ⟨overflow, full, top⟩ | ⟨result, found, _, below⟩
      · exact iff_of_true overflow ⟨full, top⟩
      · refine iff_of_false (by simp [found]) ?_
        rintro ⟨full, top⟩
        exact (below full).ne top

end DecimalContext

end Library
