import Mindees.Core.Primitives
import Mindees.Library.Decimal
import Mathlib.Data.Nat.Digits.Defs

/-!
# Amounts on the command line

The wallet reads an amount of coins as a decimal number and converts it to base
units.  The product with the number of base units of a coin is fitted into the
default context before the amount is checked, so what an amount converts to
depends on the digits that the context keeps.
-/

namespace Mindees

open Library

/-- `DECIMALS`. -/
def DECIMALS : Nat := 8

/-- `SYMBOL`. -/
def SYMBOL : String := "MIND"

/-! ## Reading a number -/

/-- What `decimal.Decimal` makes of a text. -/
inductive Numeral
  | finite (number : Decimal)
  | infinity (negative : Bool)
  | nan (signaling : Bool)
  deriving DecidableEq

namespace Numeral

/-- The white space that `str.strip` removes. -/
def isSpace (char : Char) : Bool :=
  let code := char.toNat
  (9 ≤ code && code ≤ 13) || (28 ≤ code && code ≤ 32) || code = 133 || code = 160 ||
    code = 5760 || (8192 ≤ code && code ≤ 8202) || code = 8232 || code = 8233 ||
    code = 8239 || code = 8287 || code = 12288

/-- The text without white space at its ends and without underscores. -/
def strip (value : Str) : Str :=
  (value.dropWhile isSpace).reverse.dropWhile isSpace |>.reverse.filter (· ≠ '_')

/-- The decimal digits of other scripts in ASCII. -/
def asciiDigits [Digits] (text : Str) : Str :=
  text.map fun char =>
    if char.toNat < 128 then char else ((Digits.value char).map hexDigit).getD char

/-- An optional sign and what follows it. -/
def readSign : Str → Bool × Str
  | '-' :: rest => (true, rest)
  | '+' :: rest => (false, rest)
  | text => (false, text)

/-- An optional exponent that ends the text. -/
def readExponent : Str → Option Int
  | [] => some 0
  | mark :: rest =>
      let (negative, digits) := readSign rest
      if mark.toLower = 'e' ∧ digits ≠ [] ∧ digits.all Char.isDigit then
        let magnitude : Int := Nat.ofDigitChars 10 digits 0
        some (if negative then -magnitude else magnitude)
      else none

/-- Digits with an optional point among them and an optional exponent. -/
def readFinite (negative : Bool) (value : Str) : Option Decimal :=
  let whole := value.takeWhile Char.isDigit
  let rest := value.dropWhile Char.isDigit
  let (fraction, rest) :=
    if rest.head? = some '.' then
      (rest.tail.takeWhile Char.isDigit, rest.tail.dropWhile Char.isDigit)
    else ([], rest)
  if whole = [] ∧ fraction = [] then none
  else (readExponent rest).map fun exponent =>
    { negative
      coefficient := Nat.ofDigitChars 10 (whole ++ fraction) 0
      exponent := exponent - fraction.length }

/-- The names of the numbers that are not finite. -/
def readSpecial (negative : Bool) (value : Str) : Option Numeral :=
  match value.map Char.toLower with
  | ['i', 'n', 'f'] => some (.infinity negative)
  | ['i', 'n', 'f', 'i', 'n', 'i', 't', 'y'] => some (.infinity negative)
  | 'n' :: 'a' :: 'n' :: payload => if payload.all Char.isDigit then some (.nan false) else none
  | 's' :: 'n' :: 'a' :: 'n' :: payload =>
      if payload.all Char.isDigit then some (.nan true) else none
  | _ => none

/-- The widest context; a number is read exactly or not at all. -/
def maxContext : DecimalContext where
  prec := 999999999999999999
  emax := 999999999999999999
  emin := -999999999999999999
  positive := by decide
  ordered := by decide

/-- `Decimal(value)`; `none` stands for its `InvalidOperation`. -/
def read [Digits] (value : Str) : Option Numeral :=
  let (negative, rest) := readSign (asciiDigits (strip value))
  match readFinite negative rest with
  | some number => if maxContext.fix number = some number then some (.finite number) else none
  | none => readSpecial negative rest

end Numeral

/-! ## Amounts -/

/-- The exceptions of `parse_amount`. -/
inductive AmountError
  | valueError (message : String)
  | overflowError
  /-- `decimal.InvalidOperation`. -/
  | invalidOperation
  /-- `decimal.Overflow`. -/
  | overflow
  deriving DecidableEq

/-- The default context of the `decimal` module. -/
def defaultContext : DecimalContext where
  prec := 28
  emax := 999999
  emin := -999999
  positive := by decide
  ordered := by decide

/-- `Decimal(COIN)`. -/
def coin : Decimal where
  negative := false
  coefficient := COIN.toNat
  exponent := 0

/-- The refusal of an amount with too many decimals. -/
def tooFine (value : Str) : AmountError :=
  .valueError s!"{text value} {SYMBOL} is finer than the smallest unit (10^-{DECIMALS})"

/-- The refusal of an amount below zero. -/
def belowZero : AmountError := .valueError "amount must be non-negative"

/-- The checks on the product and its conversion to an integer. -/
def wholeUnits (value : Str) (units : Decimal) : Except AmountError Int :=
  if ¬ units.numericEq units.toIntegralValue then .error (tooFine value)
  else if units.isNegative then .error belowZero
  else .ok units.toInt

/-- The same for a product that may have overflowed. -/
def checkUnits (value : Str) : Option Decimal → Except AmountError Int
  | none => .error .overflow
  | some units => wholeUnits value units

/-- `parse_amount(value)` for a text: whole coins to base units. -/
def parseAmount [Digits] (value : Str) : Except AmountError Int :=
  match Numeral.read value with
  | none => .error .invalidOperation
  | some (.nan signaling) => .error (if signaling then .invalidOperation else tooFine value)
  | some (.infinity negative) => .error (if negative then belowZero else .overflowError)
  | some (.finite number) => checkUnits value (defaultContext.fix (number.mul coin))

example : @parseAmount Symbolic.digits ['1', '.', '5'] = .ok 150000000 := by decide +kernel

/-! ## What the product is checked for -/

@[simp] theorem value_coin : coin.value = COIN := by
  have units : (COIN.toNat : ℚ) = COIN := by
    exact_mod_cast Int.toNat_of_nonneg (show 0 ≤ COIN by decide)
  rw [Decimal.value, coin, Decimal.sign, ← units]
  norm_num

/-- A product that is a whole number at or above zero is returned. -/
theorem wholeUnits_eq_ok_iff
    (value : Str)
    (units : Decimal)
    (amount : ℤ) :
    wholeUnits value units = .ok amount ↔ 0 ≤ units.value ∧ units.value = amount := by
  have whole := units.numericEq_toIntegralValue_iff
  have negative := units.isNegative_iff
  rw [wholeUnits]
  split_ifs with integral below
  · refine iff_of_false (by simp) ?_
    rintro ⟨nonneg, _⟩
    exact not_lt.mpr nonneg (negative.mp below)
  · obtain ⟨integer, same⟩ := whole.mp integral
    have nonneg : 0 ≤ units.value := not_lt.mp (mt negative.mpr below)
    rw [Except.ok.injEq, Decimal.toInt_eq same, and_iff_right nonneg, same, Int.cast_inj]
  · refine iff_of_false (by simp) ?_
    rintro ⟨_, same⟩
    exact integral (whole.mpr ⟨amount, same⟩)

/-- Any other product is refused with a `ValueError`. -/
theorem wholeUnits_refused_iff
    (value : Str)
    (units : Decimal) :
    (∃ message, wholeUnits value units = .error (.valueError message)) ↔
      units.value < 0 ∨ ¬ ∃ whole : ℤ, units.value = whole := by
  constructor
  · rintro ⟨message, refused⟩
    by_contra amount
    rw [not_or, not_not, not_lt] at amount
    obtain ⟨nonneg, whole, integral⟩ := amount
    have returned := (wholeUnits_eq_ok_iff value units whole).mpr ⟨nonneg, integral⟩
    rw [returned] at refused
    cases refused
  · intro bad
    have whole := units.numericEq_toIntegralValue_iff
    have negative := units.isNegative_iff
    rw [wholeUnits]
    split_ifs with integral below
    · exact ⟨_, rfl⟩
    · exfalso
      rcases bad with below' | fraction
      · exact below (negative.mpr below')
      · exact fraction (whole.mp integral)
    · exact ⟨_, rfl⟩

/-! ## Exact conversion -/

/-- The text converts to the exact number of base units, or it is refused with a `ValueError`
when that number is below zero or not whole. -/
structure ConvertsExactly [Digits] (value : Str) (number : Decimal) : Prop where
  returned : ∀ amount : ℤ,
    parseAmount value = .ok amount ↔ 0 ≤ number.value ∧ number.value * COIN = amount
  refused : number.value < 0 ∨ (¬ ∃ whole : ℤ, number.value * COIN = whole) →
    ∃ message, parseAmount value = .error (.valueError message)

/-- The unit of the last place that the default context keeps of a number times `COIN`. -/
def keptUnit (number : Decimal) : ℚ :=
  10 ^ max (number.digits + DECIMALS + number.exponent - defaultContext.prec : ℤ)
    defaultContext.etiny

/-- The context leaves the base units of a number alone: they do not overflow, and rounding
neither makes them zero or whole nor changes them when they are whole. -/
structure KeptByContext (number : Decimal) : Prop where
  inRange : 2 * |number.value * COIN| + 10 ^ defaultContext.etop <
    2 * 10 ^ (defaultContext.emax + 1)
  distinct : (number.value < 0 ∧ keptUnit number < 2 * |number.value * COIN|) ∨
    0 ≤ number.value ∧ ((∃ count : ℤ, number.value * COIN = count * keptUnit number) ∨
      ∀ whole : ℤ, keptUnit number < 2 * |number.value * COIN - whole|)

section

variable {value : Str} {number units : Decimal}

theorem keptUnit_pos (number : Decimal) : 0 < keptUnit number := by
  rw [keptUnit]
  positivity

theorem digits_mul_coin
    (nonzero : number.coefficient ≠ 0) :
    (number.mul coin).digits = number.digits + DECIMALS :=
  Decimal.length_mul_pow nonzero DECIMALS

theorem coefficient_mul_coin_eq_zero_iff :
    (number.mul coin).coefficient = 0 ↔ number.coefficient = 0 := by
  have units : coin.coefficient ≠ 0 := by decide
  rw [Decimal.mul, mul_eq_zero, or_iff_left units]

/-- The product is the exact one, rounded to the unit of the last place kept. -/
theorem roundsEven_product
    (fitted : defaultContext.fix (number.mul coin) = some units) :
    RoundsEven (keptUnit number) (number.value * COIN) units.value := by
  by_cases zero : number.coefficient = 0
  · have nothing := defaultContext.value_of_fix_zero fitted
      (coefficient_mul_coin_eq_zero_iff.mpr zero)
    rw [nothing, number.value_eq_zero_iff.mpr zero, zero_mul]
    exact RoundsEven.refl_of_multiple (keptUnit_pos number)
      (show (0 : ℚ) = ((0 : ℤ) : ℚ) * keptUnit number by simp)
  · have rounds := defaultContext.roundsEven_of_fix fitted
      (mt coefficient_mul_coin_eq_zero_iff.mp zero)
    have place : defaultContext.lastPlace (number.mul coin) =
        max (number.digits + DECIMALS + number.exponent - defaultContext.prec : ℤ)
          defaultContext.etiny := by
      rw [DecimalContext.lastPlace, digits_mul_coin zero]
      simp [Decimal.mul, coin]
    rwa [place, Decimal.value_mul, value_coin] at rounds

/-- A product that overflows raises `decimal.Overflow`. -/
theorem overflows_iff (number : Decimal) :
    defaultContext.fix (number.mul coin) = none ↔
      ¬ 2 * |number.value * COIN| + 10 ^ defaultContext.etop <
        2 * 10 ^ (defaultContext.emax + 1) := by
  rw [defaultContext.fix_eq_none_iff, Decimal.value_mul, value_coin, not_lt]

/-- A rounded product is the amount that the exact one is, and none when that is none. -/
def SameAmount (exact rounded : ℚ) : Prop :=
  (∀ amount : ℤ, (0 ≤ rounded ∧ rounded = amount) ↔ 0 ≤ exact ∧ exact = amount) ∧
    (exact < 0 ∨ (¬ ∃ whole : ℤ, exact = whole) → rounded < 0 ∨ ¬ ∃ whole : ℤ, rounded = whole)

/-- A product below zero stays one just when it does not vanish. -/
theorem sameAmount_iff_of_neg
    {unit exact rounded : ℚ}
    (rounds : RoundsEven unit exact rounded)
    (positive : 0 < unit)
    (negative : exact < 0) :
    SameAmount exact rounded ↔ unit < 2 * |exact| := by
  have nonpos : rounded ≤ 0 := by
    have := rounds.neg.nonneg positive (by linarith)
    linarith
  rw [← not_le, ← rounds.eq_zero_iff positive]
  constructor
  · rintro ⟨same, _⟩ rfl
    exact not_le.mpr negative ((same 0).mp (by simp)).1
  · intro nonzero
    have below : rounded < 0 := lt_of_le_of_ne nonpos nonzero
    refine ⟨fun amount => iff_of_false ?_ ?_, fun _ => Or.inl below⟩
    · exact fun nonneg => not_le.mpr below nonneg.1
    · exact fun nonneg => not_le.mpr negative nonneg.1

/-- Any other product stays itself or is not moved onto a whole number. -/
theorem sameAmount_iff_of_nonneg
    {place : ℤ}
    {exact rounded : ℚ}
    (rounds : RoundsEven (10 ^ place) exact rounded)
    (nonneg : 0 ≤ exact) :
    SameAmount exact rounded ↔ (∃ count : ℤ, exact = count * 10 ^ place) ∨
      ∀ whole : ℤ, 10 ^ place < 2 * |exact - whole| := by
  have unit : (0 : ℚ) < 10 ^ place := by positivity
  have kept := rounds.nonneg unit nonneg
  have apart : (∀ whole : ℤ, 10 ^ place < 2 * |exact - whole|) ↔
      ¬ ∃ whole : ℤ, rounded = whole := by
    rw [rounds.isInt_iff, not_exists]
    exact forall_congr' fun whole => not_le.symm
  rw [← rounds.eq_iff unit, apart]
  constructor
  · rintro ⟨same, refused⟩
    by_cases integral : ∃ whole : ℤ, exact = whole
    · obtain ⟨whole, integral⟩ := integral
      left
      rw [((same whole).mpr ⟨nonneg, integral⟩).2, integral]
    · right
      exact (refused (Or.inr integral)).resolve_left (not_lt.mpr kept)
  · rintro (same | fraction)
    · rw [same]
      exact ⟨fun _ => Iff.rfl, id⟩
    · refine ⟨fun amount => iff_of_false ?_ ?_, fun _ => Or.inr fraction⟩
      · exact fun integral => fraction ⟨amount, integral.2⟩
      · rintro ⟨_, integral⟩
        -- A whole product would be within half a unit of itself.
        refine apart.mpr fraction amount |>.not_ge ?_
        simp [integral, unit.le]

/-- A fitted product is checked as the exact one would be just when it is the same amount. -/
theorem convertsExactly_iff_sameAmount
    [Digits]
    (parsed : parseAmount value = wholeUnits value units) :
    ConvertsExactly value number ↔ SameAmount (number.value * COIN) units.value := by
  have coin : (0 : ℚ) < COIN := by exact_mod_cast (by decide : 0 < COIN)
  have nonneg : 0 ≤ number.value * COIN ↔ 0 ≤ number.value := mul_nonneg_iff_of_pos_right coin
  have negative : number.value * COIN < 0 ↔ number.value < 0 := by
    rw [← not_le, nonneg, not_le]
  constructor
  · rintro ⟨returned, refused⟩
    simp only [parsed, wholeUnits_eq_ok_iff, wholeUnits_refused_iff] at returned refused
    rw [SameAmount, negative, nonneg]
    exact ⟨returned, refused⟩
  · rintro ⟨same, bad⟩
    rw [negative] at bad
    rw [nonneg] at same
    refine ⟨?_, ?_⟩
    · simpa only [parsed, wholeUnits_eq_ok_iff] using same
    · simpa only [parsed, wholeUnits_refused_iff] using bad

/-- A literal converts exactly when the context leaves its base units alone. -/
theorem convertsExactly_iff
    [Digits]
    (read : Numeral.read value = some (.finite number)) :
    ConvertsExactly value number ↔ KeptByContext number := by
  have parsed : parseAmount value =
      checkUnits value (defaultContext.fix (number.mul coin)) := by rw [parseAmount, read]
  cases product : defaultContext.fix (number.mul coin) with
  | none =>
      rw [product, checkUnits] at parsed
      refine iff_of_false ?_ fun kept => (overflows_iff number).mp product kept.inRange
      rintro ⟨returned, refused⟩
      simp only [parsed] at returned refused
      -- Neither an amount nor a refusal comes out of an overflow.
      have bad : number.value < 0 ∨ ¬ ∃ whole : ℤ, number.value * COIN = whole := by
        by_contra amount
        rw [not_or, not_not, not_lt] at amount
        obtain ⟨nonneg, whole, integral⟩ := amount
        cases (returned whole).mpr ⟨nonneg, integral⟩
      obtain ⟨message, error⟩ := refused bad
      cases error
  | some units =>
      rw [product, checkUnits] at parsed
      have rounds := roundsEven_product product
      have inRange := not_not.mp (mt (overflows_iff number).mpr (by rw [product]; simp))
      rw [convertsExactly_iff_sameAmount parsed]
      have coin : (0 : ℚ) < COIN := by exact_mod_cast (by decide : 0 < COIN)
      rcases lt_or_ge number.value 0 with negative | nonneg
      · rw [sameAmount_iff_of_neg rounds (keptUnit_pos number)
          (mul_neg_of_neg_of_pos negative coin)]
        constructor
        · exact fun far => ⟨inRange, Or.inl ⟨negative, far⟩⟩
        · intro kept
          exact (kept.distinct.resolve_right fun other => not_le.mpr negative other.1).2
      · rw [sameAmount_iff_of_nonneg rounds (mul_nonneg nonneg coin.le)]
        constructor
        · exact fun far => ⟨inRange, Or.inr ⟨nonneg, far⟩⟩
        · intro kept
          exact (kept.distinct.resolve_left fun other => not_le.mpr other.1 nonneg).2

/-- An amount of at most 28 digits whose exponents the context holds is left alone. -/
theorem keptByContext_of_digits
    (nonneg : 0 ≤ number.value)
    (short : number.digits ≤ defaultContext.prec)
    (coarse : defaultContext.etiny ≤ number.exponent + DECIMALS)
    (small : number.digits + number.exponent + DECIMALS ≤ defaultContext.emax) :
    KeptByContext number := by
  have shift : number.value * COIN =
      (⟨number.negative, number.coefficient, number.exponent + DECIMALS⟩ : Decimal).value := by
    rw [Decimal.value, Decimal.value, zpow_add₀ (by norm_num), zpow_natCast, COIN, DECIMALS,
      Decimal.sign, Decimal.sign]
    push_cast
    ring
  refine ⟨?_, Or.inr ⟨nonneg, Or.inl ?_⟩⟩
  · have size : |number.value * COIN| < 10 ^ defaultContext.emax := by
      rw [shift]
      apply (Decimal.abs_value_lt _).trans_le
      apply zpow_le_zpow_right₀ (by norm_num)
      rw [← add_assoc]
      exact small
    have top : (10 : ℚ) ^ defaultContext.etop ≤ 10 ^ defaultContext.emax :=
      zpow_le_zpow_right₀ (by norm_num) (by decide)
    have positive : (0 : ℚ) < 10 ^ defaultContext.emax := by positivity
    rw [zpow_add_one₀ (by norm_num)]
    linarith
  · rw [shift, keptUnit]
    apply Decimal.exists_multiple
    rw [max_le_iff]
    exact ⟨by dsimp only; omega, coarse⟩

end

/-! ## One digit too many -/

namespace WalletSample

attribute [local instance] Symbolic.digits

/-- One and a half coins. -/
def short : Str := ['1', '.', '5']

/-- One coin and a fraction far below the smallest unit. -/
def long : Str := '1' :: '.' :: List.replicate 28 '0' ++ ['1']

theorem short_convertsExactly : ConvertsExactly short ⟨false, 15, -1⟩ := by
  have read : Numeral.read short = some (.finite ⟨false, 15, -1⟩) := by decide +kernel
  apply (convertsExactly_iff read).mpr
  apply keptByContext_of_digits
  · norm_num [Decimal.value, Decimal.sign]
  · decide
  · decide
  · decide

/-- The fraction is dropped instead of refused. -/
theorem long_rounded :
    Numeral.read long = some (.finite ⟨false, 10 ^ 29 + 1, -29⟩) ∧
      parseAmount long = .ok 100000000 ∧
      ¬ ConvertsExactly long ⟨false, 10 ^ 29 + 1, -29⟩ := by
  have returned : parseAmount long = .ok 100000000 := by decide +kernel
  refine ⟨by decide +kernel, returned, ?_⟩
  intro exact
  have same := ((exact.returned 100000000).mp returned).2
  norm_num [Decimal.value, Decimal.sign, COIN] at same

end WalletSample

end Mindees
