import Mindees.Core.Codec
import Mindees.Core.Symbolic

/-!
# What third parties can do to a signature

A valid transaction is bound to the bytes of its signature, but its identifier
hashes the hexadecimal text of the signature.  The reader of hexadecimal takes
letters of either case and skips white space, so anyone can write a signature in
another way and get a second valid transaction.
-/

namespace Mindees

/-! ## Spellings -/

/-- How a character of hexadecimal text is written: an upper-case letter, white
space of one kind, or anything else. -/
def spellingOf (char : Char) : Char :=
  if isAsciiSpace char then char
  else if 65 ≤ char.toNat ∧ char.toNat ≤ 90 then 'A'
  else 'a'

/-- The letter case and the white space of a text, without its digits. -/
def spelling (written : Str) : Str := written.map spellingOf

theorem isAsciiSpace_spellingOf (char : Char) :
    isAsciiSpace (spellingOf char) = isAsciiSpace char := by
  unfold spellingOf
  split_ifs with space letter
  · rfl
  · rw [Bool.not_eq_true] at space
    rw [space]
    decide
  · rw [Bool.not_eq_true] at space
    rw [space]
    decide

/-- White space is its own spelling. -/
theorem eq_of_spellingOf_space
    {left right : Char}
    (space : isAsciiSpace left = true)
    (same : spellingOf left = spellingOf right) :
    left = right := by
  have other : isAsciiSpace right = true := by
    rw [← isAsciiSpace_spellingOf right, ← same, isAsciiSpace_spellingOf]
    exact space
  rwa [spellingOf, if_pos space, spellingOf, if_pos other] at same

/-- The code of a digit is given by its value, from ten on up to the letter case. -/
theorem hexValue_cases
    {digit : Char}
    {value : Nat}
    (read : hexValue digit = some value) :
    isAsciiSpace digit = false ∧ value < 16 ∧
      (digit.toNat = 48 + value ∧ value < 10 ∨
        digit.toNat = 87 + value ∧ 10 ≤ value ∧ spellingOf digit = 'a' ∨
        digit.toNat = 55 + value ∧ 10 ≤ value ∧ spellingOf digit = 'A') := by
  have visible : 32 < digit.toNat → isAsciiSpace digit = false := by
    intro above
    simp only [isAsciiSpace, Bool.or_eq_false_iff, Bool.and_eq_false_iff, decide_eq_false_iff_not]
    omega
  simp only [hexValue] at read
  split_ifs at read with number lower upper
  · cases read
    exact ⟨visible (by omega), by omega, .inl ⟨by omega, by omega⟩⟩
  · cases read
    have shown := visible (by omega)
    refine ⟨shown, by omega, .inr (.inl ⟨by omega, by omega, ?_⟩)⟩
    rw [spellingOf, if_neg (by rw [shown]; decide), if_neg (by omega)]
  · cases read
    have shown := visible (by omega)
    refine ⟨shown, by omega, .inr (.inr ⟨by omega, by omega, ?_⟩)⟩
    rw [spellingOf, if_neg (by rw [shown]; decide), if_pos (by omega)]

/-- A digit is determined by its value and its spelling. -/
theorem eq_of_hexValue
    {left right : Char}
    {value : Nat}
    (leftValue : hexValue left = some value)
    (rightValue : hexValue right = some value)
    (same : spellingOf left = spellingOf right) :
    left = right := by
  apply Char.toNat_inj.mp
  obtain ⟨_, _, leftCase⟩ := hexValue_cases leftValue
  obtain ⟨_, _, rightCase⟩ := hexValue_cases rightValue
  rcases leftCase with ⟨leftCode, small⟩ | ⟨leftCode, large, leftLetter⟩ |
      ⟨leftCode, large, leftLetter⟩ <;>
    rcases rightCase with ⟨rightCode, bound⟩ | ⟨rightCode, bound, rightLetter⟩ |
      ⟨rightCode, bound, rightLetter⟩
  all_goals first
    | omega
    | (rw [leftLetter, rightLetter] at same
       exact absurd same (by decide))

/-- Two texts of the same bytes in the same spelling are equal. -/
theorem eq_of_fromHex
    {left right : Str}
    {bytes : Bytes}
    (leftRead : fromHex left = some bytes)
    (rightRead : fromHex right = some bytes)
    (same : spelling left = spelling right) :
    left = right := by
  induction left using fromHex.induct generalizing right bytes with
  | case1 =>
      symm
      simpa [spelling] using same.symm
  | case2 char space =>
      obtain ⟨other, rfl, spelled⟩ := List.map_eq_singleton_iff.mp same.symm
      rw [eq_of_spellingOf_space space spelled.symm]
  | case3 char visible =>
      rw [fromHex, if_neg visible] at leftRead
      cases leftRead
  | case4 first second rest space inductionHypothesis =>
      obtain ⟨other, others, rfl, firstSpelled, spelled⟩ := List.map_eq_cons_iff.mp same.symm
      obtain rfl := eq_of_spellingOf_space space firstSpelled.symm
      obtain ⟨next, remaining, rfl, _⟩ := List.map_eq_cons_iff.mp spelled
      rw [fromHex, if_pos space] at leftRead rightRead
      rw [inductionHypothesis leftRead rightRead spelled.symm]
  | case5 first second rest visible high low secondValue firstValue inductionHypothesis =>
      obtain ⟨other, others, rfl, firstSpelled, spelled⟩ := List.map_eq_cons_iff.mp same.symm
      obtain ⟨next, remaining, rfl, secondSpelled, spelledRest⟩ := List.map_eq_cons_iff.mp spelled
      have otherVisible : ¬isAsciiSpace other = true := by
        rw [← isAsciiSpace_spellingOf, firstSpelled, isAsciiSpace_spellingOf]
        exact visible
      rw [fromHex, if_neg visible] at leftRead
      rw [fromHex, if_neg otherVisible] at rightRead
      simp only [firstValue, secondValue] at leftRead
      obtain ⟨tail, leftTail, rfl⟩ := Option.map_eq_some_iff.mp leftRead
      split at rightRead
      · rename_i otherHigh otherLow otherValue nextValue
        obtain ⟨rightBytes, rightTail, written⟩ := Option.map_eq_some_iff.mp rightRead
        obtain ⟨sameByte, rfl⟩ := List.cons.inj written
        -- one byte has one pair of digit values
        have bounds := And.intro (hexValue_cases firstValue).2.1 (hexValue_cases secondValue).2.1
        have others := And.intro (hexValue_cases otherValue).2.1 (hexValue_cases nextValue).2.1
        have codes := congrArg UInt8.toNat sameByte
        rw [UInt8.toNat_ofNat', UInt8.toNat_ofNat'] at codes
        have sameHigh : otherHigh = high := by omega
        have sameLow : otherLow = low := by omega
        subst sameHigh sameLow
        rw [eq_of_hexValue firstValue otherValue firstSpelled.symm,
          eq_of_hexValue secondValue nextValue secondSpelled.symm,
          inductionHypothesis leftTail rightTail spelledRest.symm]
      · cases rightRead
  | case6 first second rest visible unread =>
      rw [fromHex, if_neg visible] at leftRead
      split at leftRead
      · rename_i high low highValue lowValue
        exact absurd lowValue (unread high low highValue)
      · cases leftRead

/-! ## Re-encoded signatures -/

section

variable [Primitives]

/-- Two valid transactions with the same signed content and the same ECDSA
signature. -/
structure SameSignature (left right : Transaction) : Prop where
  leftValid : left.isValid = true
  rightValid : right.isValid = true
  payload : left.signingPayload = right.signingPayload
  pair : ∃ leftBytes rightBytes r s,
    fromHex left.signature = some leftBytes ∧ fromHex right.signature = some rightBytes ∧
    Primitives.decodeDss leftBytes = some (r, s) ∧ Primitives.decodeDss rightBytes = some (r, s)

/-- Two transactions that carry one signature have one identifier exactly when
they write the same bytes of it in the same spelling. -/
theorem SameSignature.txid_eq_iff
    {left right : Transaction}
    (twins : SameSignature left right)
    (free : CollisionFree {canonical left.encodeTx, canonical right.encodeTx}) :
    left.txid = right.txid ↔
      fromHex left.signature = fromHex right.signature ∧
        spelling left.signature = spelling right.signature := by
  constructor
  · intro same
    have equal := free.txid (Set.mem_insert _ _) (Set.mem_insert_of_mem _ rfl) same
    rw [equal]
    exact ⟨rfl, rfl⟩
  · rintro ⟨bytes, spelled⟩
    obtain ⟨read, _, _, _, leftRead, _⟩ := twins.pair
    have written := eq_of_fromHex leftRead (bytes.symm.trans leftRead) spelled
    have equal := Transaction.signingPayload_inj twins.payload
    rw [← written] at equal
    exact congrArg Transaction.txid equal

end

/-! ## A blank in front of a signature -/

namespace MalleabilitySample

open Library

attribute [local instance] Symbolic.primitives

/-- A payment. -/
def draft : Transaction where
  sender := (Symbolic.wallet 1).address
  recipient := (Symbolic.wallet 2).address
  amount := 70
  fee := 3
  nonce := 0

/-- The same transaction with a blank written before its signature. -/
def respaced (tx : Transaction) : Transaction := { tx with signature := ' ' :: tx.signature }

/-- The signed payment, which is valid in both spellings. -/
def stage : Except Error Transaction := do
  let tx ← draft.sign (Symbolic.wallet 1) 0
  raiseIf (tx.isValid = false ∨ (respaced tx).isValid = false ∨ tx.txid = (respaced tx).txid)
    Error.valueError
  pure tx

theorem staged : succeeded stage = true := by decide +kernel

theorem respaced_twins :
    ∃ tx, SameSignature tx (respaced tx) ∧ tx.txid ≠ (respaced tx).txid := by
  obtain ⟨tx, ran⟩ := (succeeded_iff stage).mp staged
  simp only [stage, bind_eq_ok, raiseIf_eq_ok, exists_unit, pure_eq_ok, not_or,
    Bool.not_eq_false] at ran
  obtain ⟨_, signed, ⟨valid, respacedValid, apart⟩, rfl⟩ := ran
  refine ⟨_, ⟨valid, respacedValid, rfl, ?_⟩, apart⟩
  simp only [Transaction.sign, rejectIf, bind_eq_ok, raiseIf_eq_ok, exists_unit,
    pure_eq_ok] at signed
  obtain ⟨_, rfl⟩ := signed
  have blank : ∀ written bytes, fromHex written = some bytes → written ≠ [] →
      fromHex (' ' :: written) = some bytes := by
    intro written bytes read some
    cases written with
    | nil => exact absurd rfl some
    | cons first rest =>
        rw [fromHex, if_pos (by decide)]
        exact read
  rw [Symbolic.wallet_sign]
  refine ⟨_, _, 1, 1, fromHex_hex _, blank _ _ (fromHex_hex _) ?_,
    Symbolic.decodeDss_signature _ _, Symbolic.decodeDss_signature _ _⟩
  exact hex_ne_nil (List.cons_ne_nil _ _)

/-- The two spellings are told apart. -/
theorem txid_eq_iff_respaced :
    ∃ tx, SameSignature tx (respaced tx) ∧
      ¬(fromHex tx.signature = fromHex (respaced tx).signature ∧
        spelling tx.signature = spelling (respaced tx).signature) := by
  obtain ⟨tx, twins, apart⟩ := respaced_twins
  refine ⟨tx, twins, fun alike => apart ?_⟩
  have hashes : sha256 (canonical tx.encodeTx) ≠ sha256 (canonical (respaced tx).encodeTx) :=
    fun same => apart (congrArg hex same)
  exact (twins.txid_eq_iff (CollisionFree.pair hashes)).mpr alike

/-- One signature has more than one identifier. -/
theorem signature_respelled :
    ¬∀ left right : Transaction, SameSignature left right → left.txid = right.txid := by
  intro claim
  obtain ⟨tx, twins, apart⟩ := respaced_twins
  exact apart (claim tx (respaced tx) twins)

end MalleabilitySample

end Mindees
