import Mindees.Core.Reader

/-!
# Balanced text

A scan over text that tells the inside of string literals from the outside and
counts the open brackets.  Every JSON text passes it.  A text that starts with an
open brace and goes on, cut or whole, with the text of an object does not.
-/

namespace Mindees
namespace Json

/-- Where a scan stands; the depth counts the open brackets. -/
inductive Scan
  | plain (depth : Nat)
  | string (depth : Nat)
  /-- Behind a backslash in a string literal. -/
  | escaped (depth : Nat)
  /-- Behind a string literal. -/
  | literal (depth : Nat)
  /-- The outermost bracket is closed. -/
  | done
  | dead
  deriving DecidableEq

/-- JSON white space. -/
def isBlank (char : Char) : Bool := char = ' ' || char = '\t' || char = '\n' || char = '\r'

namespace Scan

/-- A closing bracket. -/
def close : Nat → Scan
  | 0 => .dead
  | 1 => .done
  | depth + 2 => .plain (depth + 1)

/-- One character. -/
def next : Scan → Char → Scan
  | .plain depth, char =>
      if char = '"' then .string depth
      else if char = '{' ∨ char = '[' then .plain (depth + 1)
      else if char = '}' ∨ char = ']' then close depth
      else .plain depth
  | .string depth, char =>
      if char = '"' then .literal depth
      else if char = '\\' then .escaped depth
      else .string depth
  | .escaped depth, _ => .string depth
  | .literal depth, char =>
      if char = '}' ∨ char = ']' then close depth
      else if char = ',' ∨ char = ':' then .plain depth
      else if isBlank char then .literal depth
      else .dead
  | .done, char => if isBlank char then .done else .dead
  | .dead, _ => .dead

/-- A text of characters. -/
def across (state : Scan) (text : Str) : Scan := text.foldl next state

/-- The text may end here. -/
def accepts : Scan → Bool
  | .plain depth => depth = 0
  | .literal depth => depth = 0
  | .done => true
  | _ => false

@[simp] theorem across_nil (state : Scan) : state.across [] = state := rfl

@[simp] theorem across_cons (state : Scan) (char : Char) (text : Str) :
    state.across (char :: text) = (state.next char).across text := rfl

@[simp] theorem across_append (state : Scan) (first second : Str) :
    state.across (first ++ second) = (state.across first).across second := List.foldl_append

@[simp] theorem across_dead (text : Str) : dead.across text = dead := by
  induction text with
  | nil => rfl
  | cons char text inductionHypothesis => exact inductionHypothesis

/-! ## Below an open bracket -/

/-- A bracket is open, or the text cannot go on. -/
def Inside : Scan → Prop
  | .plain depth => 0 < depth
  | .string depth => 0 < depth
  | .escaped depth => 0 < depth
  | .literal depth => 0 < depth
  | .done => True
  | .dead => True

theorem inside_close (depth : Nat) : (close depth).Inside := by
  match depth with
  | 0 => trivial
  | 1 => trivial
  | depth + 2 => exact Nat.succ_pos depth

theorem Inside.next
    {state : Scan}
    (inside : state.Inside)
    (char : Char) :
    (state.next char).Inside := by
  cases state with
  | plain depth =>
      rw [Scan.next]
      split_ifs
      · exact inside
      · exact Nat.succ_pos depth
      · exact inside_close depth
      · exact inside
  | string depth =>
      rw [Scan.next]
      split_ifs <;> exact inside
  | escaped depth => exact inside
  | literal depth =>
      rw [Scan.next]
      split_ifs
      · exact inside_close depth
      · exact inside
      · exact inside
      · trivial
  | done =>
      rw [Scan.next]
      split_ifs <;> trivial
  | dead => trivial

theorem Inside.across
    {state : Scan}
    (inside : state.Inside)
    (text : Str) :
    (state.across text).Inside := by
  induction text generalizing state with
  | nil => exact inside
  | cons char text inductionHypothesis => exact inductionHypothesis (inside.next char)

/-! ## Over written values -/

/-- Behind a value at a depth. -/
def Behind (depth : Nat) (state : Scan) : Prop := state = .plain depth ∨ state = .literal depth

theorem Behind.comma
    {depth : Nat}
    {state : Scan}
    (behind : state.Behind depth) :
    state.next ',' = .plain depth := by
  rcases behind with rfl | rfl <;> rfl

theorem Behind.close
    {depth : Nat}
    {state : Scan}
    (behind : state.Behind depth) :
    state.next ']' = Scan.close depth ∧ state.next '}' = Scan.close depth := by
  rcases behind with rfl | rfl <;> exact ⟨rfl, rfl⟩

/-- Behind a value with an open bracket the text may not end. -/
theorem Behind.not_accepts
    {depth : Nat}
    {state : Scan}
    (behind : state.Behind (depth + 1)) :
    state.accepts = false := by
  rcases behind with rfl | rfl <;> rfl

/-- Characters without a meaning outside of string literals. -/
theorem across_plain
    {text : Str}
    (depth : Nat)
    (meaningless : ∀ char ∈ text,
      char ≠ '"' ∧ char ≠ '{' ∧ char ≠ '[' ∧ char ≠ '}' ∧ char ≠ ']') :
    (plain depth).across text = .plain depth := by
  induction text with
  | nil => rfl
  | cons char text inductionHypothesis =>
      obtain ⟨quote, brace, bracket, closeBrace, closeBracket⟩ :=
        meaningless char List.mem_cons_self
      have here : (plain depth).next char = .plain depth := by
        rw [next, if_neg quote, if_neg (not_or.mpr ⟨brace, bracket⟩),
          if_neg (not_or.mpr ⟨closeBrace, closeBracket⟩)]
      rw [across_cons, here]
      exact inductionHypothesis fun char inside => meaningless char (List.mem_cons_of_mem _ inside)

theorem across_gap
    {gap : Str}
    (depth : Nat)
    (blank : ∀ char ∈ gap, char = ' ') :
    (plain depth).across gap = .plain depth := by
  refine across_plain depth fun char inside => ?_
  rw [blank char inside]
  decide

theorem across_decimal (depth : Nat) (value : Int) :
    (plain depth).across (decimal value) = .plain depth := by
  refine across_plain depth fun char inside => ?_
  have numeric := isNumeric_of_mem_decimal inside
  refine ⟨?_, ?_, ?_, ?_, ?_⟩ <;> rintro rfl <;> cases numeric

/-- Characters without a meaning inside of string literals. -/
theorem across_string
    {text : Str}
    (depth : Nat)
    (meaningless : ∀ char ∈ text, char ≠ '"' ∧ char ≠ '\\') :
    (string depth).across text = .string depth := by
  induction text with
  | nil => rfl
  | cons char text inductionHypothesis =>
      obtain ⟨quote, backslash⟩ := meaningless char List.mem_cons_self
      have here : (string depth).next char = .string depth := by
        rw [next, if_neg quote, if_neg backslash]
      rw [across_cons, here]
      exact inductionHypothesis fun char inside => meaningless char (List.mem_cons_of_mem _ inside)

theorem hexDigit_meaningless
    (value : Nat)
    (small : value < 16) :
    hexDigit value ≠ '"' ∧ hexDigit value ≠ '\\' := by
  interval_cases value <;> decide

theorem across_hexQuad (depth code : Nat) : (string depth).across (hexQuad code) = .string depth := by
  have digit : ∀ value : Nat, hexDigit (value % 16) ≠ '"' ∧ hexDigit (value % 16) ≠ '\\' :=
    fun value => hexDigit_meaningless _ (Nat.mod_lt value (by decide))
  refine across_string depth fun char inside => ?_
  simp only [hexQuad, List.mem_cons, List.not_mem_nil, or_false] at inside
  rcases inside with rfl | rfl | rfl | rfl <;> exact digit _

/-- An escaped character stays inside its literal. -/
theorem across_escape (depth : Nat) (char : Char) :
    (string depth).across (escape char) = .string depth := by
  have unicode : ∀ code, (string depth).across ('\\' :: 'u' :: hexQuad code) = .string depth :=
    fun code => across_hexQuad depth code
  unfold escape
  dsimp only
  split_ifs with quote backslash _ _ _ _ _ _ basic
  iterate 7 rfl
  · refine across_string depth fun other inside => ?_
    rw [List.mem_singleton.mp inside]
    constructor
    · rintro rfl
      exact quote rfl
    · rintro rfl
      exact backslash rfl
  · exact unicode _
  · rw [across_append, unicode, unicode]

/-- A string literal, from its quote to its quote. -/
theorem across_quote (depth : Nat) (value : Str) :
    (plain depth).across (quote value) = .literal depth := by
  have body : (string depth).across (value.flatMap escape) = .string depth := by
    induction value with
    | nil => rfl
    | cons char value inductionHypothesis =>
        rw [List.flatMap_cons, across_append, across_escape, inductionHypothesis]
  have opened : (plain depth).next '"' = .string depth := rfl
  rw [quote, across_cons, opened, across_append, body]
  rfl

section

variable {floatText : PyFloat → Str} {gap : Str} {depth : Nat}

/-- The scan comes back to its depth behind a value. -/
def Comes (floatText : PyFloat → Str) (gap : Str) (value : Json) : Prop :=
  ∀ depth, ((plain (depth + 1)).across (render floatText gap value)).Behind (depth + 1)

/-- The rest of a list closes its bracket. -/
theorem across_itemsEnd
    (blank : ∀ char ∈ gap, char = ' ')
    {items : List Json}
    (comes : ∀ item ∈ items, Comes floatText gap item)
    {state : Scan}
    (behind : state.Behind (depth + 2)) :
    state.across (itemsEnd floatText gap items) = .plain (depth + 1) := by
  induction items generalizing state with
  | nil =>
      rw [itemsEnd, across_cons, behind.close.1]
      rfl
  | cons item rest inductionHypothesis =>
      have here := comes item List.mem_cons_self (depth + 1)
      rw [itemsEnd, across_cons, behind.comma, across_append, across_append, across_gap _ blank]
      exact inductionHypothesis (fun item inside => comes item (List.mem_cons_of_mem _ inside)) here

/-- A member, up to the separator behind it. -/
theorem across_member
    (blank : ∀ char ∈ gap, char = ' ')
    {value : Json}
    (comes : Comes floatText gap value)
    (key rest : Str) :
    ∃ state : Scan, state.Behind (depth + 1) ∧
      (plain (depth + 1)).across (quote key ++ ':' :: (gap ++ render floatText gap value ++ rest)) =
        state.across rest := by
  refine ⟨_, comes depth, ?_⟩
  have colon : (literal (depth + 1)).next ':' = .plain (depth + 1) := rfl
  rw [across_append, across_quote, across_cons, colon, across_append, across_append, across_gap _ blank]

/-- The rest of an object closes its brace. -/
theorem across_fieldsEnd
    (blank : ∀ char ∈ gap, char = ' ')
    {fields : List (Str × Json)}
    (comes : ∀ entry ∈ fields, Comes floatText gap entry.2)
    {state : Scan}
    (behind : state.Behind (depth + 2)) :
    state.across (fieldsEnd floatText gap fields) = .plain (depth + 1) := by
  induction fields generalizing state with
  | nil =>
      rw [fieldsEnd, across_cons, behind.close.2]
      rfl
  | cons entry rest inductionHypothesis =>
      obtain ⟨after, here, same⟩ := @across_member floatText gap (depth + 1) blank entry.2
        (comes entry List.mem_cons_self) entry.1 (fieldsEnd floatText gap rest)
      rw [fieldsEnd, across_cons, behind.comma, List.append_assoc, across_append, across_gap _ blank,
        same]
      exact inductionHypothesis (fun entry inside => comes entry (List.mem_cons_of_mem _ inside))
        here

/-- Every written value brings the scan back to its depth. -/
theorem comes_of_readable
    (blank : ∀ char ∈ gap, char = ' ')
    {value : Json}
    (readable : value.Readable) :
    Comes floatText gap value := by
  induction readable with
  | null => exact fun depth => .inl (by rw [render]; rfl)
  | bool value => exact fun depth => .inl (by cases value <;> rw [render] <;> rfl)
  | int value => exact fun depth => .inl (by rw [render, across_decimal])
  | str value => exact fun depth => .inr (by rw [render, across_quote])
  | @arr items _ inductionHypothesis =>
      intro depth
      left
      have opened : (plain (depth + 1)).next '[' = .plain (depth + 2) := rfl
      cases items with
      | nil => rw [render]; rfl
      | cons item rest =>
          have here := inductionHypothesis item List.mem_cons_self (depth + 1)
          rw [render, across_cons, opened, across_append]
          exact across_itemsEnd blank
            (fun item inside => inductionHypothesis item (List.mem_cons_of_mem _ inside)) here
  | @obj fields _ _ inductionHypothesis =>
      intro depth
      left
      have opened : (plain (depth + 1)).next '{' = .plain (depth + 2) := rfl
      cases fields with
      | nil => rw [render]; rfl
      | cons entry rest =>
          obtain ⟨after, here, same⟩ := @across_member floatText gap (depth + 1) blank entry.2
            (inductionHypothesis entry List.mem_cons_self) entry.1 (fieldsEnd floatText gap rest)
          rw [render, across_cons, opened, same]
          exact across_fieldsEnd blank
            (fun entry inside => inductionHypothesis entry (List.mem_cons_of_mem _ inside)) here

end

end Scan

/-- What every JSON text passes: brackets pair up, nothing but white space stands
behind the last one, and only a separator or a bracket behind a string literal. -/
def balanced (text : Str) : Bool := ((Scan.plain 0).across text).accepts

/-- The text of an object behind a text that opened a brace is not balanced. -/
theorem not_balanced_append
    {floatText : PyFloat → Str}
    {gap front body : Str}
    (blank : ∀ char ∈ gap, char = ' ')
    (opened : front.head? = some '{')
    {value : Json}
    (readable : value.Readable)
    (shape : render floatText gap value = '{' :: '"' :: 'i' :: body) :
    balanced (front ++ render floatText gap value) = false := by
  obtain ⟨rest, rfl⟩ : ∃ rest, front = '{' :: rest := by
    cases front with
    | nil => cases opened
    | cons char rest => exact ⟨rest, congrArg (· :: rest) (Option.some.inj opened)⟩
  have inside : ((Scan.plain 0).across ('{' :: rest)).Inside := by
    have first : ((Scan.plain 0).next '{').Inside := Nat.succ_pos 0
    exact first.across rest
  rw [balanced, Scan.across_append]
  cases state : (Scan.plain 0).across ('{' :: rest) with
  | plain depth =>
      rw [state] at inside
      obtain ⟨above, rfl⟩ : ∃ above, depth = above + 1 := ⟨depth - 1, (Nat.sub_add_cancel inside).symm⟩
      exact (Scan.comes_of_readable blank readable above).not_accepts
  | string depth =>
      -- the quote of the first key closes the torn literal
      rw [shape]
      exact congrArg Scan.accepts (Scan.across_dead body)
  | escaped depth =>
      rw [shape]
      exact congrArg Scan.accepts (Scan.across_dead body)
  | literal depth =>
      rw [shape]
      exact congrArg Scan.accepts (Scan.across_dead _)
  | done =>
      rw [shape]
      exact congrArg Scan.accepts (Scan.across_dead _)
  | dead =>
      rw [Scan.across_dead]
      rfl

end Json
end Mindees
