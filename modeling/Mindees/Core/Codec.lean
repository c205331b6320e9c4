import Mathlib.Data.Set.Function
import Mindees.Core.Block

/-!
# Reading the encoding back

The canonical encoding is unambiguous: escapes, string literals and numbers end
where they say they end, and two objects with the same keys and the same text
have the same values.
-/

namespace Mindees

/-! ## Numbers -/

/-- Two runs of characters of a kind that end at a character of another kind. -/
theorem append_inj_of_ends
    {kind : Char → Bool}
    {left right : Str}
    {first second : Char}
    {rest other : Str}
    (leftKind : ∀ char ∈ left, kind char = true)
    (rightKind : ∀ char ∈ right, kind char = true)
    (leftEnds : kind first = false)
    (rightEnds : kind second = false)
    (same : left ++ first :: rest = right ++ second :: other) :
    left = right ∧ first :: rest = second :: other := by
  have run : ∀ {text tail : Str} {last : Char}, (∀ char ∈ text, kind char = true) →
      kind last = false → (text ++ last :: tail).takeWhile kind = text := by
    intro text tail last inside ends
    rw [List.takeWhile_append_of_pos inside, List.takeWhile_cons_of_neg (by simp [ends]),
      List.append_nil]
  have equal : left = right := by
    rw [← run leftKind leftEnds, same, run rightKind rightEnds]
  subst equal
  exact ⟨rfl, List.append_cancel_left same⟩

/-- The characters of a number. -/
def isNumeric (char : Char) : Bool := char.isDigit || char = '-'

theorem isNumeric_of_mem_decimal
    {value : Int}
    {char : Char}
    (inside : char ∈ decimal value) :
    isNumeric char = true := by
  have digits : ∀ {magnitude : Nat}, char ∈ Nat.toDigits 10 magnitude →
      isNumeric char = true := by
    intro magnitude member
    rw [isNumeric, Nat.isDigit_of_mem_toDigits (by decide) (by decide) member, Bool.true_or]
  cases value with
  | ofNat magnitude => exact digits inside
  | negSucc predecessor =>
      rcases List.mem_cons.mp inside with rfl | member
      · rfl
      · exact digits member

theorem decimal_injective
    {left right : Int}
    (same : decimal left = decimal right) :
    left = right := by
  have digits : ∀ {first second : Nat}, Nat.toDigits 10 first = Nat.toDigits 10 second →
      first = second := by
    intro first second equal
    rw [← @Nat.ofDigitChars_ten_toDigits first, equal, Nat.ofDigitChars_ten_toDigits]
  have signed : ∀ {first second : Nat}, Nat.toDigits 10 first ≠
      '-' :: Nat.toDigits 10 second := by
    intro first second equal
    have minus : '-' ∈ Nat.toDigits 10 first := by
      rw [equal]
      exact List.mem_cons_self
    have impossible := Nat.isDigit_of_mem_toDigits (by decide) (by decide) minus
    revert impossible
    decide
  cases left with
  | ofNat left =>
      cases right with
      | ofNat right => exact congrArg Int.ofNat (digits same)
      | negSucc right => exact absurd same signed
  | negSucc left =>
      cases right with
      | ofNat right => exact absurd same.symm signed
      | negSucc right =>
          have equal := digits (List.cons.inj same).2
          rw [Nat.succ.inj equal]

theorem decimal_ne_nil (value : Int) : decimal value ≠ [] := by
  cases value with
  | ofNat magnitude => exact Nat.toDigits_ne_nil
  | negSucc predecessor => exact List.cons_ne_nil _ _

/-! ## Escapes and string literals -/

namespace Json

/-- The number that four hexadecimal digits spell. -/
def quadValue (a b c d : Char) : Nat :=
  ((hexValue a).getD 0 * 4096 + (hexValue b).getD 0 * 256) +
    ((hexValue c).getD 0 * 16 + (hexValue d).getD 0)

theorem quadValue_hexQuad
    {code : Nat}
    (small : code < 65536) :
    quadValue (hexDigit (code / 4096 % 16)) (hexDigit (code / 256 % 16))
      (hexDigit (code / 16 % 16)) (hexDigit (code % 16)) = code := by
  rw [quadValue, hexValue_hexDigit _ (Nat.mod_lt _ (by decide)),
    hexValue_hexDigit _ (Nat.mod_lt _ (by decide)),
    hexValue_hexDigit _ (Nat.mod_lt _ (by decide)),
    hexValue_hexDigit _ (Nat.mod_lt _ (by decide))]
  simp only [Option.getD_some]
  omega

/-- Read one code point of a string literal; `none` stands for its end. -/
def readChar : Str → Option (Char × Str)
  | '\\' :: 'u' :: a :: b :: c :: d :: rest =>
      let high := quadValue a b c d
      if 55296 ≤ high ∧ high < 56320 then
        match rest with
        | _ :: _ :: e :: f :: g :: h :: rest =>
            some (Char.ofNat (65536 + (high - 55296) * 1024 + (quadValue e f g h - 56320)), rest)
        | _ => none
      else some (Char.ofNat high, rest)
  | '\\' :: 'n' :: rest => some ('\n', rest)
  | '\\' :: 'r' :: rest => some ('\r', rest)
  | '\\' :: 't' :: rest => some ('\t', rest)
  | '\\' :: 'f' :: rest => some (Char.ofNat 12, rest)
  | '\\' :: 'b' :: rest => some (Char.ofNat 8, rest)
  | '\\' :: char :: rest => some (char, rest)
  | char :: rest => if char = '"' then none else some (char, rest)
  | [] => none

/-- No character is half of a surrogate pair. -/
theorem toNat_valid (char : Char) :
    char.toNat < 55296 ∨ 57343 < char.toNat ∧ char.toNat < 1114112 := char.valid

theorem eq_ofNat_of_toNat
    {char : Char}
    {code : Nat}
    (same : char.toNat = code) :
    char = Char.ofNat code := by
  rw [← same, Char.ofNat_toNat]

/-- Reading undoes escaping. -/
theorem readChar_escape
    (char : Char)
    (rest : Str) :
    readChar (escape char ++ rest) = some (char, rest) := by
  have valid := toNat_valid char
  unfold escape
  dsimp only
  split_ifs with quote backslash newline carriage tab feed bell printable basic
  · rw [eq_ofNat_of_toNat quote]; rfl
  · rw [eq_ofNat_of_toNat backslash]; rfl
  · rw [eq_ofNat_of_toNat newline]; rfl
  · rw [eq_ofNat_of_toNat carriage]; rfl
  · rw [eq_ofNat_of_toNat tab]; rfl
  · rw [eq_ofNat_of_toNat feed]; rfl
  · rw [eq_ofNat_of_toNat bell]; rfl
  · have notQuote : char ≠ '"' := by
      rintro rfl
      exact quote rfl
    have notBackslash : char ≠ '\\' := by
      rintro rfl
      exact backslash rfl
    simp [readChar, notQuote, notBackslash]
  · have value := quadValue_hexQuad basic
    have plain : ¬(55296 ≤ char.toNat ∧ char.toNat < 56320) := by omega
    simp only [hexQuad, List.cons_append, List.nil_append, readChar, value, if_neg plain,
      Char.ofNat_toNat]
  · -- past the basic plane the two halves of the pair carry ten bits each
    have high : 55296 + (char.toNat - 65536) / 1024 < 56320 := by omega
    have low : 56320 + (char.toNat - 65536) % 1024 < 65536 := by omega
    have highValue := quadValue_hexQuad (high.trans (by decide))
    have lowValue := quadValue_hexQuad low
    have surrogate : 55296 ≤ 55296 + (char.toNat - 65536) / 1024 ∧
        55296 + (char.toNat - 65536) / 1024 < 56320 := ⟨Nat.le_add_right _ _, high⟩
    have whole : 65536 + (55296 + (char.toNat - 65536) / 1024 - 55296) * 1024 +
        (56320 + (char.toNat - 65536) % 1024 - 56320) = char.toNat := by omega
    simp only [hexQuad, List.cons_append, List.nil_append, readChar, highValue, lowValue,
      if_pos surrogate, whole, Char.ofNat_toNat]

theorem length_le_flatMap_escape (text : Str) : text.length ≤ (text.flatMap escape).length := by
  have nonempty : ∀ char, 1 ≤ (escape char).length := by
    intro char
    unfold escape
    dsimp only
    split_ifs <;> simp [hexQuad]
  induction text with
  | nil => exact Nat.zero_le _
  | cons char rest inductionHypothesis =>
      have here := nonempty char
      rw [List.flatMap_cons, List.length_append, List.length_cons]
      omega

/-- A string literal ends where it says it ends. -/
theorem quote_append_inj
    {left right rest other : Str}
    (same : quote left ++ rest = quote right ++ other) :
    left = right ∧ rest = other := by
  have body : left.flatMap escape ++ '"' :: rest = right.flatMap escape ++ '"' :: other := by
    simpa [quote] using same
  clear same
  induction left generalizing right with
  | nil =>
      cases right with
      | nil => exact ⟨rfl, (List.cons.inj body).2⟩
      | cons char right =>
          have read := congrArg readChar body
          rw [List.flatMap_cons, List.append_assoc, readChar_escape] at read
          exact absurd read (by simp [readChar])
  | cons first left inductionHypothesis =>
      have read := congrArg readChar body
      rw [List.flatMap_cons, List.append_assoc, readChar_escape] at read
      cases right with
      | nil => exact absurd read (by simp [readChar])
      | cons second right =>
          rw [List.flatMap_cons, List.append_assoc, readChar_escape] at read
          have head := Prod.mk.inj (Option.some.inj read)
          have tail := inductionHypothesis head.2
          rw [head.1, tail.1]
          exact ⟨rfl, tail.2⟩

/-! ## Objects of strings and numbers -/

/-- A string or an integer. -/
def IsScalar : Json → Prop
  | int _ => True
  | str _ => True
  | _ => False

/-- The two characters that can follow a member of an object. -/
def endsMember (char : Char) : Bool := char = ',' || char = '}'

theorem isNumeric_of_endsMember
    {char : Char}
    (ends : endsMember char = true) :
    isNumeric char = false := by
  simp only [endsMember, Bool.or_eq_true, decide_eq_true_eq] at ends
  rcases ends with rfl | rfl <;> rfl

/-- The text of a string or a number ends where the member ends. -/
theorem dumps_append_inj
    {floatText : PyFloat → Str}
    {left right : Json}
    {first second : Char}
    {rest other : Str}
    (leftScalar : left.IsScalar)
    (rightScalar : right.IsScalar)
    (leftEnds : endsMember first = true)
    (rightEnds : endsMember second = true)
    (same : dumps floatText left ++ first :: rest = dumps floatText right ++ second :: other) :
    left = right ∧ first :: rest = second :: other := by
  have leftEnds := isNumeric_of_endsMember leftEnds
  have rightEnds := isNumeric_of_endsMember rightEnds
  -- a number and a string literal differ in their first character
  have apart : ∀ {value : Int} {text tail after : Str},
      decimal value ++ tail ≠ quote text ++ after := by
    intro value text tail after equal
    cases digits : decimal value with
    | nil => exact decimal_ne_nil value digits
    | cons digit rest =>
        have inside : digit ∈ decimal value := by
          rw [digits]
          exact List.mem_cons_self
        rw [digits, quote] at equal
        obtain ⟨rfl, _⟩ := List.cons.inj equal
        exact absurd (isNumeric_of_mem_decimal inside) (by decide)
  cases left with
  | int left =>
      cases right with
      | int right =>
          have numbers := append_inj_of_ends (fun _ => isNumeric_of_mem_decimal)
            (fun _ => isNumeric_of_mem_decimal) leftEnds rightEnds same
          rw [decimal_injective numbers.1]
          exact ⟨rfl, numbers.2⟩
      | str right => exact absurd same apart
      | _ => exact rightScalar.elim
  | str left =>
      cases right with
      | int right => exact absurd same.symm apart
      | str right =>
          obtain ⟨rfl, rest⟩ := quote_append_inj same
          exact ⟨rfl, rest⟩
      | _ => exact rightScalar.elim
  | _ => exact leftScalar.elim

/-- The text of one member. -/
def memberText (floatText : PyFloat → Str) (entry : Str × Json) : Str :=
  quote entry.1 ++ ':' :: dumps floatText entry.2

/-- The text from the end of a member on. -/
def membersEnd (floatText : PyFloat → Str) : List (Str × Json) → Str
  | [] => ['}']
  | entry :: rest => ',' :: (memberText floatText entry ++ membersEnd floatText rest)

theorem membersEnd_eq_cons
    (floatText : PyFloat → Str)
    (fields : List (Str × Json)) :
    ∃ char rest, membersEnd floatText fields = char :: rest ∧ endsMember char = true := by
  cases fields with
  | nil => exact ⟨_, _, rfl, rfl⟩
  | cons entry rest => exact ⟨_, _, rfl, rfl⟩

theorem commaJoin_append
    (floatText : PyFloat → Str)
    (entry : Str × Json)
    (fields : List (Str × Json)) :
    commaJoin ((entry :: fields).map (memberText floatText)) ++ ['}'] =
      memberText floatText entry ++ membersEnd floatText fields := by
  induction fields generalizing entry with
  | nil => rfl
  | cons next rest inductionHypothesis =>
      have joined : commaJoin ((entry :: next :: rest).map (memberText floatText)) =
          memberText floatText entry ++
            ',' :: commaJoin ((next :: rest).map (memberText floatText)) := rfl
      rw [joined, List.append_assoc, List.cons_append, inductionHypothesis, membersEnd]

/-- Members of the same keys with the same text have the same values. -/
theorem membersEnd_inj
    {floatText : PyFloat → Str}
    {left right : List (Str × Json)}
    (leftScalar : ∀ entry ∈ left, entry.2.IsScalar)
    (rightScalar : ∀ entry ∈ right, entry.2.IsScalar)
    (same : membersEnd floatText left = membersEnd floatText right) :
    left = right := by
  induction left generalizing right with
  | nil =>
      cases right with
      | nil => rfl
      | cons entry right => exact absurd (List.cons.inj same).1 (by decide)
  | cons first left inductionHypothesis =>
      cases right with
      | nil => exact absurd (List.cons.inj same).1 (by decide)
      | cons second right =>
          have members := (List.cons.inj same).2
          rw [memberText, memberText, List.append_assoc, List.append_assoc] at members
          obtain ⟨keys, values⟩ := quote_append_inj members
          obtain ⟨char, rest, leftText, leftEnds⟩ := membersEnd_eq_cons floatText left
          obtain ⟨other, after, rightText, rightEnds⟩ := membersEnd_eq_cons floatText right
          have texts := (List.cons.inj values).2
          rw [leftText, rightText] at texts
          have pieces := dumps_append_inj (leftScalar first List.mem_cons_self)
            (rightScalar second List.mem_cons_self) leftEnds rightEnds texts
          have equal := inductionHypothesis
            (fun entry inside => leftScalar entry (List.mem_cons_of_mem _ inside))
            (fun entry inside => rightScalar entry (List.mem_cons_of_mem _ inside))
            (by rw [leftText, rightText, pieces.2])
          rw [equal, Prod.ext keys pieces.1]

/-- `sort_keys=True` on the members. -/
def sortMembers (fields : List (Str × Json)) : List (Str × Json) :=
  fields.insertionSort fun left right => left.1 ≤ right.1

theorem fieldTexts_eq_map
    (floatText : PyFloat → Str)
    (fields : List (Str × Json)) :
    fieldTexts floatText fields = fields.map fun entry => (entry.1, dumps floatText entry.2) := by
  induction fields with
  | nil => rw [fieldTexts, List.map_nil]
  | cons entry rest inductionHypothesis =>
      rw [fieldTexts, List.map_cons, inductionHypothesis]

theorem itemTexts_eq_map
    (floatText : PyFloat → Str)
    (items : List Json) :
    itemTexts floatText items = items.map (dumps floatText) := by
  induction items with
  | nil => rw [itemTexts, List.map_nil]
  | cons item rest inductionHypothesis =>
      rw [itemTexts, List.map_cons, inductionHypothesis]

theorem dumps_obj
    (floatText : PyFloat → Str)
    (fields : List (Str × Json)) :
    dumps floatText (obj fields) =
      '{' :: (commaJoin ((sortMembers fields).map (memberText floatText)) ++ ['}']) := by
  have sorted : sortByKey (fieldTexts floatText fields) =
      (sortMembers fields).map fun entry => (entry.1, dumps floatText entry.2) := by
    rw [fieldTexts_eq_map, sortByKey, sortMembers]
    exact (List.map_insertionSort (fun left right : Str × Json => left.1 ≤ right.1)
      (fun left right : Str × Str => left.1 ≤ right.1)
      (fun entry => (entry.1, dumps floatText entry.2)) fields fun _ _ _ _ => Iff.rfl).symm
  rw [dumps, objectText, sorted, List.map_map]
  rfl

/-- Lists with the same distinct keys in the same order that are permutations of
each other are equal. -/
theorem eq_of_perm_of_keys
    {left right : List (Str × Json)}
    (keys : left.map Prod.fst = right.map Prod.fst)
    (distinct : (left.map Prod.fst).Nodup)
    (perm : left.Perm right) :
    left = right := by
  induction left generalizing right with
  | nil => exact perm.nil_eq
  | cons first left inductionHypothesis =>
      cases right with
      | nil => exact absurd perm.symm.nil_eq (List.cons_ne_nil _ _).symm
      | cons second right =>
          have keysHead := (List.cons.inj keys).1
          have keysTail := (List.cons.inj keys).2
          have equal : first = second := by
            rcases List.mem_cons.mp (perm.subset List.mem_cons_self) with same | inside
            · exact same
            · have again : first.1 ∈ left.map Prod.fst := by
                rw [keysTail]
                exact List.mem_map_of_mem inside
              exact absurd again (List.nodup_cons.mp distinct).1
          subst equal
          rw [inductionHypothesis keysTail (List.nodup_cons.mp distinct).2 perm.cons_inv]

/-- Objects with the same distinct keys in the same order and the same text are
equal. -/
theorem dumps_obj_inj
    {floatText : PyFloat → Str}
    {left right : List (Str × Json)}
    (keys : left.map Prod.fst = right.map Prod.fst)
    (distinct : (left.map Prod.fst).Nodup)
    (leftScalar : ∀ entry ∈ left, entry.2.IsScalar)
    (rightScalar : ∀ entry ∈ right, entry.2.IsScalar)
    (same : dumps floatText (obj left) = dumps floatText (obj right)) :
    left = right := by
  have leftPerm : (sortMembers left).Perm left := List.perm_insertionSort _ _
  have rightPerm : (sortMembers right).Perm right := List.perm_insertionSort _ _
  have leftSorted : ∀ entry ∈ sortMembers left, entry.2.IsScalar :=
    fun entry inside => leftScalar entry (leftPerm.subset inside)
  have rightSorted : ∀ entry ∈ sortMembers right, entry.2.IsScalar :=
    fun entry inside => rightScalar entry (rightPerm.subset inside)
  have texts := (List.cons.inj ((dumps_obj floatText left).symm.trans
    (same.trans (dumps_obj floatText right)))).2
  have sorted : sortMembers left = sortMembers right := by
    cases leftMembers : sortMembers left with
    | nil =>
        cases rightMembers : sortMembers right with
        | nil => rfl
        | cons second right =>
            rw [leftMembers, rightMembers, commaJoin_append] at texts
            exact absurd (List.cons.inj texts).1 (by decide)
    | cons first left =>
        cases rightMembers : sortMembers right with
        | nil =>
            rw [leftMembers, rightMembers, commaJoin_append] at texts
            exact absurd (List.cons.inj texts).1 (by decide)
        | cons second right =>
            rw [leftMembers] at leftSorted texts
            rw [rightMembers] at rightSorted texts
            rw [commaJoin_append, commaJoin_append] at texts
            exact membersEnd_inj leftSorted rightSorted (congrArg (List.cons ',') texts)
  have perm : left.Perm right := leftPerm.symm.trans (sorted ▸ rightPerm)
  exact eq_of_perm_of_keys keys distinct perm

/-! ## Printable text -/

/-- A printable ASCII character. -/
def isPrintable (char : Char) : Bool := 32 ≤ char.toNat && char.toNat ≤ 126

theorem isPrintable_of_isNumeric
    {char : Char}
    (numeric : isNumeric char = true) :
    isPrintable char = true := by
  simp only [isNumeric, Bool.or_eq_true, decide_eq_true_eq] at numeric
  rcases numeric with digit | rfl
  · obtain ⟨lower, upper⟩ := Char.isDigit_iff_toNat.mp digit
    have zero : '0'.toNat = 48 := rfl
    have nine : '9'.toNat = 57 := rfl
    simp only [isPrintable, Bool.and_eq_true, decide_eq_true_eq]
    omega
  · rfl

theorem isPrintable_hexDigit
    (value : Nat)
    (small : value < 16) :
    isPrintable (hexDigit value) = true := by
  interval_cases value <;> rfl

theorem all_isPrintable_decimal (value : Int) : (decimal value).all isPrintable = true := by
  rw [List.all_eq_true]
  intro char inside
  exact isPrintable_of_isNumeric (isNumeric_of_mem_decimal inside)

theorem all_isPrintable_hexQuad (code : Nat) : (hexQuad code).all isPrintable = true := by
  have digit : ∀ value : Nat, isPrintable (hexDigit (value % 16)) = true :=
    fun value => isPrintable_hexDigit _ (Nat.mod_lt value (by decide))
  simp only [hexQuad, List.all_cons, List.all_nil, digit, Bool.and_self]

theorem all_isPrintable_escape (char : Char) : (escape char).all isPrintable = true := by
  have marker : isPrintable '\\' = true ∧ isPrintable 'u' = true := ⟨rfl, rfl⟩
  unfold escape
  dsimp only
  split_ifs with _ _ _ _ _ _ _ printable basic
  iterate 7 rfl
  · simpa [isPrintable] using printable
  · simp only [List.all_cons, marker, all_isPrintable_hexQuad, Bool.and_self]
  · simp only [List.all_cons, List.all_append, marker, all_isPrintable_hexQuad, Bool.and_self]

theorem all_isPrintable_quote (value : Str) : (quote value).all isPrintable = true := by
  have body : (value.flatMap escape).all isPrintable = true := by
    rw [List.all_flatMap, List.all_eq_true]
    intro char _
    exact all_isPrintable_escape char
  simp only [quote, List.all_cons, List.all_append, body, List.all_nil]
  rfl

/-- A value built of strings, integers, lists and objects only. -/
inductive Plain : Json → Prop
  | int (value : Int) : Plain (.int value)
  | str (value : Str) : Plain (.str value)
  | arr {items : List Json} : (∀ item ∈ items, Plain item) → Plain (.arr items)
  | obj {fields : List (Str × Json)} : (∀ entry ∈ fields, Plain entry.2) → Plain (.obj fields)

theorem all_isPrintable_commaJoin
    {texts : List Str}
    (printable : ∀ text ∈ texts, text.all isPrintable = true) :
    (commaJoin texts).all isPrintable = true := by
  fun_induction commaJoin texts with
  | case1 => rfl
  | case2 text => exact printable text List.mem_cons_self
  | case3 text rest _ inductionHypothesis =>
      have first := printable text List.mem_cons_self
      have others := inductionHypothesis
        fun text inside => printable text (List.mem_cons_of_mem _ inside)
      simp only [List.all_append, List.all_cons, first, others]
      rfl

/-- The encoding of a plain value is printable ASCII: in particular one line. -/
theorem Plain.all_isPrintable
    {floatText : PyFloat → Str}
    {value : Json}
    (plain : value.Plain) :
    (dumps floatText value).all isPrintable = true := by
  induction plain with
  | int value =>
      rw [dumps]
      exact all_isPrintable_decimal value
  | str value =>
      rw [dumps]
      exact all_isPrintable_quote value
  | @arr items _ inductionHypothesis =>
      have texts : ∀ text ∈ items.map (dumps floatText), text.all isPrintable = true := by
        intro text inside
        obtain ⟨item, member, rfl⟩ := List.mem_map.mp inside
        exact inductionHypothesis item member
      rw [dumps, itemTexts_eq_map]
      simp only [List.all_cons, List.all_append, all_isPrintable_commaJoin texts]
      rfl
  | @obj fields _ inductionHypothesis =>
      have texts : ∀ text ∈ (sortMembers fields).map (memberText floatText),
          text.all isPrintable = true := by
        intro text inside
        obtain ⟨entry, member, rfl⟩ := List.mem_map.mp inside
        have printed := inductionHypothesis entry
          ((List.perm_insertionSort _ _).subset member)
        simp only [memberText, List.all_append, List.all_cons, all_isPrintable_quote, printed]
        rfl
      rw [dumps_obj]
      simp only [List.all_cons, List.all_append, all_isPrintable_commaJoin texts]
      rfl

theorem IsScalar.plain
    {value : Json}
    (scalar : value.IsScalar) :
    value.Plain := by
  cases value with
  | int value => exact .int value
  | str value => exact .str value
  | _ => exact scalar.elim

end Json

/-- Printable texts with the same bytes are equal. -/
theorem encodeAscii_inj
    {left right : Str}
    (leftPrintable : left.all Json.isPrintable = true)
    (rightPrintable : right.all Json.isPrintable = true)
    (same : encodeAscii left = encodeAscii right) :
    left = right := by
  have read : ∀ {text : Str}, text.all Json.isPrintable = true →
      (encodeAscii text).map (fun byte => Char.ofNat byte.toNat) = text := by
    intro text printable
    have back : ∀ char ∈ text, Char.ofNat (UInt8.ofNat char.toNat).toNat = id char := by
      intro char inside
      have bounds := List.all_eq_true.mp printable char inside
      simp only [Json.isPrintable, Bool.and_eq_true, decide_eq_true_eq] at bounds
      have small : char.toNat % 2 ^ 8 = char.toNat := Nat.mod_eq_of_lt (by omega)
      rw [UInt8.toNat_ofNat', small, Char.ofNat_toNat, id]
    rw [encodeAscii, List.map_map]
    exact (List.map_congr_left back).trans (List.map_id text)
  rw [← read leftPrintable, same, read rightPrintable]

section

variable [Primitives]

/-- Objects of strings and numbers with the same distinct keys in the same order
and the same canonical encoding are equal. -/
theorem canonical_obj_inj
    {left right : List (Str × Json)}
    (same : canonical (.obj left) = canonical (.obj right))
    (keys : left.map Prod.fst = right.map Prod.fst)
    (distinct : (left.map Prod.fst).Nodup)
    (leftScalar : ∀ entry ∈ left, entry.2.IsScalar)
    (rightScalar : ∀ entry ∈ right, entry.2.IsScalar) :
    left = right := by
  have leftPlain : (Json.obj left).Plain :=
    .obj fun entry inside => (leftScalar entry inside).plain
  have rightPlain : (Json.obj right).Plain :=
    .obj fun entry inside => (rightScalar entry inside).plain
  have texts := encodeAscii_inj leftPlain.all_isPrintable rightPlain.all_isPrintable same
  exact Json.dumps_obj_inj keys distinct leftScalar rightScalar texts

/-! ## What is hashed and signed -/

/-- The signed bytes determine every field but the signature. -/
theorem Transaction.signingPayload_inj
    {left right : Transaction}
    (same : left.signingPayload = right.signingPayload) :
    { left with signature := right.signature } = right := by
  unfold Transaction.signingPayload at same
  have distinct :
      [Key.sender, Key.recipient, Key.amount, Key.fee, Key.nonce, Key.publicKey,
        Key.evidence].Nodup := by decide
  have fields := canonical_obj_inj same rfl distinct (by simp [Json.IsScalar])
    (by simp [Json.IsScalar])
  simp only [List.cons.injEq, Prod.mk.injEq, Json.str.injEq, Json.int.injEq, true_and,
    and_true] at fields
  cases left
  cases right
  simpa using fields

/-- The hashed bytes determine the transaction. -/
theorem Transaction.canonical_encodeTx_inj
    {left right : Transaction}
    (same : canonical left.encodeTx = canonical right.encodeTx) :
    left = right := by
  unfold Transaction.encodeTx at same
  have distinct :
      [Key.sender, Key.recipient, Key.amount, Key.fee, Key.nonce, Key.publicKey, Key.signature,
        Key.evidence].Nodup := by decide
  have fields := canonical_obj_inj same rfl distinct (by simp [Json.IsScalar])
    (by simp [Json.IsScalar])
  simp only [List.cons.injEq, Prod.mk.injEq, Json.str.injEq, Json.int.injEq, true_and,
    and_true] at fields
  cases left
  cases right
  simpa using fields

/-- The hashed bytes determine every field of the header. -/
theorem Block.canonical_header_inj
    {left right : Block}
    (same : canonical left.header = canonical right.header) :
    left.index = right.index ∧ left.previousHash = right.previousHash ∧
      left.timestamp = right.timestamp ∧ left.merkleRoot = right.merkleRoot ∧
      left.validator = right.validator ∧ left.nonce = right.nonce := by
  unfold Block.header at same
  have distinct :
      [Key.index, Key.previousHash, Key.timestamp, Key.merkleRoot, Key.validator,
        Key.nonce].Nodup := by decide
  have fields := canonical_obj_inj same rfl distinct (by simp [Json.IsScalar])
    (by simp [Json.IsScalar])
  simpa only [List.cons.injEq, Prod.mk.injEq, Json.str.injEq, Json.int.injEq, true_and,
    and_true] using fields

/-! ## Wire forms -/

omit [Primitives] in
/-- Reading a transaction undoes writing it. -/
@[simp] theorem decodeTx_encodeTx (tx : Transaction) : decodeTx tx.encodeTx = .ok tx := rfl

omit [Primitives] in
theorem mapM_decodeTx_encodeTx (transactions : List Transaction) :
    (transactions.map Transaction.encodeTx).mapM decodeTx = .ok transactions := by
  induction transactions with
  | nil => rfl
  | cons tx rest inductionHypothesis =>
      rw [List.map_cons, List.mapM_cons, decodeTx_encodeTx, inductionHypothesis]
      rfl

/-- Reading a block undoes writing it, but for a Merkle root left out. -/
theorem decodeBlock_encodeBlock (block : Block) :
    decodeBlock block.encodeBlock = .ok block.postInit := by
  have transactions := mapM_decodeTx_encodeTx block.transactions
  have whole : decodeBlock block.encodeBlock =
      ((block.transactions.map Transaction.encodeTx).mapM decodeTx >>= fun transactions =>
        .ok (Block.postInit { block with transactions })) := rfl
  rw [whole, transactions]
  rfl

/-- Filling in the Merkle root twice is filling it in once. -/
@[simp] theorem Block.postInit_postInit (block : Block) :
    block.postInit.postInit = block.postInit := by
  unfold Block.postInit
  by_cases missing : block.merkleRoot = []
  · simp only [if_pos missing, ite_self]
  · simp only [if_neg missing]

/-- A block that was read has its Merkle root. -/
theorem postInit_of_decodeBlock
    {data : Json}
    {block : Block}
    (decoded : decodeBlock data = .ok block) :
    block.postInit = block := by
  unfold decodeBlock at decoded
  split at decoded
  · split at decoded
    · simp only [Library.bind_eq_ok, Library.pure_eq_ok] at decoded
      obtain ⟨_, _, _, _, _, _, _, _, _, _, _, _, _, _, _, _, _, _, rfl⟩ := decoded
      exact Block.postInit_postInit _
    · cases decoded
  · cases decoded

/-! ## Collisions -/

/-- The hash function has no collision among these inputs. -/
def CollisionFree (inputs : Set Bytes) : Prop := Set.InjOn sha256 inputs

theorem CollisionFree.mono
    {inputs fewer : Set Bytes}
    (free : CollisionFree inputs)
    (subset : fewer ⊆ inputs) :
    CollisionFree fewer := Set.InjOn.mono subset free

/-- Two inputs with different hashes do not collide. -/
theorem CollisionFree.pair
    {left right : Bytes}
    (apart : sha256 left ≠ sha256 right) :
    CollisionFree {left, right} := by
  rintro first (rfl | rfl) second (rfl | rfl) same
  · rfl
  · exact absurd same apart
  · exact absurd same.symm apart
  · rfl

/-- Without a collision the hash of a block determines every field of its
header. -/
theorem CollisionFree.header
    {inputs : Set Bytes}
    {left right : Block}
    (free : CollisionFree inputs)
    (leftHashed : canonical left.header ∈ inputs)
    (rightHashed : canonical right.header ∈ inputs)
    (same : left.hash = right.hash) :
    left.index = right.index ∧ left.previousHash = right.previousHash ∧
      left.timestamp = right.timestamp ∧ left.merkleRoot = right.merkleRoot ∧
      left.validator = right.validator ∧ left.nonce = right.nonce := by
  have digests : sha256 (canonical left.header) = sha256 (canonical right.header) :=
    hex_injective same
  exact Block.canonical_header_inj (free leftHashed rightHashed digests)

/-- Without a collision a transaction identifier determines the transaction. -/
theorem CollisionFree.txid
    {inputs : Set Bytes}
    {left right : Transaction}
    (free : CollisionFree inputs)
    (leftHashed : canonical left.encodeTx ∈ inputs)
    (rightHashed : canonical right.encodeTx ∈ inputs)
    (same : left.txid = right.txid) :
    left = right := by
  have digests : sha256 (canonical left.encodeTx) = sha256 (canonical right.encodeTx) :=
    hex_injective same
  exact Transaction.canonical_encodeTx_inj (free leftHashed rightHashed digests)

end

end Mindees
