import Mindees.Core.Codec
import Mindees.Core.Symbolic

/-!
# Writing and reading JSON

`json.dumps` with and without a blank behind its separators, and a reader that
undoes both.  Texts on disk are written with blanks, hashed texts without.
-/

namespace Mindees
namespace Json

/-! ## Writing -/

mutual

/-- `json.dumps(value)`, with a gap behind every comma and colon. -/
def render (floatText : PyFloat → Str) (gap : Str) : Json → Str
  | null => ['n', 'u', 'l', 'l']
  | bool true => ['t', 'r', 'u', 'e']
  | bool false => ['f', 'a', 'l', 's', 'e']
  | int value => decimal value
  | float value => floatText value
  | str value => quote value
  | arr [] => ['[', ']']
  | arr (item :: rest) => '[' :: (render floatText gap item ++ itemsEnd floatText gap rest)
  | obj [] => ['{', '}']
  | obj ((key, value) :: rest) =>
      '{' :: (quote key ++ ':' :: (gap ++ render floatText gap value ++
        fieldsEnd floatText gap rest))

/-- The text of a list behind its first item. -/
def itemsEnd (floatText : PyFloat → Str) (gap : Str) : List Json → Str
  | [] => [']']
  | item :: rest =>
      ',' :: (gap ++ render floatText gap item ++ itemsEnd floatText gap rest)

/-- The text of an object behind its first member. -/
def fieldsEnd (floatText : PyFloat → Str) (gap : Str) : List (Str × Json) → Str
  | [] => ['}']
  | (key, value) :: rest =>
      ',' :: (gap ++ quote key ++ ':' :: (gap ++ render floatText gap value ++
        fieldsEnd floatText gap rest))

end

theorem render_obj_cons
    (floatText : PyFloat → Str)
    (gap key : Str)
    (value : Json)
    (rest : List (Str × Json)) :
    render floatText gap (.obj ((key, value) :: rest)) =
      '{' :: (quote key ++ ':' :: (gap ++ render floatText gap value ++
        fieldsEnd floatText gap rest)) := by
  rw [render]

/-- The text of an object ends with its brace. -/
theorem exists_fieldsEnd
    (floatText : PyFloat → Str)
    (gap : Str)
    (fields : List (Str × Json)) :
    ∃ body, fieldsEnd floatText gap fields = body ++ ['}'] := by
  induction fields with
  | nil => exact ⟨[], by rw [fieldsEnd, List.nil_append]⟩
  | cons entry rest inductionHypothesis =>
      obtain ⟨body, ends⟩ := inductionHypothesis
      refine ⟨',' :: (gap ++ quote entry.1 ++ ':' :: (gap ++
        render floatText gap entry.2 ++ body)), ?_⟩
      rw [fieldsEnd, ends]
      simp only [List.cons_append, List.append_assoc]

mutual

/-- The value with the keys of every object sorted. -/
def sorted : Json → Json
  | arr items => arr (sortedItems items)
  | obj fields => obj (sortMembers (sortedFields fields))
  | value => value

/-- The items of a list with their keys sorted. -/
def sortedItems : List Json → List Json
  | [] => []
  | item :: rest => sorted item :: sortedItems rest

/-- The values of an object with their keys sorted. -/
def sortedFields : List (Str × Json) → List (Str × Json)
  | [] => []
  | (key, value) :: rest => (key, sorted value) :: sortedFields rest

end

theorem sortedItems_eq_map (items : List Json) : sortedItems items = items.map sorted := by
  induction items with
  | nil => rw [sortedItems, List.map_nil]
  | cons item rest inductionHypothesis =>
      rw [sortedItems, List.map_cons, inductionHypothesis]

theorem sortedFields_eq_map (fields : List (Str × Json)) :
    sortedFields fields = fields.map fun entry => (entry.1, sorted entry.2) := by
  induction fields with
  | nil => rw [sortedFields, List.map_nil]
  | cons entry rest inductionHypothesis =>
      rw [sortedFields, List.map_cons, inductionHypothesis]

/-! ## Reading -/

/-- Skip the gap behind a separator. -/
def skipBlanks (text : Str) : Str := text.dropWhile (· = ' ')

/-- The rest of a string literal. -/
def readStr : (fuel : Nat) → Str → Option (Str × Str)
  | 0, _ => none
  | fuel + 1, text =>
      match readChar text with
      | some (char, rest) =>
          (readStr fuel rest).map fun (body, after) => (char :: body, after)
      | none => if text.head? = some '"' then some ([], text.tail) else none

/-- The number that decimal digits spell. -/
def readNat (digits : Str) : Option Nat :=
  if digits = [] then none else some (Nat.ofDigitChars 10 digits 0)

/-- The integer that a run of numeric characters spells. -/
def readInt : Str → Option Int
  | '-' :: digits => (readNat digits).map fun magnitude => -(magnitude : Int)
  | digits => (readNat digits).map fun magnitude => (magnitude : Int)

mutual

/-- One value at the start of a text, and the text behind it. -/
def readValue : (fuel : Nat) → Str → Option (Json × Str)
  | 0, _ => none
  | fuel + 1, text =>
      match text with
      | '"' :: rest => (readStr (rest.length + 1) rest).map fun (body, after) => (str body, after)
      | '[' :: ']' :: rest => some (arr [], rest)
      | '[' :: rest => (readItems fuel rest).map fun (items, after) => (arr items, after)
      | '{' :: '}' :: rest => some (obj [], rest)
      | '{' :: rest => (readFields fuel rest).map fun (fields, after) => (obj fields, after)
      | 'n' :: 'u' :: 'l' :: 'l' :: rest => some (null, rest)
      | 't' :: 'r' :: 'u' :: 'e' :: rest => some (bool true, rest)
      | 'f' :: 'a' :: 'l' :: 's' :: 'e' :: rest => some (bool false, rest)
      | text =>
          (readInt (text.takeWhile isNumeric)).map fun value =>
            (int value, text.dropWhile isNumeric)

/-- The items of a list, and the text behind its bracket. -/
def readItems : (fuel : Nat) → Str → Option (List Json × Str)
  | 0, _ => none
  | fuel + 1, text =>
      match readValue fuel (skipBlanks text) with
      | some (item, ',' :: rest) =>
          (readItems fuel rest).map fun (items, after) => (item :: items, after)
      | some (item, ']' :: rest) => some ([item], rest)
      | _ => none

/-- The members of an object, and the text behind its brace. -/
def readFields : (fuel : Nat) → Str → Option (List (Str × Json) × Str)
  | 0, _ => none
  | fuel + 1, text =>
      match skipBlanks text with
      | '"' :: start =>
          match readStr (start.length + 1) start with
          | some (key, ':' :: afterKey) =>
              match readValue fuel (skipBlanks afterKey) with
              | some (value, ',' :: rest) =>
                  (readFields fuel rest).map fun (fields, after) =>
                    ((key, value) :: fields, after)
              | some (value, '}' :: rest) => some ([(key, value)], rest)
              | _ => none
          | _ => none
      | _ => none

end

/-- A whole text as one value. -/
def read (text : Str) : Option Json :=
  match readValue (text.length + 1) text with
  | some (value, []) => some value
  | _ => none

/-! ## Reading undoes writing -/

/-- The values that come back from their text as they were: no floats, and the
keys of every object distinct. -/
inductive Readable : Json → Prop
  | null : Readable .null
  | bool (value : Bool) : Readable (.bool value)
  | int (value : Int) : Readable (.int value)
  | str (value : Str) : Readable (.str value)
  | arr {items : List Json} : (∀ item ∈ items, Readable item) → Readable (.arr items)
  | obj {fields : List (Str × Json)} :
      (fields.map Prod.fst).Nodup → (∀ entry ∈ fields, Readable entry.2) →
      Readable (.obj fields)

/-- What can follow a number. -/
def EndsNumber (text : Str) : Prop := ∀ char ∈ text.head?, isNumeric char = false

theorem readStr_flatMap_escape
    {fuel : Nat}
    (value rest : Str)
    (enough : value.length < fuel) :
    readStr fuel (value.flatMap escape ++ '"' :: rest) = some (value, rest) := by
  induction value generalizing fuel with
  | nil =>
      cases fuel with
      | zero => cases enough
      | succ fuel => simp [readStr, readChar]
  | cons char value inductionHypothesis =>
      cases fuel with
      | zero => cases enough
      | succ fuel =>
          have shorter := inductionHypothesis (Nat.lt_of_succ_lt_succ enough)
          rw [List.flatMap_cons, List.append_assoc, readStr, readChar_escape]
          simp only [shorter, Option.map_some]

theorem readNat_toDigits (magnitude : Nat) :
    readNat (Nat.toDigits 10 magnitude) = some magnitude := by
  rw [readNat, if_neg Nat.toDigits_ne_nil, Nat.ofDigitChars_ten_toDigits]

theorem readInt_decimal (value : Int) : readInt (decimal value) = some value := by
  cases value with
  | ofNat magnitude =>
      have unsigned : ∀ digits, Nat.toDigits 10 magnitude ≠ '-' :: digits := by
        intro digits equal
        have minus : '-' ∈ Nat.toDigits 10 magnitude := by
          rw [equal]
          exact List.mem_cons_self
        have impossible := Nat.isDigit_of_mem_toDigits (by decide) (by decide) minus
        revert impossible
        decide
      rw [decimal, readInt, readNat_toDigits]
      · rfl
      · exact unsigned
  | negSucc predecessor =>
      rw [decimal, readInt, readNat_toDigits]
      rfl

theorem takeWhile_decimal
    {value : Int}
    {rest : Str}
    (ends : EndsNumber rest) :
    (decimal value ++ rest).takeWhile isNumeric = decimal value ∧
      (decimal value ++ rest).dropWhile isNumeric = rest := by
  have inside : ∀ char ∈ decimal value, isNumeric char = true :=
    fun char => isNumeric_of_mem_decimal
  rw [List.takeWhile_append_of_pos inside, List.dropWhile_append_of_pos inside]
  cases rest with
  | nil => exact ⟨List.append_nil _, rfl⟩
  | cons char rest =>
      have stop : ¬isNumeric char = true := by
        rw [ends char rfl]
        exact Bool.false_ne_true
      rw [List.takeWhile_cons_of_neg stop, List.dropWhile_cons_of_neg stop, List.append_nil]
      exact ⟨rfl, rfl⟩

variable {floatText : PyFloat → Str} {gap : Str}

/-- The text starts with a character that is neither a blank nor a closing
bracket. -/
def StartsVisibly (text : Str) : Prop :=
  ∃ char rest, text = char :: rest ∧ char ≠ ' ' ∧ char ≠ ']'

theorem StartsVisibly.append
    {text : Str}
    (starts : StartsVisibly text)
    (rest : Str) :
    StartsVisibly (text ++ rest) := by
  obtain ⟨char, tail, rfl, visible⟩ := starts
  exact ⟨char, tail ++ rest, rfl, visible⟩

/-- Fuel for such a text is not zero. -/
theorem StartsVisibly.exists_fuel
    {text : Str}
    {fuel : Nat}
    (starts : StartsVisibly text)
    (enough : text.length ≤ fuel) :
    ∃ smaller, fuel = smaller + 1 := by
  obtain ⟨_, _, rfl, _⟩ := starts
  rw [List.length_cons] at enough
  exact ⟨fuel - 1, by omega⟩

theorem Readable.startsVisibly
    (floatText : PyFloat → Str)
    (gap : Str)
    {value : Json}
    (readable : value.Readable) :
    StartsVisibly (render floatText gap value) := by
  cases readable with
  | null => exact ⟨_, _, rfl, by decide⟩
  | bool value => cases value <;> exact ⟨_, _, rfl, by decide⟩
  | int value =>
      cases digits : decimal value with
      | nil => exact absurd digits (decimal_ne_nil value)
      | cons char rest =>
          have inside : char ∈ decimal value := by
            rw [digits]
            exact List.mem_cons_self
          have numeric := isNumeric_of_mem_decimal inside
          refine ⟨char, rest, by rw [render, digits], ?_, ?_⟩ <;> rintro rfl <;> cases numeric
  | str value => exact ⟨_, _, by rw [render, quote], by decide⟩
  | @arr items _ =>
      cases items with
      | nil => exact ⟨_, _, by rw [render], by decide⟩
      | cons item rest => exact ⟨_, _, by rw [render], by decide⟩
  | @obj fields _ _ =>
      cases fields with
      | nil => exact ⟨_, _, by rw [render], by decide⟩
      | cons entry rest => exact ⟨_, _, by rw [render], by decide⟩

/-- A gap in front of a text that does not start with a blank is skipped. -/
theorem skipBlanks_append
    {gap text : Str}
    (blank : ∀ char ∈ gap, char = ' ')
    (starts : StartsVisibly text) :
    skipBlanks (gap ++ text) = text := by
  obtain ⟨char, rest, rfl, visible, _⟩ := starts
  have blanks : ∀ char ∈ gap, decide (char = ' ') = true :=
    fun char inside => decide_eq_true (blank char inside)
  rw [skipBlanks, List.dropWhile_append_of_pos blanks, List.dropWhile_cons_of_neg]
  rw [decide_eq_true_eq]
  exact visible

/-- A value comes back from its text, whatever follows. -/
def Reads (floatText : PyFloat → Str) (gap : Str) (value : Json) : Prop :=
  ∀ fuel rest, (render floatText gap value).length ≤ fuel → EndsNumber rest →
    readValue fuel (render floatText gap value ++ rest) = some (value, rest)

theorem endsNumber_fieldsEnd
    (fields : List (Str × Json))
    (rest : Str) :
    EndsNumber (fieldsEnd floatText gap fields ++ rest) := by
  intro char first
  cases fields <;> simp only [fieldsEnd, List.cons_append, List.head?_cons, Option.mem_def,
    Option.some.injEq] at first <;> rw [← first] <;> rfl

theorem length_itemsEnd
    (floatText : PyFloat → Str)
    (gap : Str)
    (items : List Json) :
    0 < (itemsEnd floatText gap items).length := by
  cases items <;> simp [itemsEnd]

theorem length_fieldsEnd
    (floatText : PyFloat → Str)
    (gap : Str)
    (fields : List (Str × Json)) :
    0 < (fieldsEnd floatText gap fields).length := by
  cases fields <;> simp [fieldsEnd]

section

variable {before rest : Str} {item : Json} {fuel : Nat}

/-- One item, the last of its list. -/
theorem readItems_last
    (beforeBlank : ∀ char ∈ before, char = ' ')
    (readable : item.Readable)
    (reads : Reads floatText gap item)
    (enough : (render floatText gap item).length ≤ fuel) :
    readItems (fuel + 1) (before ++ (render floatText gap item ++ ']' :: rest)) =
      some ([item], rest) := by
  have starts := (readable.startsVisibly floatText gap).append (']' :: rest)
  have ends : EndsNumber (']' :: rest) := by
    rintro char ⟨⟩
    rfl
  rw [readItems, skipBlanks_append beforeBlank starts, reads fuel _ enough ends]
  rfl

/-- One item in front of others. -/
theorem readItems_more
    (beforeBlank : ∀ char ∈ before, char = ' ')
    (readable : item.Readable)
    (reads : Reads floatText gap item)
    (enough : (render floatText gap item).length ≤ fuel)
    {items : List Json}
    {after : Str}
    (others : readItems fuel rest = some (items, after)) :
    readItems (fuel + 1) (before ++ (render floatText gap item ++ ',' :: rest)) =
      some (item :: items, after) := by
  have starts := (readable.startsVisibly floatText gap).append (',' :: rest)
  have ends : EndsNumber (',' :: rest) := by
    rintro char ⟨⟩
    rfl
  rw [readItems, skipBlanks_append beforeBlank starts, reads fuel _ enough ends]
  simp only [others, Option.map_some]

/-- The items of a list come back, the first behind a gap of its own. -/
theorem readItems_itemsEnd
    (blank : ∀ char ∈ gap, char = ' ')
    {items : List Json}
    (beforeBlank : ∀ char ∈ before, char = ' ')
    (readable : ∀ entry ∈ item :: items, Readable entry)
    (reads : ∀ entry ∈ item :: items, Reads floatText gap entry)
    (enough : (render floatText gap item).length + (itemsEnd floatText gap items).length ≤ fuel) :
    readItems fuel (before ++ (render floatText gap item ++
      (itemsEnd floatText gap items ++ rest))) = some (item :: items, rest) := by
  have longer := length_itemsEnd floatText gap items
  obtain ⟨fuel, rfl⟩ : ∃ smaller, fuel = smaller + 1 := ⟨fuel - 1, by omega⟩
  have here := readable item List.mem_cons_self
  have back := reads item List.mem_cons_self
  induction items generalizing before item fuel with
  | nil => exact readItems_last beforeBlank here back (by omega)
  | cons next more inductionHypothesis =>
      have split : itemsEnd floatText gap (next :: more) ++ rest =
          ',' :: (gap ++ (render floatText gap next ++ (itemsEnd floatText gap more ++ rest))) := by
        simp only [itemsEnd, List.cons_append, List.append_assoc]
      have length : (itemsEnd floatText gap (next :: more)).length = gap.length +
          (render floatText gap next).length + (itemsEnd floatText gap more).length + 1 := by
        simp only [itemsEnd, List.length_cons, List.length_append]
      have positive := length_itemsEnd floatText gap more
      rw [split]
      obtain ⟨smaller, rfl⟩ : ∃ smaller, fuel = smaller + 1 := ⟨fuel - 1, by omega⟩
      refine readItems_more beforeBlank here back (by omega) ?_
      exact inductionHypothesis blank
        (fun entry inside => readable entry (List.mem_cons_of_mem _ inside))
        (fun entry inside => reads entry (List.mem_cons_of_mem _ inside)) positive smaller
        (by omega) (readable next (by simp)) (reads next (by simp))

/-! ### Members -/

variable {key : Str} {value : Json}

/-- A member comes back up to the separator behind it. -/
theorem readFields_key
    (blank : ∀ char ∈ gap, char = ' ')
    (beforeBlank : ∀ char ∈ before, char = ' ')
    (readable : value.Readable)
    (reads : Reads floatText gap value)
    (enough : (render floatText gap value).length ≤ fuel)
    (ends : EndsNumber rest) :
    readFields (fuel + 1) (before ++ (quote key ++ ':' :: (gap ++
      (render floatText gap value ++ rest)))) =
      match some (value, rest) with
      | some (value, ',' :: rest) =>
          (readFields fuel rest).map fun (fields, after) => ((key, value) :: fields, after)
      | some (value, '}' :: rest) => some ([(key, value)], rest)
      | _ => none := by
  have literal : StartsVisibly (quote key ++ ':' :: (gap ++
      (render floatText gap value ++ rest))) := ⟨'"', _, rfl, by decide⟩
  have starts := (readable.startsVisibly floatText gap).append rest
  have spelled : quote key ++ ':' :: (gap ++ (render floatText gap value ++ rest)) =
      '"' :: (key.flatMap escape ++ '"' :: ':' :: (gap ++
        (render floatText gap value ++ rest))) := by
    simp only [quote, List.cons_append, List.append_assoc, List.nil_append]
  have long : key.length < (key.flatMap escape ++ '"' :: ':' :: (gap ++
      (render floatText gap value ++ rest))).length + 1 := by
    have body := length_le_flatMap_escape key
    simp only [List.length_append]
    omega
  rw [readFields, skipBlanks_append beforeBlank literal, spelled]
  simp only [readStr_flatMap_escape key _ long, skipBlanks_append blank starts,
    reads fuel rest enough ends]

/-- The members of an object come back, the first behind a gap of its own. -/
theorem readFields_fieldsEnd
    (blank : ∀ char ∈ gap, char = ' ')
    {fields : List (Str × Json)}
    (beforeBlank : ∀ char ∈ before, char = ' ')
    (readable : ∀ entry ∈ (key, value) :: fields, Readable entry.2)
    (reads : ∀ entry ∈ (key, value) :: fields, Reads floatText gap entry.2)
    (enough : (render floatText gap value).length + (fieldsEnd floatText gap fields).length ≤
      fuel) :
    readFields fuel (before ++ (quote key ++ ':' :: (gap ++ (render floatText gap value ++
      (fieldsEnd floatText gap fields ++ rest))))) = some ((key, value) :: fields, rest) := by
  have longer := length_fieldsEnd floatText gap fields
  obtain ⟨fuel, rfl⟩ : ∃ smaller, fuel = smaller + 1 := ⟨fuel - 1, by omega⟩
  have here : value.Readable := readable _ List.mem_cons_self
  have back : Reads floatText gap value := reads _ List.mem_cons_self
  induction fields generalizing before key value fuel with
  | nil =>
      rw [readFields_key blank beforeBlank here back (by omega) (endsNumber_fieldsEnd [] rest)]
      rfl
  | cons next more inductionHypothesis =>
      obtain ⟨nextKey, nextValue⟩ := next
      have split : fieldsEnd floatText gap ((nextKey, nextValue) :: more) ++ rest =
          ',' :: (gap ++ (quote nextKey ++ ':' :: (gap ++ (render floatText gap nextValue ++
            (fieldsEnd floatText gap more ++ rest))))) := by
        simp only [fieldsEnd, List.cons_append, List.append_assoc]
      have length : (fieldsEnd floatText gap ((nextKey, nextValue) :: more)).length =
          gap.length + (quote nextKey).length + gap.length +
            (render floatText gap nextValue).length +
            (fieldsEnd floatText gap more).length + 2 := by
        simp only [fieldsEnd, List.length_cons, List.length_append]
        omega
      have positive := length_fieldsEnd floatText gap more
      obtain ⟨smaller, rfl⟩ : ∃ smaller, fuel = smaller + 1 := ⟨fuel - 1, by omega⟩
      have later := inductionHypothesis blank
        (fun entry inside => readable entry (List.mem_cons_of_mem _ inside))
        (fun entry inside => reads entry (List.mem_cons_of_mem _ inside)) positive smaller
        (by omega) (readable (nextKey, nextValue) (by simp)) (reads (nextKey, nextValue) (by simp))
      rw [readFields_key blank beforeBlank here back (by omega)
        (endsNumber_fieldsEnd ((nextKey, nextValue) :: more) rest), split]
      simp only [later, Option.map_some]

end

/-- A text that starts with a numeric character is read as a number. -/
theorem readValue_number
    {char : Char}
    (numeric : isNumeric char = true)
    (fuel : Nat)
    (rest : Str) :
    readValue (fuel + 1) (char :: rest) =
      (readInt ((char :: rest).takeWhile isNumeric)).map fun value =>
        (int value, (char :: rest).dropWhile isNumeric) := by
  have apart : ∀ other, isNumeric other = false → char ≠ other := by
    rintro other notNumeric rfl
    rw [notNumeric] at numeric
    cases numeric
  rw [readValue] <;> intro _ equal <;> exact apart _ (by rfl) (List.cons.inj equal).1

theorem reads_int (value : Int) : Reads floatText gap (.int value) := by
  intro fuel rest enough ends
  obtain ⟨fuel, rfl⟩ := ((Readable.int value).startsVisibly floatText gap).exists_fuel enough
  obtain ⟨taken, dropped⟩ := @takeWhile_decimal value rest ends
  rw [render]
  cases digits : decimal value with
  | nil => exact absurd digits (decimal_ne_nil value)
  | cons char tail =>
      have inside : char ∈ decimal value := by
        rw [digits]
        exact List.mem_cons_self
      rw [digits, List.cons_append] at taken dropped
      rw [List.cons_append, readValue_number (isNumeric_of_mem_decimal inside), taken, dropped,
        ← digits, readInt_decimal]
      rfl

theorem reads_str (value : Str) : Reads floatText gap (.str value) := by
  intro fuel rest enough _
  obtain ⟨fuel, rfl⟩ := ((Readable.str value).startsVisibly floatText gap).exists_fuel enough
  have spelled : render floatText gap (.str value) ++ rest =
      '"' :: (value.flatMap escape ++ '"' :: rest) := by
    simp only [render, quote, List.cons_append, List.append_assoc, List.nil_append]
  have long : value.length < (value.flatMap escape ++ '"' :: rest).length + 1 := by
    have body := length_le_flatMap_escape value
    simp only [List.length_append]
    omega
  rw [spelled, readValue, readStr_flatMap_escape value rest long]
  rfl

theorem reads_arr
    (blank : ∀ char ∈ gap, char = ' ')
    {item : Json}
    {items : List Json}
    (readable : ∀ entry ∈ item :: items, Readable entry)
    (reads : ∀ entry ∈ item :: items, Reads floatText gap entry) :
    Reads floatText gap (.arr (item :: items)) := by
  intro fuel rest enough _
  have positive := length_itemsEnd floatText gap items
  rw [render, List.length_cons, List.length_append] at enough
  obtain ⟨fuel, rfl⟩ : ∃ smaller, fuel = smaller + 1 := ⟨fuel - 1, by omega⟩
  have spelled : render floatText gap (.arr (item :: items)) ++ rest =
      '[' :: ([] ++ (render floatText gap item ++ (itemsEnd floatText gap items ++ rest))) := by
    simp only [render, List.cons_append, List.append_assoc, List.nil_append]
  have back : readItems fuel ([] ++ (render floatText gap item ++
      (itemsEnd floatText gap items ++ rest))) = some (item :: items, rest) :=
    readItems_itemsEnd blank (by rintro _ ⟨⟩) readable reads (by omega)
  have opened : ∀ tail, [] ++ (render floatText gap item ++ (itemsEnd floatText gap items ++
      rest)) ≠ ']' :: tail := by
    intro tail equal
    obtain ⟨char, text, first, _, notBracket⟩ :=
      (readable item List.mem_cons_self).startsVisibly floatText gap
    rw [first] at equal
    exact notBracket (List.cons.inj equal).1
  rw [spelled, readValue, back]
  · rfl
  · exact opened

theorem reads_obj
    (blank : ∀ char ∈ gap, char = ' ')
    {key : Str}
    {value : Json}
    {fields : List (Str × Json)}
    (readable : ∀ entry ∈ (key, value) :: fields, Readable entry.2)
    (reads : ∀ entry ∈ (key, value) :: fields, Reads floatText gap entry.2) :
    Reads floatText gap (.obj ((key, value) :: fields)) := by
  intro fuel rest enough _
  have positive := length_fieldsEnd floatText gap fields
  simp only [render, List.length_cons, List.length_append] at enough
  obtain ⟨fuel, rfl⟩ : ∃ smaller, fuel = smaller + 1 := ⟨fuel - 1, by omega⟩
  have spelled : render floatText gap (.obj ((key, value) :: fields)) ++ rest =
      '{' :: ([] ++ (quote key ++ ':' :: (gap ++ (render floatText gap value ++
        (fieldsEnd floatText gap fields ++ rest))))) := by
    simp only [render, List.cons_append, List.append_assoc, List.nil_append]
  have back : readFields fuel ([] ++ (quote key ++ ':' :: (gap ++ (render floatText gap value ++
      (fieldsEnd floatText gap fields ++ rest))))) = some ((key, value) :: fields, rest) :=
    readFields_fieldsEnd blank (by rintro _ ⟨⟩) readable reads (by omega)
  rw [spelled, readValue, back]
  · rfl
  · rintro tail ⟨⟩

/-- Reading undoes writing, inside any text. -/
theorem Readable.reads
    (blank : ∀ char ∈ gap, char = ' ')
    {value : Json}
    (readable : value.Readable) :
    Reads floatText gap value := by
  have starts := readable.startsVisibly floatText gap
  induction readable with
  | null =>
      intro fuel rest enough _
      obtain ⟨fuel, rfl⟩ := starts.exists_fuel enough
      rw [render]
      rfl
  | bool value =>
      intro fuel rest enough _
      obtain ⟨fuel, rfl⟩ := starts.exists_fuel enough
      cases value <;> rw [render] <;> rfl
  | int value => exact reads_int value
  | str value => exact reads_str value
  | @arr items readable inductionHypothesis =>
      have reads : ∀ entry ∈ items, Reads floatText gap entry := by
        intro entry inside
        exact inductionHypothesis entry inside
          ((readable entry inside).startsVisibly floatText gap)
      cases items with
      | nil =>
          intro fuel rest enough _
          obtain ⟨fuel, rfl⟩ := starts.exists_fuel enough
          rw [render]
          rfl
      | cons item items => exact reads_arr blank readable reads
  | @obj fields _ readable inductionHypothesis =>
      have reads : ∀ entry ∈ fields, Reads floatText gap entry.2 := by
        intro entry inside
        exact inductionHypothesis entry inside
          ((readable entry inside).startsVisibly floatText gap)
      cases fields with
      | nil =>
          intro fuel rest enough _
          obtain ⟨fuel, rfl⟩ := starts.exists_fuel enough
          rw [render]
          rfl
      | cons entry fields => exact reads_obj blank readable reads

/-- Reading a written text gives the value back. -/
theorem read_render
    (floatText : PyFloat → Str)
    {gap : Str}
    (blank : ∀ char ∈ gap, char = ' ')
    {value : Json}
    (readable : value.Readable) :
    read (render floatText gap value) = some value := by
  have reads : Reads floatText gap value := readable.reads blank
  have back := reads ((render floatText gap value).length + 1) [] (Nat.le_succ _) (by rintro _ ⟨⟩)
  rw [List.append_nil] at back
  rw [read, back]

/-! ## Written texts are printable -/

theorem all_isPrintable_itemsEnd
    {items : List Json}
    (gapPrintable : gap.all isPrintable = true)
    (printable : ∀ item ∈ items, (render floatText gap item).all isPrintable = true) :
    (itemsEnd floatText gap items).all isPrintable = true := by
  induction items with
  | nil => rfl
  | cons item rest inductionHypothesis =>
      have here := printable item List.mem_cons_self
      have later := inductionHypothesis
        fun item inside => printable item (List.mem_cons_of_mem _ inside)
      simp only [itemsEnd, List.all_cons, List.all_append, gapPrintable, here, later]
      rfl

theorem all_isPrintable_fieldsEnd
    {fields : List (Str × Json)}
    (gapPrintable : gap.all isPrintable = true)
    (printable : ∀ entry ∈ fields, (render floatText gap entry.2).all isPrintable = true) :
    (fieldsEnd floatText gap fields).all isPrintable = true := by
  induction fields with
  | nil => rfl
  | cons entry rest inductionHypothesis =>
      have here := printable entry List.mem_cons_self
      have later := inductionHypothesis
        fun entry inside => printable entry (List.mem_cons_of_mem _ inside)
      simp only [fieldsEnd, List.all_cons, List.all_append, gapPrintable, here, later,
        all_isPrintable_quote]
      rfl

/-- The text of a readable value is one line of ASCII. -/
theorem Readable.all_isPrintable
    (gapPrintable : gap.all isPrintable = true)
    {value : Json}
    (readable : value.Readable) :
    (render floatText gap value).all isPrintable = true := by
  induction readable with
  | null => rw [render]; rfl
  | bool value => cases value <;> rw [render] <;> rfl
  | int value =>
      rw [render]
      exact all_isPrintable_decimal value
  | str value =>
      rw [render]
      exact all_isPrintable_quote value
  | @arr items _ inductionHypothesis =>
      cases items with
      | nil => rw [render]; rfl
      | cons item items =>
          have first := inductionHypothesis item List.mem_cons_self
          have others := all_isPrintable_itemsEnd gapPrintable
            fun item inside => inductionHypothesis item (List.mem_cons_of_mem _ inside)
          simp only [render, List.all_cons, List.all_append, first, others]
          rfl
  | @obj fields _ _ inductionHypothesis =>
      cases fields with
      | nil => rw [render]; rfl
      | cons entry fields =>
          have first := inductionHypothesis entry List.mem_cons_self
          have others := all_isPrintable_fieldsEnd gapPrintable
            fun entry inside => inductionHypothesis entry (List.mem_cons_of_mem _ inside)
          simp only [render, List.all_cons, List.all_append, gapPrintable, first, others,
            all_isPrintable_quote]
          rfl

end Json

/-- The executable primitives with a reader for all of JSON but floats. -/
@[reducible] def Symbolic.reading : Primitives := { Symbolic.primitives with jsonLoads := Json.read }

end Mindees
