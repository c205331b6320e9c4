import Mathlib.Algebra.Order.Ring.Rat
import Mathlib.Data.List.Sort
import Mathlib.Order.Lattice
import Mathlib.Data.Char
import Mathlib.Data.List.Lex
import Mindees.Core.Text

/-!
# JSON values and the canonical encoding

`canonical` is the encoding that everything hashed or signed goes through:
`json.dumps` with sorted keys, no blanks and ASCII escapes.
-/

namespace Mindees

/-- A Python `float`: an exact rational, the negative zero, an infinity or a NaN. -/
inductive PyFloat
  | finite (value : Rat)
  | negativeZero
  | infinite (negative : Bool)
  | nan
  deriving DecidableEq

/-- What a float is compared as: the two zeros are equal. -/
def PyFloat.compared : PyFloat → PyFloat
  | negativeZero => finite 0
  | value => value

/-- A value that `json.loads` can return. -/
inductive Json
  | null
  | bool (value : Bool)
  | int (value : Int)
  | float (value : PyFloat)
  | str (value : Str)
  | arr (items : List Json)
  | obj (fields : List (Str × Json))

namespace Json

/-- `d[k]` on an object; `none` stands for its `KeyError`. -/
def field : List (Str × Json) → Str → Option Json
  | [], _ => none
  | (key, value) :: rest, wanted => if key = wanted then some value else field rest wanted

/-! ## Comparison

Python compares integers, Booleans and floats by numeric value; `<` between
other kinds of value raises a `TypeError`. -/

/-- The number that a numeric value stands for. -/
def number : Json → Option PyFloat
  | bool value => some (.finite (if value then 1 else 0))
  | int value => some (.finite value)
  | float value => some value.compared
  | _ => none

/-- `==` on numbers; a NaN equals nothing. -/
def numberEq : PyFloat → PyFloat → Bool
  | .finite left, .finite right => left = right
  | .infinite left, .infinite right => left = right
  | _, _ => false

/-- `<` on numbers; a NaN is below nothing. -/
def numberLt : PyFloat → PyFloat → Bool
  | .finite left, .finite right => left < right
  | .finite _, .infinite negative => !negative
  | .infinite negative, .finite _ => negative
  | .infinite left, .infinite right => left && !right
  | _, _ => false

/-- Two NaNs.  Those that `json.loads` returns are all one object, which a list or a
dictionary finds equal to itself before it compares any value. -/
def sameNan : Json → Json → Bool
  | float .nan, float .nan => true
  | _, _ => false

mutual

/-- `a == b`. -/
def eq : Json → Json → Bool
  | null, null => true
  | str left, str right => left = right
  | arr left, arr right => eqItems left right
  | obj left, obj right =>
      left.length = right.length && eqFields left right
  | bool left, bool right => left = right
  | int left, int right => left = right
  | bool left, int right => (if left then 1 else 0) = right
  | int left, bool right => left = (if right then 1 else 0)
  | float left, right =>
      match number right with
      | some right => numberEq left.compared right
      | none => false
  | bool left, float right => numberEq (.finite (if left then 1 else 0)) right.compared
  | int left, float right => numberEq (.finite left) right.compared
  | _, _ => false

/-- `==` on lists. -/
def eqItems : List Json → List Json → Bool
  | [], [] => true
  | left :: lefts, right :: rights =>
      (sameNan left right || eq left right) && eqItems lefts rights
  | _, _ => false

/-- Every field of the left object is equal to the right object's. -/
def eqFields : List (Str × Json) → List (Str × Json) → Bool
  | [], _ => true
  | (key, left) :: lefts, rights =>
      (match field rights key with
      | some right => sameNan left right || eq left right
      | none => false) && eqFields lefts rights

end

mutual

/-- `a < b`; `none` stands for the `TypeError` on values without an order. -/
def lt : Json → Json → Option Bool
  | str left, str right => some (decide (left < right))
  | arr left, arr right => ltItems left right
  | bool left, right =>
      (number right).map (numberLt (.finite (if left then 1 else 0)))
  | int left, right => (number right).map (numberLt (.finite left))
  | float left, right => (number right).map (numberLt left.compared)
  | _, _ => none

/-- `<` on lists: the first unequal position decides. -/
def ltItems : List Json → List Json → Option Bool
  | _, [] => some false
  | [], _ :: _ => some true
  | left :: lefts, right :: rights =>
      if sameNan left right || eq left right then ltItems lefts rights else lt left right

end

/-! ## Encoding -/

/-- Four hexadecimal digits. -/
def hexQuad (code : Nat) : Str :=
  [hexDigit (code / 4096 % 16), hexDigit (code / 256 % 16),
    hexDigit (code / 16 % 16), hexDigit (code % 16)]

/-- One code point inside a JSON string, with the escapes of `ensure_ascii`. -/
def escape (char : Char) : Str :=
  let code := char.toNat
  if code = 34 then ['\\', '"']
  else if code = 92 then ['\\', '\\']
  else if code = 10 then ['\\', 'n']
  else if code = 13 then ['\\', 'r']
  else if code = 9 then ['\\', 't']
  else if code = 12 then ['\\', 'f']
  else if code = 8 then ['\\', 'b']
  else if 32 ≤ code ∧ code ≤ 126 then [char]
  else if code < 65536 then '\\' :: 'u' :: hexQuad code
  else
    -- a surrogate pair for the code points past the basic plane
    let offset := code - 65536
    ('\\' :: 'u' :: hexQuad (55296 + offset / 1024)) ++
      ('\\' :: 'u' :: hexQuad (56320 + offset % 1024))

/-- A JSON string literal. -/
def quote (text : Str) : Str := '"' :: (text.flatMap escape ++ ['"'])

/-- Join texts with commas. -/
def commaJoin : List Str → Str
  | [] => []
  | [text] => text
  | text :: rest => text ++ ',' :: commaJoin rest

/-- `sort_keys=True`. -/
def sortByKey (fields : List (Str × Str)) : List (Str × Str) :=
  fields.insertionSort fun left right => left.1 ≤ right.1

/-- The members of an object, in key order. -/
def objectText (fields : List (Str × Str)) : Str :=
  '{' :: (commaJoin ((sortByKey fields).map fun entry =>
    quote entry.1 ++ ':' :: entry.2) ++ ['}'])

mutual

/-- `json.dumps(value, sort_keys=True, separators=(",", ":"))`, with the text
of a float supplied by the caller. -/
def dumps (floatText : PyFloat → Str) : Json → Str
  | null => ['n', 'u', 'l', 'l']
  | bool true => ['t', 'r', 'u', 'e']
  | bool false => ['f', 'a', 'l', 's', 'e']
  | int value => decimal value
  | float value => floatText value
  | str value => quote value
  | arr items => '[' :: (commaJoin (itemTexts floatText items) ++ [']'])
  | obj fields => objectText (fieldTexts floatText fields)

/-- The texts of the items of a list. -/
def itemTexts (floatText : PyFloat → Str) : List Json → List Str
  | [] => []
  | item :: rest => dumps floatText item :: itemTexts floatText rest

/-- The keys of an object with the texts of their values. -/
def fieldTexts (floatText : PyFloat → Str) :
    List (Str × Json) → List (Str × Str)
  | [] => []
  | (key, value) :: rest =>
      (key, dumps floatText value) :: fieldTexts floatText rest

end

end Json

/-- `text.encode()` for text that is ASCII already. -/
def encodeAscii (text : Str) : Bytes := text.map fun char => UInt8.ofNat char.toNat

end Mindees
