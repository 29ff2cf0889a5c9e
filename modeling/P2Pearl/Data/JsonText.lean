import P2Pearl.Data.Hex

/-!
JSON values and the text of a value.

* `Json`: the values; a dictionary is a list of its items, in the order of insertion.
* `escapeChar`, `dumpsStr`: a text in ASCII, between quotes.
* `Json.dumps`: the text of a value, with compact separators.
-/

namespace P2Pearl

/-! ### Values -/

/-- A value `json.loads` returns. -/
inductive Json where
  | null
  | bool (b : Bool)
  | int (n : ℤ)
  /-- The value of a float, none for an infinity or a NaN. -/
  | float (x : Option ℚ)
  | str (s : PyStr)
  | arr (l : List Json)
  | obj (fields : List (PyStr × Json))

/-- `dict.get`. -/
def dictGet (fields : List (PyStr × Json)) (key : String) : Option Json :=
  (fields.find? fun p => p.1 = key.toList).map Prod.snd

/-! ### Texts -/

/-- The escape of a code unit, four digits. -/
def unicodeEscape (n : ℕ) : PyStr := Char.ofNat 0x5c :: 'u' :: hexDigits 4 n

/-- A character in an ASCII JSON text. -/
def escapeChar (c : Char) : PyStr :=
  let n := c.toNat
  if n = 0x22 ∨ n = 0x5c then [Char.ofNat 0x5c, c]
  else if n = 0x08 then [Char.ofNat 0x5c, 'b']
  else if n = 0x09 then [Char.ofNat 0x5c, 't']
  else if n = 0x0a then [Char.ofNat 0x5c, 'n']
  else if n = 0x0c then [Char.ofNat 0x5c, 'f']
  else if n = 0x0d then [Char.ofNat 0x5c, 'r']
  else if 0x20 ≤ n ∧ n ≤ 0x7e then [c]
  else if n < 0x10000 then unicodeEscape n
  else unicodeEscape (0xd800 + (n - 0x10000) / 0x400) ++
    unicodeEscape (0xdc00 + (n - 0x10000) % 0x400)

/-- A text between the quotes of its JSON. -/
def escape (s : PyStr) : PyStr := s.flatMap escapeChar

/-- Items with commas between them. -/
def joinComma : List PyStr → PyStr
  | [] => []
  | [x] => x
  | x :: y :: rest => x ++ ',' :: joinComma (y :: rest)

lemma length_joinComma (x : PyStr) (rest : List PyStr) :
    (joinComma (x :: rest)).length
      = x.length + (rest.map fun y => y.length + 1).sum := by
  induction rest generalizing x with
  | nil => simp [joinComma]
  | cons y rest ih =>
      rw [joinComma, List.length_append, List.length_cons, ih y, List.map_cons, List.sum_cons]
      omega

/-- `json.dumps` of a text. -/
def dumpsStr (s : PyStr) : PyStr := Char.ofNat 0x22 :: (escape s ++ [Char.ofNat 0x22])

/-- `json.dumps` of a list, given that of its items. -/
def dumpsList (items : List PyStr) : PyStr := '[' :: (joinComma items ++ [']'])

/-- `json.dumps` of a dictionary, given that of its values, with compact separators. -/
def dumpsDict (fields : List (String × PyStr)) : PyStr :=
  '{' :: (joinComma (fields.map fun p => dumpsStr p.1.toList ++ ':' :: p.2) ++ ['}'])

namespace Json

mutual

/-- `json.dumps`, given the texts of floats. -/
def dumps (floatText : Option ℚ → PyStr) : Json → PyStr
  | .null => "null".toList
  | .bool b => if b then "true".toList else "false".toList
  | .int n => (toString n).toList
  | .float x => floatText x
  | .str s => dumpsStr s
  | .arr l => dumpsList (dumpsItems floatText l)
  | .obj fields => dumpsDict (dumpsFields floatText fields)

/-- The texts of the items of a list. -/
def dumpsItems (floatText : Option ℚ → PyStr) : List Json → List PyStr
  | [] => []
  | x :: l => dumps floatText x :: dumpsItems floatText l

/-- The texts of the values of a dictionary, with their keys. -/
def dumpsFields (floatText : Option ℚ → PyStr) : List (PyStr × Json) → List (String × PyStr)
  | [] => []
  | (k, x) :: l => (String.ofList k, dumps floatText x) :: dumpsFields floatText l

end

end Json

end P2Pearl
