import PathGlob.Text.Quoted

/-! # Values of unknown kind
Arguments that reach the library from outside may be of any kind. A value is what can be passed in:
nothing, a truth value, a number, a text, a list or a dictionary with texts as keys.

* **`Value.kind`** — the name of the kind, for messages that refuse a value.
* **`Value.written`** — the written form, texts quoted; **`Value.plain`** — the same with a text
  left as it is, for inserting a value into a message. -/

namespace PathGlob

/-- A value of any kind. -/
inductive Value
  /-- No value at all. -/
  | null
  /-- A truth value. -/
  | bool (b : Bool)
  /-- An integer of any size. -/
  | int (n : Int)
  /-- A decimal fraction: `mantissa` divided by ten to the power `places`. -/
  | fraction (mantissa : Int) (places : Nat)
  /-- A text. -/
  | text (t : Text)
  /-- Values in order. -/
  | list (items : List Value)
  /-- Values under text keys, in the order in which the keys came. -/
  | dict (entries : List (Text × Value))

instance : Inhabited Value := ⟨.null⟩

/-- The name of a value's kind. -/
def Value.kind : Value → Text
  | .null => "NoneType".toList
  | .bool _ => "bool".toList
  | .int _ => "int".toList
  | .fraction _ _ => "float".toList
  | .text _ => "str".toList
  | .list _ => "list".toList
  | .dict _ => "dict".toList

/-! ## Written forms -/

/-- How the truth values are written. -/
def boolText (b : Bool) : Text := if b then "True".toList else "False".toList

/-- How the absence of a value is written. -/
def nullText : Text := "None".toList

/-- A decimal fraction in positional notation, without needless zeros at its end but with at least
one digit behind the point. -/
def fractionText (mantissa : Int) (places : Nat) : Text :=
  let digits := natText mantissa.natAbs
  let filled := List.replicate (places + 1 - digits.length) '0' ++ digits
  let whole := filled.take (filled.length - places)
  let rest := ((filled.drop (filled.length - places)).reverse.dropWhile (· == '0')).reverse
  (if mantissa < 0 then ['-'] else []) ++ whole ++ '.' :: (if rest.isEmpty then ['0'] else rest)

/-- The opening brace of a written dictionary. -/
def openBrace : Char := '\x7b'

/-- The closing brace of a written dictionary. -/
def closeBrace : Char := '\x7d'

/-- The separator of the members of a list, a dictionary or an argument list. -/
def commaBlank : Text := [',', ' ']

/-- Members between square brackets. -/
def bracketed (members : List Text) : Text := '[' :: joinWith commaBlank members ++ [']']

/-- Members between braces. -/
def braced (members : List Text) : Text := openBrace :: joinWith commaBlank members ++ [closeBrace]

/-- A key with its value. -/
def keyed (key value : Text) : Text := key ++ ':' :: ' ' :: value

mutual

/-- The written form of a value, in which texts are quoted. -/
def Value.written : Value → Text
  | .null => nullText
  | .bool b => boolText b
  | .int n => intText n
  | .fraction m p => fractionText m p
  | .text t => quoted t
  | .list items => bracketed (Value.writtenItems items)
  | .dict entries => braced (Value.writtenEntries entries)

/-- The written forms of the members of a list. -/
def Value.writtenItems : List Value → List Text
  | [] => []
  | v :: vs => v.written :: Value.writtenItems vs

/-- The written forms of the entries of a dictionary. -/
def Value.writtenEntries : List (Text × Value) → List Text
  | [] => []
  | (k, v) :: es => keyed (quoted k) v.written :: Value.writtenEntries es

end

/-- How a value is inserted into a message: a text stands for itself. -/
def Value.plain : Value → Text
  | .text t => t
  | v => v.written

end PathGlob
