import PathGlob.Text.Printable

/-! # Quoted texts
Messages show a text between quotation marks with everything that is not printable escaped, so that
the text can be told from what surrounds it.

* **`quoted`** — the quoted form. Apostrophes enclose it unless the text holds an apostrophe and no
  double quotation mark. Inside, the enclosing mark and the backslash stand behind a backslash, and
  a character that is not printable is written by an escape sequence. -/

namespace PathGlob

/-- The ordinary quotation mark. -/
def apostrophe : Char := '\x27'

/-- The quotation mark for texts that hold an apostrophe. -/
def doubleQuote : Char := '\x22'

/-- The mark that encloses a text. -/
def quoteMark (t : Text) : Char :=
  if apostrophe ∈ t ∧ doubleQuote ∉ t then doubleQuote else apostrophe

/-- The hexadecimal numeral of `n`, filled up with zeros to `width` digits. -/
def hexText (width n : Nat) : Text :=
  let digits := Nat.toDigits 16 n
  List.replicate (width - digits.length) '0' ++ digits

/-- The escape sequence of a code point: two, four or eight hexadecimal digits as needed. -/
def codeEscape (n : Nat) : Text :=
  if n < 0x100 then '\\' :: 'x' :: hexText 2 n
  else if n < 0x10000 then '\\' :: 'u' :: hexText 4 n
  else '\\' :: 'U' :: hexText 8 n

/-- How a character is written between the quotation marks `mark`. -/
def quotedChar (mark c : Char) : Text :=
  if c = mark ∨ c = '\\' then ['\\', c]
  else if c = '\n' then ['\\', 'n']
  else if c = '\r' then ['\\', 'r']
  else if c = '\t' then ['\\', 't']
  else if isPrintable c then [c]
  else codeEscape c.toNat

/-- The quoted form of a text. -/
def quoted (t : Text) : Text := quoteMark t :: t.flatMap (quotedChar (quoteMark t)) ++ [quoteMark t]

/-- The enclosing mark is always escaped inside. -/
theorem quotedChar_mark (mark : Char) : quotedChar mark mark = ['\\', mark] := by
  simp [quotedChar]

/-- The empty text is written as two apostrophes. -/
theorem quoted_nil : quoted [] = [apostrophe, apostrophe] := by
  simp [quoted, quoteMark]

end PathGlob
