import PathGlob.Text.Printable

/-! # Blanks
The characters that separate words: the ASCII blanks and control separators and the spaces and
separators of the whole character set, twenty-nine in all.

* **`isBlank`** — the test; **`strip`** — a text without blanks at its ends. -/

namespace PathGlob

/-- The ranges of blank characters. -/
def blankRanges : List (Nat × Nat) :=
  [(0x9, 0xd), (0x1c, 0x20), (0x85, 0x85), (0xa0, 0xa0), (0x1680, 0x1680), (0x2000, 0x200a),
    (0x2028, 0x2029), (0x202f, 0x202f), (0x205f, 0x205f), (0x3000, 0x3000)]

/-- Whether a character is blank. -/
def isBlank (c : Char) : Bool := inRanges c.toNat blankRanges

/-- A text without the blanks at its beginning and at its end. -/
def strip (t : Text) : Text := ((t.dropWhile isBlank).reverse.dropWhile isBlank).reverse

@[simp] theorem strip_nil : strip [] = [] := rfl

end PathGlob
