/-! # Texts
A text is the list of its characters, so that every scanner of the library is a recursion on a list.
Characters are Unicode scalar values, and texts with lone surrogates, such as names that could not be
decoded, are left out. This module holds the few operations on texts that are not particular to paths or
patterns.

* **`piecesBy`** — a text cut at every separator, empty pieces kept; **`pieces`** for one separator.
* **`joinWith`** — texts put together with a separator between neighbours.
* **`textLe`** — the order by code points.
* **`natText`**, **`intText`** — decimal numerals. -/

namespace PathGlob

/-- A text is the list of its characters. -/
abbrev Text := List Char

/-! ## Cutting and joining -/

/-- The pieces of a text between the characters that `sep` accepts. There is always one piece more
than there are separators, so two neighbouring separators have an empty piece between them. -/
def piecesBy (sep : Char → Bool) : Text → List Text
  | [] => [[]]
  | c :: r =>
    if sep c then [] :: piecesBy sep r
    else
      match piecesBy sep r with
      | [] => [[c]]
      | p :: ps => (c :: p) :: ps

@[simp] theorem piecesBy_nil (sep : Char → Bool) : piecesBy sep [] = [[]] := rfl

/-- A text always has a piece. -/
theorem piecesBy_ne_nil (sep : Char → Bool) (t : Text) : piecesBy sep t ≠ [] := by
  cases t with
  | nil => simp
  | cons c r =>
    rw [piecesBy]
    split
    · simp
    · split <;> simp

/-- A separator ends the first piece. -/
theorem piecesBy_cons_of_sep {sep : Char → Bool} {c : Char} (h : sep c) (r : Text) :
    piecesBy sep (c :: r) = [] :: piecesBy sep r := by
  simp [piecesBy, h]

/-- The pieces between the occurrences of one character. -/
def pieces (sep : Char) (t : Text) : List Text := piecesBy (· == sep) t

/-- Texts in order with `sep` between neighbours. -/
def joinWith (sep : Text) : List Text → Text
  | [] => []
  | [t] => t
  | t :: u :: ts => t ++ sep ++ joinWith sep (u :: ts)

@[simp] theorem joinWith_nil (sep : Text) : joinWith sep [] = [] := rfl

@[simp] theorem joinWith_singleton (sep t : Text) : joinWith sep [t] = t := rfl

/-- Each further text stands behind a separator. -/
@[simp] theorem joinWith_cons_cons (sep t u : Text) (ts : List Text) :
    joinWith sep (t :: u :: ts) = t ++ sep ++ joinWith sep (u :: ts) := rfl

/-- Whether a text begins with another one. -/
def beginsWith (start t : Text) : Bool := start.isPrefixOf t

/-- Whether a text ends with the character `c`. -/
def endsIn (c : Char) (t : Text) : Bool := t.getLast? == some c

@[simp] theorem endsIn_nil (c : Char) : endsIn c [] = false := rfl

/-- The order of texts by code points, a text standing behind its own beginnings. -/
def textLe : Text → Text → Bool
  | [], _ => true
  | _ :: _, [] => false
  | a :: s, b :: t => a < b || (a == b && textLe s t)

@[simp] theorem textLe_nil (t : Text) : textLe [] t = true := rfl

/-! ## Numerals -/

/-- The decimal numeral of a natural number. -/
def natText (n : Nat) : Text := Nat.toDigits 10 n

/-- The decimal numeral of an integer, with a minus sign if it is negative. -/
def intText : Int → Text
  | .ofNat n => natText n
  | .negSucc n => '-' :: natText (n + 1)

end PathGlob
