import PathGlob.Value

/-! # Values in brief
A call that is logged shows its arguments, and an argument may be of any size. The brief form cuts
what is too long: numbers and texts lose their middle, lists and dictionaries their later members
and what is nested too deeply. Dots stand for what was left out.

* **`Value.brief`** — the brief form under the limits of **`briefLimits`**. -/

namespace PathGlob

/-- How much of a value is shown. -/
structure BriefLimits where
  /-- How many levels of lists and dictionaries are opened. -/
  depth : Nat
  /-- How many members of a list are shown. -/
  items : Nat
  /-- How many entries of a dictionary are shown. -/
  entries : Nat
  /-- The length of the longest integer that is not cut. -/
  digits : Nat
  /-- The length of the longest quoted text, or other written value, that is not cut. -/
  chars : Nat

/-- Six levels, six members of a list, four entries of a dictionary, forty characters of an integer
and a hundred of anything else. -/
def briefLimits : BriefLimits := ⟨6, 6, 4, 40, 100⟩

/-- The dots that stand for what was left out. -/
def dots : Text := ['.', '.', '.']

/-- How many characters a cut text keeps at its beginning, if `limit` characters are shown. -/
def keptFront (limit : Nat) : Nat := (limit - dots.length) / 2

/-- How many characters a cut text keeps at its end, if `limit` characters are shown. -/
def keptBack (limit : Nat) : Nat := limit - dots.length - keptFront limit

/-- A text with dots in place of its middle. -/
def withoutMiddle (limit : Nat) (t : Text) : Text :=
  t.take (keptFront limit) ++ dots ++ t.drop (t.length - keptBack limit)

/-- A text that loses its middle if it is longer than `limit`. -/
def shortened (limit : Nat) (t : Text) : Text :=
  if limit < t.length then withoutMiddle limit t else t

/-- The quoted form of a text, cut to `limit` characters. Of a text whose quoted form is too long
only the two ends are quoted; a text shorter than the end that is kept is counted from the end
twice. -/
def shortenedQuoted (limit : Nat) (t : Text) : Text :=
  if limit < (quoted (t.take limit)).length then
    -- where the end that is kept begins
    let start :=
      if t.length < keptBack limit then 2 * t.length - keptBack limit
      else t.length - keptBack limit
    withoutMiddle limit (quoted (t.take (keptFront limit) ++ t.drop start))
  else quoted (t.take limit)

/-- Members of a list or dictionary, with dots behind the last one that is shown. -/
def firstMembers (limit : Nat) (members : List Text) : List Text :=
  if limit < members.length then members.take limit ++ [dots] else members

/-- The entries of a dictionary in the order of their keys. -/
def sortedEntries (entries : List (Text × Value)) : List (Text × Value) :=
  entries.mergeSort fun a b => textLe a.1 b.1

/-- The brief form of a value of which `depth` levels are opened. -/
def Value.briefAt (limits : BriefLimits) : Nat → Value → Text
  | _, .null => shortened limits.chars nullText
  | _, .bool b => shortened limits.chars (boolText b)
  | _, .int n => shortened limits.digits (intText n)
  | _, .fraction m p => shortened limits.chars (fractionText m p)
  | _, .text t => shortenedQuoted limits.chars t
  | 0, .list items => bracketed (if items.isEmpty then [] else [dots])
  | 0, .dict entries => braced (if entries.isEmpty then [] else [dots])
  | depth + 1, .list items =>
    bracketed (firstMembers limits.items (items.map (Value.briefAt limits depth)))
  | depth + 1, .dict entries =>
    braced (firstMembers limits.entries ((sortedEntries entries).map fun e =>
      keyed (shortenedQuoted limits.chars e.1) (Value.briefAt limits depth e.2)))

/-- The brief form of a value. -/
def Value.brief (v : Value) : Text := v.briefAt briefLimits briefLimits.depth

/-- A text within the limit is not cut. -/
theorem shortened_of_length_le {limit : Nat} {t : Text} (h : t.length ≤ limit) :
    shortened limit t = t := by
  simp [shortened, Nat.not_lt.2 h]

end PathGlob
