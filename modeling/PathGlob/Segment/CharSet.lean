import PathGlob.Segment.Bracket
import PathGlob.Text.CaseFold

/-! # Character sets
What a bracket expression means: single characters and ranges, the whole possibly negated. A set with a
doubtful `--` is read as it stands, and the warning about it is left out.

* **`CharSet.ofMembers`** — reads the members from left to right. An unescaped `^` at the front
  negates unless it is alone, and an unescaped `-` between two members makes a range of them.
* **`CharSet.wellFormed`** — no range runs backwards.
* **`CharSet.holds`** — membership, with or without regard to case. -/

namespace PathGlob

/-! ## Items -/

/-- A part of a character set. -/
inductive SetItem
  /-- One character. -/
  | single (c : Char)
  /-- The characters from `first` to `last`. -/
  | range (first last : Char)
  deriving DecidableEq, Repr

/-- The items of a list of members, read from left to right. -/
def SetItem.ofMembers : List Member → List SetItem
  | [] => []
  | [m] => [.single m.char]
  | [m, n] => [.single m.char, .single n.char]
  | m :: n :: k :: ms =>
    if n = Member.plain '-' then .range m.char k.char :: SetItem.ofMembers ms
    else .single m.char :: SetItem.ofMembers (n :: k :: ms)

/-- Whether a range runs forwards. -/
def SetItem.wellFormed : SetItem → Bool
  | .single _ => true
  | .range first last => first ≤ last

/-- Membership with regard to case. -/
def SetItem.holds : SetItem → Char → Bool
  | .single c, d => c == d
  | .range first last, d => first ≤ d && d ≤ last

/-! ## Membership without regard to case -/

/-- Whether a character lies beyond the first plane of the character set. -/
def isSupplementary (c : Char) : Bool := 0xffff < c.toNat

/-- The first character of the capital form of a small letter whose capital form has several
characters and begins with a character of a higher code point. -/
def longCapital? (n : Nat) : Option Nat := longCapitals.lookup n

/-- Whether a code point lies in a range. -/
def codeInRange (first last : Char) (n : Nat) : Bool := first.toNat ≤ n && n ≤ last.toNat

/-- Membership without regard to case. A single character accepts the same letter in either case;
but a supplementary character that is not `alone` in its set is compared with small letters only. A
range accepts a character if it has a case variant of it; a range that ends in a supplementary
character also looks at the beginning of a longer capital form. -/
def SetItem.holdsAnyCase (alone : Bool) : SetItem → Char → Bool
  | .single c, d =>
    if isSupplementary c && !alone then smallCode d.toNat == c.toNat else sameLetter c d
  | .range first last, d =>
    (caseVariants d).any (codeInRange first last) ||
      (isSupplementary last &&
        (longCapital? (smallCode d.toNat)).any (codeInRange first last))

/-- Membership without regard to case hangs on the small letter of a character alone. -/
theorem SetItem.holdsAnyCase_congr {a b : Char} (h : smallCode a.toNat = smallCode b.toNat)
    (alone : Bool) (i : SetItem) : i.holdsAnyCase alone a = i.holdsAnyCase alone b := by
  cases i with
  | single c => simp [SetItem.holdsAnyCase, h, sameLetter_congr h]
  | range first last => simp [SetItem.holdsAnyCase, h, caseVariants_congr h]

/-! ## Sets -/

/-- A set of characters. -/
structure CharSet where
  /-- Whether the set holds the characters that no item accepts. -/
  negated : Bool
  /-- The items. -/
  items : List SetItem
  deriving DecidableEq, Repr

/-- The set that the members of a bracket expression stand for. -/
def CharSet.ofMembers : List Member → CharSet
  | m :: n :: ms =>
    if m = Member.plain '^' then ⟨true, SetItem.ofMembers (n :: ms)⟩
    else ⟨false, SetItem.ofMembers (m :: n :: ms)⟩
  | ms => ⟨false, SetItem.ofMembers ms⟩

/-- Whether every range runs forwards. -/
def CharSet.wellFormed (s : CharSet) : Bool := s.items.all SetItem.wellFormed

/-- Whether all items are the same single character. -/
def CharSet.isAlone (s : CharSet) : Bool :=
  match s.items with
  | .single c :: is => is.all (· == .single c)
  | _ => false

/-- Whether a character is in the set. -/
def CharSet.holds (ignoreCase : Bool) (s : CharSet) (c : Char) : Bool :=
  (if ignoreCase then s.items.any (·.holdsAnyCase s.isAlone c) else s.items.any (·.holds c))
    != s.negated

/-- Without regard to case, membership in a set hangs on the small letter of a character alone. -/
theorem CharSet.holds_congr {a b : Char} (h : smallCode a.toNat = smallCode b.toNat) (s : CharSet) :
    s.holds true a = s.holds true b := by
  simp [CharSet.holds, SetItem.holdsAnyCase_congr h]

end PathGlob
