import PathGlob.Text.Quoted

/-! # Bracket expressions
A bracket expression lists the members of a character class between square brackets. A member counts
as escaped if it came from an escape sequence; such a member is always a plain character, while an
unescaped `^` or `-` may have a meaning.

* **`Bracket`** — the members in order, built by **`Bracket.add`**.
* **`Bracket.expression?`** — the class as a set of a regular expression, none without members.
* **`Bracket.describe`** — the members as they stand in that set, for messages. -/

namespace PathGlob

/-- A member of a bracket expression. -/
structure Member where
  /-- The character. -/
  char : Char
  /-- Whether it came from an escape sequence. -/
  escaped : Bool
  deriving DecidableEq, Repr

/-- A bracket expression under construction. -/
structure Bracket where
  /-- The members in order. -/
  members : List Member
  deriving DecidableEq, Repr

/-- The bracket expression without members. -/
def Bracket.empty : Bracket := ⟨[]⟩

/-- A further member at the end. -/
def Bracket.add (b : Bracket) (m : Member) : Bracket := ⟨b.members ++ [m]⟩

@[simp] theorem Bracket.members_add (b : Bracket) (m : Member) :
    (b.add m).members = b.members ++ [m] := rfl

/-- Whether the first member is the character `c`, escaped or not. -/
def Bracket.beginsWith (b : Bracket) (c : Char) : Bool := b.members.head?.map Member.char == some c

/-- An unescaped member. -/
def Member.plain (c : Char) : Member := ⟨c, false⟩

/-! ## As a set of a regular expression -/

/-- The characters that have a meaning everywhere in a set of a regular expression. -/
def setSpecials : List Char := [']', '\\', '[', '&', '~', '|']

/-- How a member is written in a set: behind a backslash if it could be misread. -/
def Member.expression (m : Member) : Text :=
  if m.char ∈ setSpecials ∨ (m.escaped ∧ (m.char = '-' ∨ m.char = '^')) then ['\\', m.char]
  else [m.char]

/-- The members as they are written in a set. -/
def Bracket.body (b : Bracket) : Text := b.members.flatMap Member.expression

/-- The set of a regular expression with the meaning of the bracket expression. A single `^` would
negate the empty set and is escaped. -/
def Bracket.expression? (b : Bracket) : Option Text :=
  if b.members.isEmpty then none
  else if b.members = [Member.plain '^'] then some ['[', '\\', '^', ']']
  else some ('[' :: b.body ++ [']'])

/-- The form of a bracket expression in messages. -/
def Bracket.describe (b : Bracket) : Text := "CharClass(".toList ++ quoted b.body ++ [')']

@[simp] theorem Bracket.expression?_empty : Bracket.empty.expression? = none := rfl

/-- Only the bracket expression without members has no set. -/
theorem Bracket.expression?_eq_none_iff (b : Bracket) : b.expression? = none ↔ b.members = [] := by
  unfold Bracket.expression?
  split
  · simpa using ‹b.members.isEmpty = true›
  · split <;> simp_all

end PathGlob
