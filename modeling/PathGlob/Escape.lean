import PathGlob.Text

/-! # Escapes
A backslash in a pattern takes the meaning from the character behind it.

* **`unescape`** — a text with its escapes removed.
* **`escapeName`** — a name written so that it means itself in a pattern. -/

namespace PathGlob

/-- A text without the backslashes that escape something. A backslash at the very end escapes
nothing and stays. -/
def unescape : Text → Text
  | [] => []
  | [c] => [c]
  | c :: d :: r => if c = '\\' then d :: unescape r else c :: unescape (d :: r)

@[simp] theorem unescape_nil : unescape [] = [] := rfl

@[simp] theorem unescape_singleton (c : Char) : unescape [c] = [c] := rfl

/-- An escaped character stands for itself. -/
theorem unescape_escaped (c : Char) (r : Text) : unescape ('\\' :: c :: r) = c :: unescape r := by
  simp [unescape]

/-- A character that is no backslash stands for itself. -/
theorem unescape_cons {c : Char} (h : c ≠ '\\') (r : Text) :
    unescape (c :: r) = c :: unescape r := by
  cases r <;> simp [unescape, h]

/-- Whether a character has to be escaped in a name: the backslash and what begins a wildcard. -/
def needsEscape (c : Char) : Bool := c == '\\' || c == '*' || c == '?' || c == '['

/-- A character as it is written in an escaped name. -/
def escapeChar (c : Char) : Text := if needsEscape c then ['\\', c] else [c]

/-- A name in which every character with a meaning is escaped. -/
def escapeName (name : Text) : Text := name.flatMap escapeChar

@[simp] theorem escapeName_nil : escapeName [] = [] := rfl

@[simp] theorem escapeName_cons (c : Char) (r : Text) :
    escapeName (c :: r) = escapeChar c ++ escapeName r := rfl

/-- An escaped name is read back. -/
theorem unescape_escapeName (name : Text) : unescape (escapeName name) = name := by
  induction name with
  | nil => rfl
  | cons c r ih =>
    rw [escapeName_cons, escapeChar]
    split
    · rw [List.cons_append, List.cons_append, List.nil_append, unescape_escaped, ih]
    · rename_i h
      rw [List.cons_append, List.nil_append, unescape_cons, ih]
      rintro rfl
      simp [needsEscape] at h

end PathGlob
