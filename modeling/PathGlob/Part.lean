import PathGlob.Text

/-! # Parts of a pattern
A pattern is consumed part by part. Segments without wildcards are taken together, since nothing has
to be listed for them; a segment with a wildcard is a part of its own.

* **`Mark`**, **`marks`** — which characters of a pattern are wildcards and separators; what is
  escaped is neither.
* **`leadEnd?`** — where the segments without wildcards at the front of a pattern end.
* **`partEnd`** — where the next part ends, and whether it has a wildcard.
* **`partStop`** — the same from any place of a pattern.
* **`Part.next`** — the next part with what remains behind it. -/

namespace PathGlob

/-! ## Marks -/

/-- What a character of a pattern is to the scanner. -/
inductive Mark
  /-- A character without a meaning, or an escaped one. -/
  | plain
  /-- The beginning of a wildcard. -/
  | wildcard
  /-- A separator of segments. -/
  | separator
  deriving DecidableEq, Repr

/-- Whether a character begins a wildcard. -/
def isWildcard (c : Char) : Bool := c == '*' || c == '?' || c == '['

/-- Whether a character separates segments. -/
def isSeparator (c : Char) : Bool := c == '/' || c == ':'

/-- The mark of an unescaped character. -/
def Mark.ofChar (c : Char) : Mark :=
  if isWildcard c then .wildcard else if isSeparator c then .separator else .plain

/-- The marks of the characters of a pattern. If `escapes` holds, a backslash and the character
behind it are plain. -/
def marks (escapes : Bool) : Text → List Mark
  | [] => []
  | [c] => [if escapes && c == '\\' then .plain else Mark.ofChar c]
  | c :: d :: r =>
    if escapes && c == '\\' then .plain :: .plain :: marks escapes r
    else Mark.ofChar c :: marks escapes (d :: r)

/-- Every character has a mark. -/
@[simp] theorem length_marks (escapes : Bool) (t : Text) :
    (marks escapes t).length = t.length := by
  fun_induction marks escapes t <;> simp_all

/-! ## Ends -/

/-- The marks in front of the first wildcard. -/
def beforeWildcard (ms : List Mark) : List Mark := ms.takeWhile (· != .wildcard)

/-- The place behind the last separator, none if there is no separator. -/
def behindLastSeparator? : List Mark → Option Nat
  | [] => none
  | m :: ms =>
    match behindLastSeparator? ms with
    | some n => some (n + 1)
    | none => if m = .separator then some 1 else none

/-- The place behind the last separator is neither the beginning nor beyond the end. -/
theorem behindLastSeparator?_bounds {ms : List Mark} {n : Nat}
    (h : behindLastSeparator? ms = some n) : 0 < n ∧ n ≤ ms.length := by
  induction ms generalizing n with
  | nil => simp [behindLastSeparator?] at h
  | cons m ms ih =>
    rw [behindLastSeparator?] at h
    cases hm : behindLastSeparator? ms with
    | some k =>
      have := ih hm
      simp only [hm, Option.some.injEq] at h
      simp only [List.length_cons]
      omega
    | none =>
      simp only [hm, Option.ite_none_right_eq_some, Option.some.injEq] at h
      simp only [List.length_cons]
      omega

/-- The end of the segments without wildcards at the front: all there is without a wildcard,
otherwise the place behind the last separator in front of the first wildcard, if there is one. -/
def leadEnd? (ms : List Mark) : Option Nat :=
  if Mark.wildcard ∈ ms then behindLastSeparator? (beforeWildcard ms) else some ms.length

/-- The end of the next part, and whether the part has a wildcard. Without a wildcard it is all
there is. If separators stand in front of the first wildcard, the part ends at the last of them;
otherwise it ends at the first separator behind the wildcard. -/
def partEnd (ms : List Mark) : Nat × Bool :=
  if Mark.wildcard ∈ ms then
    match behindLastSeparator? (beforeWildcard ms) with
    | some n => (n - 1, false)
    | none => ((ms.takeWhile (· != .separator)).length, true)
  else (ms.length, false)

/-- A part never reaches beyond the end. -/
theorem partEnd_le (ms : List Mark) : (partEnd ms).1 ≤ ms.length := by
  unfold partEnd
  split
  · cases h : behindLastSeparator? (beforeWildcard ms) with
    | some n =>
      have h₁ := (behindLastSeparator?_bounds h).2
      have h₂ : (beforeWildcard ms).length ≤ ms.length := (List.takeWhile_sublist _).length_le
      show n - 1 ≤ ms.length
      omega
    | none => exact (List.takeWhile_sublist _).length_le
  · exact Nat.le_refl _

/-- The end of the part of a pattern that begins at a place, and whether it has a wildcard. If no
wildcard may be in the part, it is made of leading segments; it ends at the beginning of the pattern
if there are none in front of a wildcard. -/
def partStop (escapes : Bool) (pattern : Text) (position : Nat) (allowWildcard : Bool) :
    Nat × Bool :=
  let start := min position pattern.length
  let ms := marks escapes (pattern.drop position)
  if allowWildcard then (start + (partEnd ms).1, (partEnd ms).2)
  else
    match leadEnd? ms with
    | some stop => (start + stop, false)
    | none => (0, false)

/-! ## Parts -/

/-- A part of a pattern with what remains behind it. -/
structure Part where
  /-- The part itself. -/
  text : Text
  /-- Whether it has a wildcard; then it is a single segment. -/
  wild : Bool
  /-- The pattern behind the separator that ends the part, none if the part is the last one. -/
  rest? : Option Text
  deriving DecidableEq, Repr

/-- The next part of a pattern. -/
def Part.next (escapes : Bool) (pattern : Text) : Part :=
  let (stop, wild) := partEnd (marks escapes pattern)
  ⟨pattern.take stop, wild,
    if stop = pattern.length then none else some (pattern.drop (stop + 1))⟩

/-- What remains behind a part is shorter than the pattern. -/
theorem Part.length_rest_lt {escapes : Bool} {pattern rest : Text}
    (h : (Part.next escapes pattern).rest? = some rest) : rest.length < pattern.length := by
  unfold Part.next at h
  have hle := partEnd_le (marks escapes pattern)
  rw [length_marks] at hle
  simp only at h
  split at h
  · simp at h
  · rename_i hne
    simp only [Option.some.injEq] at h
    rw [← h, List.length_drop]
    omega

end PathGlob
