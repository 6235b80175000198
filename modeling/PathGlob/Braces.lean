import PathGlob.Braces.Tree

/-! # Brace expansion
A group of alternatives in braces, separated by commas, stands for each of them in turn. Groups may
be nested and may have empty alternatives. There is no limit to how deeply they are nested: an error that
comes of a call stack that is full is left out.

* **`braceExpansion`** — builds the tree of a pattern from left to right and flattens it.
* **`expandBraces`** — the texts that a pattern stands for, in order, earlier groups varying
  slowest; none if a brace has no partner. -/

namespace PathGlob

/-- What stands for a character that came from an escape sequence: a comma or a brace loses its
backslash, and all else keeps it for later. -/
def unescapeStructural (c : Char) : Text :=
  if c = ',' ∨ c = '\x7b' ∨ c = '\x7d' then [c] else ['\\', c]

/-- The tree of a pattern whose beginning is in `t` already; none if a group is closed that is not
open. An error is that of a step which is refused. -/
def braceTree? (escapes : Bool) : Text → BraceTree → Except BraceError (Option BraceTree)
  | [], t => .ok (some t)
  | c :: r, t =>
    if escapes && c == '\\' then
      match r with
      -- a backslash at the very end escapes nothing
      | [] => .ok (some (t.addChar '\\'))
      | d :: r => braceTree? escapes r (t.addText (unescapeStructural d))
    else if c = '\x7b' then braceTree? escapes r t.openGroup
    else if c = '\x7d' then
      if t.depth = 0 then .ok none else t.closeGroup.bind fun u => braceTree? escapes r u
    else if c = ',' ∧ t.depth ≠ 0 then t.nextBranch.bind fun u => braceTree? escapes r u
    else braceTree? escapes r (t.addChar c)

/-- The expansion of a pattern: the texts that it stands for, none if a brace has no partner, or the
error of a step of building that is refused. -/
def braceExpansion (escapes : Bool) (pattern : Text) : Except BraceError (List Text) :=
  (braceTree? escapes pattern BraceTree.empty).map fun t? =>
    match t? with
    | some t => t.alternatives
    | none => []

/-- The texts that a pattern stands for. If `escapes` holds, a backslash keeps the character behind
it from being a brace or a comma. -/
def expandBraces (escapes : Bool) (pattern : Text) : List Text :=
  (braceExpansion escapes pattern).toOption.getD []

@[simp] theorem expandBraces_nil (escapes : Bool) : expandBraces escapes [] = [[]] := by
  simp [expandBraces, braceExpansion, braceTree?, Except.map, Except.toOption]

end PathGlob
