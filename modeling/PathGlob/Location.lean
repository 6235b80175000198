import PathGlob.Text

/-! # Locations
A location is a place in a hierarchy: the names that lead to it from the root. The innermost name
comes first, so that the parent of a location is its tail.

* **`Location`**, **`Location.text`** — locations and their paths.
* **`stepInto`**, **`follow`** — the effect of the pieces of a path. -/

namespace PathGlob

/-- The names that lead to a place from the root, the innermost first. -/
abbrev Location := List Text

/-- The place at which everything begins. -/
def rootLocation : Location := []

/-- The absolute path of a location. -/
def Location.text (l : Location) : Text := '/' :: joinWith ['/'] l.reverse

@[simp] theorem Location.text_nil : Location.text [] = ['/'] := rfl

/-- The place that a piece of a path leads to. An empty piece and a dot lead nowhere else, and two
dots lead to the parent; the root is its own parent. -/
def stepInto (l : Location) (name : Text) : Location :=
  if name = [] ∨ name = ['.'] then l else if name = ['.', '.'] then l.tail else name :: l

/-- The place that the pieces of a path lead to, one after the other. -/
def follow (l : Location) (names : List Text) : Location := names.foldl stepInto l

@[simp] theorem follow_nil (l : Location) : follow l [] = l := rfl

@[simp] theorem follow_cons (l : Location) (name : Text) (names : List Text) :
    follow l (name :: names) = follow (stepInto l name) names := rfl

/-- Pieces are followed one after the other. -/
theorem follow_append (l : Location) (xs ys : List Text) :
    follow l (xs ++ ys) = follow (follow l xs) ys := List.foldl_append

/-- Whether a text can be the name of an entry in its directory. -/
def isEntryName (name : Text) : Bool :=
  name ≠ [] && name ≠ ['.'] && name ≠ ['.', '.'] && !name.contains '/'

end PathGlob
