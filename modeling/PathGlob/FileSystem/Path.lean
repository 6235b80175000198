import PathGlob.Text

/-! # Plain paths
The plain form of a path has no needless pieces: no dots, no empty pieces, no separator at the end.
Two dots stay, since with links they cannot be told from the text. Exactly two separators at the
front are kept, as they may have a meaning of their own.

* **`plainPath`** — the plain form; **`plainName`** — its last name. -/

namespace PathGlob

/-- The separators at the front of a plain path. -/
def pathAnchor : Text → Text
  | '/' :: '/' :: '/' :: _ => ['/']
  | '/' :: '/' :: _ => ['/', '/']
  | '/' :: _ => ['/']
  | _ => []

/-- The names of a plain path. -/
def plainNames (path : Text) : List Text :=
  (pieces '/' path).filter fun name => name ≠ [] && name ≠ ['.']

/-- The plain form of a path; a path without any name and separator is the current directory. -/
def plainPath (path : Text) : Text :=
  match pathAnchor path ++ joinWith ['/'] (plainNames path) with
  | [] => ['.']
  | p => p

/-- The last name of a path, empty if there is none. -/
def plainName (path : Text) : Text := (plainNames path).getLast?.getD []

@[simp] theorem plainPath_nil : plainPath [] = ['.'] := rfl

/-- A plain path is never empty. -/
theorem plainPath_ne_nil (path : Text) : plainPath path ≠ [] := by
  unfold plainPath
  split <;> simp_all

end PathGlob
