import PathGlob.Text.Quoted

/-! # Providers
A hierarchy of directories and files is known only through its provider, which finds entries by
their path and lists the children of a directory. Names are separated by slashes; hierarchies in which
a backslash separates them are left out.

A look-up and a listing are questions, and a run is known by its questions and their answers.
`Provider.pathOf` and `Provider.entryName` read an entry that was handed out before. They are functions
of the entry, so calling them is neither a question nor an event of a run.

* **`Provider`** — the operations on a hierarchy with entries of a type `ε`.
* **`Query`**, **`Provider.answer`** — the questions that a walk asks, and a provider's answers.
* **`joinPath`**, **`lastName`** — the path of a name in a directory, the last name of a path. -/

namespace PathGlob

/-! ## Names and paths -/

/-- The path of a name in a directory. -/
def joinPath (base name : Text) : Text :=
  if endsIn '/' base then base ++ name else base ++ '/' :: name

/-- The path of a name is never empty. -/
theorem joinPath_ne_nil (base name : Text) : joinPath base name ≠ [] := by
  intro h
  unfold joinPath at h
  split at h
  · rename_i hend
    obtain ⟨rfl, -⟩ := List.append_eq_nil_iff.1 h
    cases hend
  · simp at h

/-- A text without the separators at its end. -/
def dropTrailingSlashes (path : Text) : Text := (path.reverse.dropWhile (· == '/')).reverse

/-- The last name of a path: what follows the last separator that is not at the end. -/
def lastName (path : Text) : Text :=
  ((dropTrailingSlashes path).reverse.takeWhile (· != '/')).reverse

/-- A last name has no separator. -/
theorem slash_not_mem_lastName (path : Text) : '/' ∉ lastName path := by
  intro h
  have := List.all_eq_true.1 List.all_takeWhile _ (List.mem_reverse.1 h)
  simp at this

/-! ## Searching a directory -/

/-- The search pattern that every name matches. -/
def everything : Text := ['*']

/-- A listing was asked for with a search pattern other than `everything`. -/
structure SearchPatternError where
  /-- The search pattern. -/
  search : Text
  deriving DecidableEq, Repr

/-- The wording of the error. -/
def SearchPatternError.message (e : SearchPatternError) : Text :=
  "Unsupported search pattern ".toList ++ quoted e.search ++ ", only ".toList
    ++ quoted everything ++ " is supported.".toList

/-- Accepts the only search pattern that is supported. -/
def checkSearch (search : Text) : Except SearchPatternError Unit :=
  if search = everything then .ok () else .error ⟨search⟩

/-! ## Providers -/

/-- The operations on a hierarchy with entries of type `ε`. -/
structure Provider (ε : Type) where
  /-- The path of an entry. -/
  pathOf : ε → Text
  /-- The directory at a path. -/
  findDirectory : Text → Option ε
  /-- The file at a path. -/
  findFile : Text → Option ε
  /-- The children of the directory at a path, nothing if there is none. -/
  children : Text → List ε
  /-- The name of an entry in its directory. -/
  entryName : ε → Text := fun e => lastName (pathOf e)

/-- The children of a directory whose names match a search pattern. -/
def Provider.list {ε : Type} (p : Provider ε) (path search : Text) :
    Except SearchPatternError (List ε) :=
  (checkSearch search).map fun _ => p.children path

@[simp] theorem Provider.list_everything {ε : Type} (p : Provider ε) (path : Text) :
    p.list path everything = .ok (p.children path) := rfl

/-! ## Questions -/

/-- A question about a hierarchy. -/
inductive Query
  /-- Is there a directory at this path? -/
  | findDirectory (path : Text)
  /-- Is there a file at this path? -/
  | findFile (path : Text)
  /-- Which children of this directory match the search pattern? -/
  | list (path search : Text)
  deriving DecidableEq, Repr

/-- What answers a question. -/
abbrev Query.Answer (ε : Type) : Query → Type
  | .findDirectory _ => Option ε
  | .findFile _ => Option ε
  | .list _ _ => List ε

/-- The answer of a provider. -/
def Provider.answer {ε : Type} (p : Provider ε) : (q : Query) → q.Answer ε
  | .findDirectory path => p.findDirectory path
  | .findFile path => p.findFile path
  | .list path search => ((p.list path search).toOption).getD []

end PathGlob
