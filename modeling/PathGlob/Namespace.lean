import PathGlob.Location
import PathGlob.Provider

/-! # Namespaces in memory
A namespace is a hierarchy of directories and files that is kept in memory. Paths are resolved by
their text alone, relative ones against the current directory, and a backslash separates like a
slash. Directories list their children in the order in which they were added, and how many of them lie
below each other is not limited.

* **`Namespace`** — the nodes in the order of their making, with the current directory.
* **`Namespace.locate`**, **`Namespace.normalize`** — the place that a path means, and its own path.
* **`Namespace.addDirectory`**, **`Namespace.addFile`** — add an entry with the directories above
  it.
* **`Namespace.provider`** — the namespace as a provider. -/

namespace PathGlob

/-! ## Nodes -/

/-- What can be at a location. -/
inductive Kind
  /-- Something that has children. -/
  | directory
  /-- Something that has none. -/
  | file
  deriving DecidableEq, Repr

/-- A directory or a file at its location. -/
structure Node where
  /-- Where the node is. -/
  location : Location
  /-- What it is. -/
  kind : Kind
  deriving DecidableEq, Repr

/-- An entry of a namespace: a directory or file with its path. -/
structure Entry where
  /-- The path of the entry. -/
  path : Text
  /-- Whether it is a directory. -/
  isDirectory : Bool
  deriving DecidableEq, Repr

/-- The entry of a node. -/
def Node.entry (n : Node) : Entry := ⟨n.location.text, n.kind == .directory⟩

/-- A hierarchy of directories and files. The root is a directory and has no node. -/
structure Namespace where
  /-- The nodes in the order of their making. -/
  nodes : List Node
  /-- The location against which relative paths are resolved. -/
  cwd : Location
  deriving DecidableEq, Repr

/-- Why an entry cannot be added. -/
inductive NamespaceError
  /-- There is a file where a directory is needed. -/
  | alreadyFile (l : Location)
  /-- There is a directory where a file is wanted. -/
  | alreadyDirectory (l : Location)
  deriving DecidableEq, Repr

/-! ## Paths -/

/-- A path with every backslash turned into a slash. -/
def withSlashes (path : Text) : Text := path.map fun c => if c = '\\' then '/' else c

/-- The location that a path means, if relative paths start at `start`. -/
def locateFrom (start : Location) (path : Text) : Location :=
  let p := withSlashes path
  follow (if beginsWith ['/'] p then rootLocation else start) (pieces '/' p)

/-- The location that a path means. -/
def Namespace.locate (s : Namespace) (path : Text) : Location := locateFrom s.cwd path

/-- The absolute path of what a path means. -/
def Namespace.normalize (s : Namespace) (path : Text) : Text := (s.locate path).text

/-! ## Looking up -/

/-- What is at a location, if anything is. -/
def Namespace.kind? (s : Namespace) (l : Location) : Option Kind :=
  if l = rootLocation then some .directory else (s.nodes.find? (·.location == l)).map Node.kind

/-- The root is a directory. -/
@[simp] theorem Namespace.kind?_root (s : Namespace) : s.kind? rootLocation = some .directory := by
  simp [Namespace.kind?]

/-- Whether a node is a child of the directory at a location. -/
def Node.isChildOf (l : Location) (n : Node) : Bool :=
  match n.location with
  | [] => false
  | _ :: parent => parent == l

/-- The children of the directory at a location, in the order in which they were added. -/
def Namespace.childrenAt (s : Namespace) (l : Location) : List Entry :=
  (s.nodes.filter (Node.isChildOf l)).map Node.entry

/-- The directory at a location. -/
def Namespace.directoryAt? (s : Namespace) (l : Location) : Option Entry :=
  if s.kind? l = some .directory then some (Node.entry ⟨l, .directory⟩) else none

/-- The file at a location. -/
def Namespace.fileAt? (s : Namespace) (l : Location) : Option Entry :=
  if s.kind? l = some .file then some (Node.entry ⟨l, .file⟩) else none

/-! ## Adding -/

/-- The wording of an error. -/
def NamespaceError.message : NamespaceError → Text
  | .alreadyFile l => quoted l.text ++ " is already a file.".toList
  | .alreadyDirectory l => quoted l.text ++ " is already a directory.".toList

/-- The namespace with one more node. -/
def Namespace.push (s : Namespace) (n : Node) : Namespace := { s with nodes := s.nodes ++ [n] }

/-- The file that keeps a location from being a directory: the location itself or the nearest one
above it at which there is anything, if that is a file. -/
def Namespace.obstacle? (s : Namespace) : Location → Option Location
  | [] => none
  | name :: parent =>
    match s.kind? (name :: parent) with
    | some .file => some (name :: parent)
    | some .directory => none
    | none => s.obstacle? parent

/-- The namespace in which the missing directories on the way to a location, and the directory
there, are made, the outermost first. -/
def Namespace.withDirectory (s : Namespace) : Location → Namespace
  | [] => s
  | name :: parent =>
    if (s.kind? (name :: parent)).isSome then s
    else (s.withDirectory parent).push ⟨name :: parent, .directory⟩

/-- The namespace with a directory at a location; one that is there stays as it is. -/
def Namespace.addDirectoryAt (s : Namespace) (l : Location) : Except NamespaceError Namespace :=
  match s.obstacle? l with
  | some f => .error (.alreadyFile f)
  | none => .ok (s.withDirectory l)

/-- The namespace with a file at a location; one that is there stays as it is. -/
def Namespace.addFileAt (s : Namespace) (l : Location) : Except NamespaceError Namespace :=
  match s.kind? l with
  | some .directory => .error (.alreadyDirectory l)
  | some .file => .ok s
  | none => (s.addDirectoryAt l.tail).map (·.push ⟨l, .file⟩)

/-- Adds a directory at a path. -/
def Namespace.addDirectory (s : Namespace) (path : Text) : Except NamespaceError Namespace :=
  s.addDirectoryAt (s.locate path)

/-- Adds a file at a path. -/
def Namespace.addFile (s : Namespace) (path : Text) : Except NamespaceError Namespace :=
  s.addFileAt (s.locate path)

/-- Adds an entry at a path, a directory if the path ends with a slash. -/
def Namespace.addPath (s : Namespace) (path : Text) : Except NamespaceError Namespace :=
  if endsIn '/' path then s.addDirectory path else s.addFile path

/-- The namespace that has nothing but the current directory and the directories above it. -/
def Namespace.create (cwd : Text) : Namespace :=
  let l := locateFrom rootLocation cwd
  Namespace.withDirectory ⟨[], l⟩ l

/-- The namespace of a list of paths, added in order. -/
def Namespace.ofPaths (cwd : Text) (paths : List Text) : Except NamespaceError Namespace :=
  paths.foldlM Namespace.addPath (Namespace.create cwd)

/-! ## As a provider -/

/-- A namespace as a provider; its entries have absolute paths. -/
def Namespace.provider (s : Namespace) : Provider Entry where
  pathOf := Entry.path
  findDirectory path := s.directoryAt? (s.locate path)
  findFile path := s.fileAt? (s.locate path)
  children path := s.childrenAt (s.locate path)

end PathGlob
