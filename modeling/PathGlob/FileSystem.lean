import PathGlob.FileSystem.Path
import PathGlob.Location
import PathGlob.Log
import PathGlob.Provider

/-! # File systems
A file system holds directories, regular files and symbolic links. A path is resolved name by name;
a link is replaced by its target, and no more than forty links are followed.

* **`FileSystem`** — the nodes with the current directory.
* **`FileSystem.resolve`** — the place that a path leads to, or the **`Trouble`** on the way.
* **`FileSystem.findDirectory`**, **`findFile`**, **`list`** — the operations of a provider, with
  the complaint about a trouble that is not just a missing entry.
* **`FileSystem.provider`** — a file system as a provider, whose entries are plain paths. -/

namespace PathGlob

/-! ## Nodes -/

/-- What can be at a location of a file system. -/
inductive FileKind
  /-- A directory. -/
  | directory
  /-- A regular file. -/
  | file
  /-- A symbolic link with the path that it stands for. -/
  | link (target : Text)
  deriving DecidableEq, Repr

/-- A directory, file or link at its location. -/
structure FileNode where
  /-- Where the node is. -/
  location : Location
  /-- What it is. -/
  kind : FileKind
  deriving DecidableEq, Repr

/-- A file system. The root is a directory and has no node. -/
structure FileSystem where
  /-- The nodes in the order of their making. -/
  nodes : List FileNode
  /-- The directory at which relative paths start. -/
  cwd : Location
  deriving DecidableEq, Repr

/-- What is at a location, if anything is. -/
def FileSystem.kind? (s : FileSystem) (l : Location) : Option FileKind :=
  if l = rootLocation then some .directory else (s.nodes.find? (·.location == l)).map FileNode.kind

/-- The names of the children of the directory at a location. -/
def FileSystem.namesAt (s : FileSystem) (l : Location) : List Text :=
  s.nodes.filterMap fun n =>
    match n.location with
    | [] => none
    | name :: parent => if parent = l then some name else none

/-! ## Troubles -/

/-- Why a path leads nowhere. -/
inductive Trouble
  /-- There is nothing at the path. -/
  | notFound
  /-- A name is looked for in something that is no directory. -/
  | notDirectory
  /-- A name, or the whole path, is too long. -/
  | nameTooLong
  /-- Too many links have to be followed. -/
  | linkLoop
  deriving DecidableEq, Repr

/-- The number of a trouble. -/
def Trouble.number : Trouble → Nat
  | .notFound => 2
  | .notDirectory => 20
  | .nameTooLong => 36
  | .linkLoop => 40

/-- The wording of a trouble. -/
def Trouble.wording : Trouble → Text
  | .notFound => "No such file or directory".toList
  | .notDirectory => "Not a directory".toList
  | .nameTooLong => "File name too long".toList
  | .linkLoop => "Too many levels of symbolic links".toList

/-- The message on a trouble with a path. -/
def Trouble.message (t : Trouble) (path : Text) : Text :=
  "[Errno ".toList ++ natText t.number ++ "] ".toList ++ t.wording ++ ": ".toList ++ quoted path

/-- Whether a trouble only means that there is no such entry. -/
def Trouble.isAbsence : Trouble → Bool
  | .nameTooLong => false
  | _ => true

/-! ## Resolving paths -/

/-- The length of a text in bytes. -/
def byteLength : Text → Nat
  | [] => 0
  | c :: t => c.utf8Size + byteLength t

/-- The most bytes of a name. -/
def nameLimit : Nat := 255

/-- The most bytes of a path. -/
def pathLimit : Nat := 4095

/-- The most links that are followed on the way to one place. -/
def linkLimit : Nat := 40

/-- The directory at which a path starts. -/
def startOf (path : Text) (cwd : Location) : Location :=
  if beginsWith ['/'] path then rootLocation else cwd

/-- The place that names lead to from the directory at `l`, and whether it is a directory; `links`
is the number of links that may still be followed. Behind a file there may be no further name, not
even an empty one. -/
def FileSystem.resolve (s : FileSystem) (links : Nat) (l : Location) :
    List Text → Except Trouble (Location × Bool)
  | [] => .ok (l, true)
  | name :: rest =>
    if name = [] ∨ name = ['.'] then s.resolve links l rest
    else if name = ['.', '.'] then s.resolve links l.tail rest
    else if nameLimit < byteLength name then .error .nameTooLong
    else
      match s.kind? (name :: l) with
      | none => .error .notFound
      | some .directory => s.resolve links (name :: l) rest
      | some .file => if rest.isEmpty then .ok (name :: l, false) else .error .notDirectory
      | some (.link target) =>
        match links with
        | 0 => .error .linkLoop
        -- the target takes the place of the name, in the directory of the link
        | links + 1 => s.resolve links (startOf target l) (pieces '/' target ++ rest)
termination_by names => (links, names.length)

/-- The place that a path leads to, and whether it is a directory. -/
def FileSystem.stat (s : FileSystem) (path : Text) : Except Trouble (Location × Bool) :=
  if pathLimit < byteLength path then .error .nameTooLong
  else if path.isEmpty then .error .notFound
  else s.resolve linkLimit (startOf path s.cwd) (pieces '/' path)

/-! ## The operations of a provider -/

/-- The character that no path has. -/
def nul : Char := '\x00'

/-- A complaint about a trouble. -/
inductive Complaint
  /-- A directory cannot be listed. -/
  | list (path : Text) (trouble : Trouble)
  /-- A path cannot be looked up. -/
  | stat (path : Text) (trouble : Trouble)
  deriving DecidableEq, Repr

/-- The wording of a complaint. A path is listed as it is given but looked up in its plain form. -/
def Complaint.message : Complaint → Text
  | .list path t => "can't list ".toList ++ quoted path ++ ": ".toList ++ t.message path
  | .stat path t => "can't stat ".toList ++ quoted path ++ ": ".toList ++ t.message (plainPath path)

/-- The logger of complaints. -/
def fileSystemLogger : Text := "globdir.provider.FileSystemProvider".toList

/-- The record that a complaint leaves. -/
def Complaint.records (g : Logging) (c : Complaint) : List LogRecord :=
  g.log fileSystemLogger debugLevel { text := c.message }

/-- Why a directory cannot even be tried to be listed. -/
inductive ListError
  /-- The search pattern is not supported. -/
  | search (e : SearchPatternError)
  /-- The path has a character that no path has. -/
  | nulInPath
  deriving DecidableEq, Repr

/-- The wording of an error. -/
def ListError.message : ListError → Text
  | .search e => e.message
  | .nulInPath => "embedded null byte".toList

/-- The plain path if there is an entry of the wanted kind, with a complaint about a trouble that is
more than an absence. -/
def FileSystem.find (s : FileSystem) (directory : Bool) (path : Text) :
    Option Text × Option Complaint :=
  if path.contains nul then (none, none)
  else
    match s.stat (plainPath path) with
    | .ok (_, isDirectory) =>
      (if isDirectory = directory then some (plainPath path) else none, none)
    | .error t => (none, if t.isAbsence then none else some (.stat path t))

/-- The directory at a path. -/
def FileSystem.findDirectory (s : FileSystem) (path : Text) : Option Text × Option Complaint :=
  s.find true path

/-- The file at a path. -/
def FileSystem.findFile (s : FileSystem) (path : Text) : Option Text × Option Complaint :=
  s.find false path

/-- The children of the directory at a path, nothing with a complaint if it cannot be listed. -/
def FileSystem.childrenOf (s : FileSystem) (path : Text) : List Text × Option Complaint :=
  match s.stat path with
  | .ok (l, true) => ((s.namesAt l).map fun name => plainPath (joinPath path name), none)
  | .ok (_, false) => ([], some (.list path .notDirectory))
  | .error t => ([], some (.list path t))

/-- The children of the directory at a path whose names match a search pattern. -/
def FileSystem.list (s : FileSystem) (path search : Text) :
    Except ListError (List Text × Option Complaint) :=
  match checkSearch search with
  | .error e => .error (.search e)
  | .ok _ => if path.contains nul then .error .nulInPath else .ok (s.childrenOf path)

/-- A file system as a provider. -/
def FileSystem.provider (s : FileSystem) : Provider Text where
  pathOf := id
  findDirectory path := (s.findDirectory path).1
  findFile path := (s.findFile path).1
  children path := if path.contains nul then [] else (s.childrenOf path).1
  entryName := plainName

/-! ## Making -/

/-- The file system with a directory at a location and at every place on the way to it; what is
there stays. -/
def FileSystem.withDirectory (s : FileSystem) : Location → FileSystem
  | [] => s
  | name :: parent =>
    if (s.kind? (name :: parent)).isSome then s
    else
      let t := s.withDirectory parent
      { t with nodes := t.nodes ++ [⟨name :: parent, .directory⟩] }

/-- The file system with a node at a location and the directories above it; what is there stays. -/
def FileSystem.addAt (s : FileSystem) (kind : FileKind) (l : Location) : FileSystem :=
  if (s.kind? l).isSome then s
  else
    let t := s.withDirectory l.tail
    { t with nodes := t.nodes ++ [⟨l, kind⟩] }

/-- The file system with a directory, if the path ends with a separator, or else an empty file. -/
def FileSystem.addPath (s : FileSystem) (path : Text) : FileSystem :=
  s.addAt (if endsIn '/' path then .directory else .file)
    (follow (startOf path s.cwd) (pieces '/' path))

/-- The file system with a symbolic link. Links in the path of its directory are followed. -/
def FileSystem.addLink (s : FileSystem) (path target : Text) : FileSystem :=
  let names := pieces '/' path
  let start := startOf path s.cwd
  let parent :=
    match s.resolve linkLimit start names.dropLast with
    | .ok (l, true) => l
    -- what is missing is made where the text alone says
    | _ => follow start names.dropLast
  s.addAt (.link target) (follow parent (names.drop (names.length - 1)))

/-- The file system that has nothing but a current directory and the directories above it. -/
def FileSystem.create (cwd : Location) : FileSystem := FileSystem.withDirectory ⟨[], cwd⟩ cwd

/-- The file system of paths and symbolic links under a current directory. -/
def FileSystem.ofPaths (cwd : Location) (paths : List Text) (links : List (Text × Text)) :
    FileSystem :=
  links.foldl (fun s l => s.addLink l.1 l.2)
    (paths.foldl FileSystem.addPath (FileSystem.create cwd))

end PathGlob
