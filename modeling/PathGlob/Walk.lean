import PathGlob.Escape
import PathGlob.Part
import PathGlob.Provider
import PathGlob.Segment

/-! # Walks
A walk matches a pattern without brace groups against a hierarchy. It is a list of jobs; the first
one asks the provider a question, finds an entry or has something to note, and is replaced by the
jobs that follow from the answer. Nothing else is kept, so a walk can rest between any two steps. How
many directories lie below each other is not limited: an error that comes of a call stack that is full is
left out.

* **`Job`**, **`Job.action`** — the jobs of a walk and what each of them does.
* **`startJobs`** — the jobs with which the walk of a pattern begins.
* **`Note`** — what a walk has to say about its progress. -/

namespace PathGlob

/-! ## Notes -/

/-- A remark on the progress of a walk. -/
inductive Note
  /-- A path is tested for an entry. -/
  | test (path : Text)
  /-- A directory is listed for a segment. -/
  | list (base segment : Text)
  /-- A pattern has braces without a partner. -/
  | unbalanced (pattern : Text)
  deriving DecidableEq, Repr

/-- The wording of a note. -/
def Note.message : Note → Text
  | .test path => "test ".toList ++ quoted path
  | .list base segment => "list ".toList ++ quoted base ++ " for ".toList ++ quoted segment
  | .unbalanced pattern => "pattern ".toList ++ quoted pattern ++ " has unbalanced braces".toList

/-! ## Jobs -/

/-- What stays the same throughout a walk. -/
structure Scope where
  /-- The flags of the pattern. -/
  flags : Flags
  /-- Whether only directories are wanted: the pattern ends with a separator. -/
  directoriesOnly : Bool
  /-- Whether the walk starts in the current directory. -/
  relative : Bool
  deriving DecidableEq, Repr

/-- A piece of work that a walk still has to do, in a hierarchy with entries of type `ε`. -/
inductive Job (ε : Type)
  /-- Go on with a pattern in a directory. `again` holds if a `**` in front of the pattern was just
  taken for no directory, or if this `**` was taken for the directory before. -/
  | visit (scope : Scope) (base pattern : Text) (again : Bool)
  /-- List a directory for the wildcard segment at the front of a pattern. -/
  | enumerate (scope : Scope) (base pattern : Text)
  /-- Test whether there is an entry at a path to which the whole pattern led. -/
  | candidate (scope : Scope) (path : Text)
  /-- Test whether there is a file at a path at which there is no directory. -/
  | tryFile (path : Text)
  /-- Hand out an entry. -/
  | deliver (entry : ε)
  /-- Leave a note. -/
  | report (note : Note)

/-- What a job does first, with the jobs that take its place. -/
inductive Action (ε : Type)
  /-- Ask the provider, after a note if there is one; the answer decides how to go on. -/
  | ask (note? : Option Note) (query : Query) (proceed : query.Answer ε → List (Job ε))
  /-- Hand out an entry. -/
  | found (entry : ε)
  /-- Leave a note. -/
  | say (note : Note)

/-! ## Paths -/

/-- The directory in which a relative walk starts. -/
def currentDirectory : Text := ['.']

/-- The parent of a directory, by the name that every directory has for it. -/
def parentDirectory : Text := ['.', '.']

/-- The segment that matches any number of directories. -/
def doubleStar : Text := ['*', '*']

/-- The path that the provider is asked for. -/
def Scope.queryPath (s : Scope) (path : Text) : Text :=
  if s.flags.escapes then unescape path else path

/-- A listed name as it stands in the path of the walk. -/
def Scope.nameText (s : Scope) (name : Text) : Text :=
  if s.flags.escapes then escapeName name else name

/-- The path at which an entry is tested. A relative walk drops the reference to the directory in
which it started. -/
def Scope.candidatePath (s : Scope) (path : Text) : Text :=
  match s.queryPath path with
  | '.' :: '/' :: r => if s.relative then r else '.' :: '/' :: r
  | q => q

/-! ## What jobs lead to -/

/-- The job behind a part that led to `path`: the rest of the pattern there, or the test of the path
if there is no rest. -/
def continueAt {ε : Type} (s : Scope) (path : Text) : Option Text → Job ε
  | some rest => .visit s path rest false
  | none => .candidate s path

/-- The jobs in a directory that exists. Segments without wildcards are followed without asking; a
`**` is first taken for no directory at all, then the directory is listed. -/
def visitJobs {ε : Type} (s : Scope) (base pattern : Text) (again : Bool) : List (Job ε) :=
  let part := Part.next s.flags.escapes pattern
  if part.wild then
    -- first no directory at all, then one or more
    (if part.text = doubleStar ∧ ¬again then [.visit s base (part.rest?.getD []) true] else [])
      ++ [.enumerate s base pattern]
  else [continueAt s (joinPath base part.text) part.rest?]

/-- The jobs for a listed name: none unless the segment matches it, otherwise the rest of the
pattern there, and under `**` the same pattern once more. -/
def nameJobs {ε : Type} (s : Scope) (base pattern name : Text) : List (Job ε) :=
  let part := Part.next s.flags.escapes pattern
  if nameMatches s.flags part.text name then
    let path := joinPath base (s.nameText name)
    continueAt s path part.rest? ::
      if part.text = doubleStar then [.visit s path pattern true] else []
  else []

/-- Whether a segment is tried on the names of the directory itself and of its parent, which are
never listed: it starts with a dot, or it is the last one and hidden names match wildcards. -/
def triesSpecials (fs : Flags) (part : Part) : Bool :=
  isHidden part.text || (part.rest?.isNone && fs.has .dotMatch)

/-- The jobs for the directory itself and its parent. -/
def specialJobs {ε : Type} (s : Scope) (base pattern : Text) : List (Job ε) :=
  let part := Part.next s.flags.escapes pattern
  if triesSpecials s.flags part then
    ([currentDirectory, parentDirectory].filter (nameMatches s.flags part.text)).map fun name =>
      continueAt s (joinPath base name) part.rest?
  else []

/-- What a job does first. The names of listed entries are those that `nameOf` gives. -/
def Job.action {ε : Type} (nameOf : ε → Text) : Job ε → Action ε
  | .visit s base pattern again =>
    .ask none (.findDirectory (s.queryPath base)) fun
      | some _ => visitJobs s base pattern again
      | none => []
  | .enumerate s base pattern =>
    .ask (some (.list base (Part.next s.flags.escapes pattern).text))
      (.list (s.queryPath base) everything) fun entries =>
        entries.flatMap (fun e => nameJobs s base pattern (nameOf e)) ++ specialJobs s base pattern
  | .candidate s path =>
    .ask (some (.test (s.candidatePath path))) (.findDirectory (s.candidatePath path)) fun
      | some e => [.deliver e]
      | none => if s.directoriesOnly then [] else [.tryFile (s.candidatePath path)]
  | .tryFile path =>
    .ask none (.findFile path) fun
      | some e => [.deliver e]
      | none => []
  | .deliver e => .found e
  | .report note => .say note

/-! ## The beginning -/

/-- Whether a pattern names its starting point: it starts with a separator or has a drive mark. -/
def isAnchored (pattern : Text) : Bool := beginsWith ['/'] pattern || pattern.contains ':'

/-- The pattern that is walked: a `**` alone is an ordinary star. -/
def walkedPattern (pattern : Text) : Text := if pattern = doubleStar then ['*'] else pattern

/-- The jobs with which the walk of a pattern without brace groups begins. An anchored pattern
without wildcards is tested as it is, and one with wildcards starts behind its leading segments;
every other pattern starts in the current directory. -/
def startJobs {ε : Type} (fs : Flags) (pattern : Text) : List (Job ε) :=
  let p := walkedPattern pattern
  let scope : Bool → Scope := fun relative => ⟨fs, endsIn '/' p, relative⟩
  if p.isEmpty then []
  else if isAnchored p then
    let lead := (leadEnd? (marks fs.escapes p)).getD 0
    -- nothing has to be listed if the whole pattern is without wildcards
    if lead = p.length then [.candidate (scope false) p]
    -- a drive mark that is escaped or stands behind a wildcard names no starting point
    else if lead = 0 then [.visit (scope true) currentDirectory p false]
    else [.visit (scope false) (p.take lead) (p.drop lead) false]
  else [.visit (scope true) currentDirectory p false]

@[simp] theorem startJobs_nil {ε : Type} (fs : Flags) : (startJobs fs [] : List (Job ε)) = [] :=
  rfl

end PathGlob
