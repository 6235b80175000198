import PathGlob.Braces
import PathGlob.Flags.Reader
import PathGlob.Log.Call
import PathGlob.Walk.Run

/-! # Searches
A search finds the entries of a hierarchy that match a pattern with brace groups. It walks the
alternatives of the pattern one behind the other; an entry that several of them match is found
several times. A pattern is taken as it is written, with the slash as its separator whether or not
backslashes escape.

* **`searchJobs`** — the jobs with which a search begins.
* **`openSearch`** — the same for arguments of any kind, which are checked first.
* **`ArgumentError`** — why an argument is refused.
* **`Note.records`** — the records that the notes of a search leave. -/

namespace PathGlob

/-! ## Jobs -/

/-- The jobs with which a search begins. The empty pattern matches nothing, and a pattern with
braces without a partner only leaves a note. -/
def searchJobs {ε : Type} (fs : Flags) (pattern : Text) : List (Job ε) :=
  if pattern.isEmpty then []
  else
    match expandBraces fs.escapes pattern with
    | [] => [.report (.unbalanced pattern)]
    | alternatives => alternatives.flatMap (startJobs fs)

@[simp] theorem searchJobs_nil {ε : Type} (fs : Flags) :
    (searchJobs fs [] : List (Job ε)) = [] := rfl

/-! ## Arguments -/

/-- Why an argument is refused. -/
inductive ArgumentError
  /-- The pattern is no text. -/
  | patternKind (kind : Text)
  /-- The pattern is not even a path. -/
  | pathKind (kind : Text)
  /-- The provider is none. -/
  | providerKind (kind : Text)
  /-- The flags cannot be read. -/
  | flags (e : FlagsError)

/-- The wording of an error. -/
def ArgumentError.message : ArgumentError → Text
  | .patternKind k => "pattern must be a str, not ".toList ++ k
  | .pathKind k => "expected str, bytes or os.PathLike object, not ".toList ++ k
  | .providerKind k => "provider must be a NamespaceProvider, not ".toList ++ k
  | .flags e => e.message

/-- What is given as the provider of a search. -/
inductive ProviderArgument
  /-- Nothing; the file system is searched. -/
  | absent
  /-- A provider. -/
  | given
  /-- A value that is no provider. -/
  | value (v : Value)

/-- The pattern that a value stands for. -/
def patternArgument : Value → Except ArgumentError Text
  | .text t => .ok t
  | v => .error (.patternKind v.kind)

/-- The path that a value stands for. -/
def pathArgument : Value → Except ArgumentError Text
  | .text t => .ok t
  | v => .error (.pathKind v.kind)

/-- Accepts a provider, or none at all. -/
def providerArgument : ProviderArgument → Except ArgumentError Unit
  | .absent => .ok ()
  | .given => .ok ()
  | .value .null => .ok ()
  | .value v => .error (.providerKind v.kind)

/-- The flags that an argument stands for, the standard ones if there is none. -/
def flagsArgument : Option Value → Except ArgumentError Flags
  | none => .ok Flags.standard
  | some v => (Flags.ofValue v).mapError .flags

/-- The jobs with which a search begins, for arguments of any kind. The pattern is checked first,
then the provider, and the flags last. -/
def openSearch {ε : Type} (pattern : Value) (flags? : Option Value) (provider : ProviderArgument) :
    Except ArgumentError (List (Job ε)) := do
  let p ← patternArgument pattern
  providerArgument provider
  let fs ← flagsArgument flags?
  return searchJobs fs p

/-- The jobs with which a walk of a pattern without brace groups begins, for flags of any kind. -/
def openWalk {ε : Type} (pattern : Text) (flags? : Option Value) :
    Except ArgumentError (List (Job ε)) :=
  (flagsArgument flags?).map fun fs => startJobs fs pattern

/-! ## Records -/

/-- The logger of walks. -/
def walkLogger : Text := "globdir.matcher.GlobMatcher".toList

/-- The logger of searches. -/
def searchLogger : Text := "globdir.api".toList

/-- The records that a note leaves: of a walk fine ones, of a search ones for finding faults. -/
def Note.records (g : Logging) (n : Note) : List LogRecord :=
  match n with
  | .unbalanced _ => g.log searchLogger debugLevel { text := n.message }
  | _ => g.log walkLogger traceLevel { text := n.message }

/-- The traced function that begins a search. -/
def searchSite : CallSite := { qualifiedName := "get_matches".toList }

/-- The records of a call that begins a search, left before its arguments are checked. -/
def searchCallRecords (g : Logging) (c : Call) : List LogRecord :=
  g.traceCall searchLogger searchSite c

end PathGlob
