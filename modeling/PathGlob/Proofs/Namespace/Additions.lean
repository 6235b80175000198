import PathGlob.Proofs.Namespace.Building

/-! # Additions node by node
`Namespace.addDirectoryAt` looks for an obstacle first and makes the missing directories only if
there is none. An addition in place has no such order: it climbs from the place to the outermost
missing directory and makes the nodes on its way back, so that a failure could leave some of them
behind.

* **`makeDirectoryAt`**, **`makeFileAt`** — additions in place, with the entry they return.
* **`run_makeDirectoryAt`**, **`run_makeFileAt`** — they lead to the same namespaces and errors, and
  an error leaves nothing behind.
* **`Namespace.IsTree.obstacle?_eq_some_iff`** — in a tree the obstacle is the one file on the way.
* **`Namespace.Reachable.failing_additions`** — when additions fail, what the error says, and that the
  namespace is the same as before. -/

namespace PathGlob

variable {s s' : Namespace} {l f f' : Location}

/-! ## In place -/

/-- Makes the directory at a location, the missing directories above it before; what was made before
an error stays made. -/
def makeDirectoryAt : Location → EStateM NamespaceError Namespace Entry
  | [] => return Node.entry ⟨[], .directory⟩
  | name :: parent => do
    match (← get).kind? (name :: parent) with
    | some .file => throw (.alreadyFile (name :: parent))
    | some .directory => return Node.entry ⟨name :: parent, .directory⟩
    | none =>
      let _ ← makeDirectoryAt parent
      modify (·.push ⟨name :: parent, .directory⟩)
      return Node.entry ⟨name :: parent, .directory⟩

/-- Makes the file at a location, the missing directories above it before. -/
def makeFileAt (l : Location) : EStateM NamespaceError Namespace Entry := do
  match (← get).kind? l with
  | some .directory => throw (.alreadyDirectory l)
  | some .file => return Node.entry ⟨l, .file⟩
  | none =>
    let _ ← makeDirectoryAt l.tail
    modify (·.push ⟨l, .file⟩)
    return Node.entry ⟨l, .file⟩

/-- Makes the directory at a path. -/
def makeDirectory (path : Text) : EStateM NamespaceError Namespace Entry := do
  makeDirectoryAt ((← get).locate path)

/-- Makes the file at a path. -/
def makeFile (path : Text) : EStateM NamespaceError Namespace Entry := do
  makeFileAt ((← get).locate path)

/-- The end of an addition in place that leads to `outcome` and returns `entry`: an error leaves the
namespace as it was. -/
def Namespace.afterAddition (s : Namespace) (entry : Entry) :
    Except NamespaceError Namespace → EStateM.Result NamespaceError Namespace Entry
  | .ok s' => .ok entry s'
  | .error e => .error e s

/-- An addition in place ends with an error if there is one, in the namespace in which it began. -/
theorem Namespace.afterAddition_eq_error_iff {entry : Entry}
    {outcome : Except NamespaceError Namespace} {e : NamespaceError} :
    s.afterAddition entry outcome = .error e s' ↔ outcome = .error e ∧ s' = s := by
  cases outcome with
  | ok s'' => simp [Namespace.afterAddition]
  | error e' => simp [Namespace.afterAddition, eq_comm]

/-- **A directory is made in place** exactly as it is added. -/
theorem run_makeDirectoryAt (s : Namespace) (l : Location) :
    (makeDirectoryAt l).run s =
      s.afterAddition (Node.entry ⟨l, .directory⟩) (s.addDirectoryAt l) := by
  induction l with
  | nil => rfl
  | cons name l ih =>
    rw [makeDirectoryAt, EStateM.run_bind]
    show EStateM.run (match s.kind? (name :: l) with
      | some .file => _ | some .directory => _ | none => _) s = _
    unfold Namespace.addDirectoryAt Namespace.obstacle? Namespace.withDirectory
    cases hk : s.kind? (name :: l) with
    | some k =>
      cases k with
      | file => rfl
      | directory => rfl
    | none =>
      -- nothing is made before the directory above is there
      simp only [EStateM.run_bind, ih, Namespace.addDirectoryAt]
      cases s.obstacle? l with
      | some f => rfl
      | none => rfl

/-- **A file is made in place** exactly as it is added. -/
theorem run_makeFileAt (s : Namespace) (l : Location) :
    (makeFileAt l).run s = s.afterAddition (Node.entry ⟨l, .file⟩) (s.addFileAt l) := by
  rw [makeFileAt, EStateM.run_bind]
  show EStateM.run (match s.kind? l with
    | some .directory => _ | some .file => _ | none => _) s = _
  unfold Namespace.addFileAt
  cases hk : s.kind? l with
  | some k =>
    cases k with
    | directory => rfl
    | file => rfl
  | none =>
    simp only [EStateM.run_bind, run_makeDirectoryAt]
    cases s.addDirectoryAt l.tail with
    | error e => rfl
    | ok s' => rfl

/-- The directory at a path is made exactly as it is added. -/
theorem run_makeDirectory (s : Namespace) (path : Text) :
    (makeDirectory path).run s =
      s.afterAddition (Node.entry ⟨s.locate path, .directory⟩) (s.addDirectory path) :=
  run_makeDirectoryAt s (s.locate path)

/-- The file at a path is made exactly as it is added. -/
theorem run_makeFile (s : Namespace) (path : Text) :
    (makeFile path).run s =
      s.afterAddition (Node.entry ⟨s.locate path, .file⟩) (s.addFile path) :=
  run_makeFileAt s (s.locate path)

/-! ## The file on the way -/

/-- There is at most one file on the way to a place of a tree. -/
theorem Namespace.IsTree.file_unique (hs : s.IsTree) (h : f <:+ l) (h' : f' <:+ l)
    (hf : s.kind? f = some .file) (hf' : s.kind? f' = some .file) : f = f' := by
  wlog hle : f <:+ f' generalizing f f' with hother
  · exact (hother h' h hf' hf ((List.suffix_or_suffix_of_suffix h h').resolve_left hle)).symm
  obtain ⟨names, rfl⟩ := hle
  by_contra hne
  have hnames : names ≠ [] := by
    rintro rfl
    exact hne rfl
  -- there is nothing below a file
  have hnone := hs.kind?_eq_none_below (l := f) (by rw [hf]; simp) hnames
  rw [hf'] at hnone
  cases hnone

/-- **The obstacle to a directory** is the file on the way to it. -/
theorem Namespace.IsTree.obstacle?_eq_some_iff (hs : s.IsTree) :
    s.obstacle? l = some f ↔ f <:+ l ∧ s.kind? f = some .file := by
  refine ⟨Namespace.kind?_of_obstacle?, ?_⟩
  rintro ⟨h, hf⟩
  induction l with
  | nil =>
    rw [List.suffix_nil.1 h, Namespace.kind?_nil] at hf
    cases hf
  | cons name l ih =>
    cases hk : s.kind? (name :: l) with
    | some k =>
      cases k with
      | file =>
        rw [Namespace.obstacle?, hk]
        exact congrArg some (hs.file_unique (List.suffix_refl _) h hk hf)
      | directory =>
        rw [hs.isDirectory_of_suffix hk h] at hf
        cases hf
    | none =>
      rw [Namespace.obstacle?, hk]
      rcases List.suffix_cons_iff.1 h with rfl | h
      · rw [hk] at hf
        cases hf
      · exact ih h

/-- A directory cannot be added exactly if there is a file on the way, and the error is about it. -/
theorem Namespace.IsTree.addDirectoryAt_eq_error_iff (hs : s.IsTree) {e : NamespaceError} :
    s.addDirectoryAt l = .error e ↔
      ∃ f, f <:+ l ∧ s.kind? f = some .file ∧ e = .alreadyFile f := by
  unfold Namespace.addDirectoryAt
  cases h : s.obstacle? l with
  | some f =>
    have hf := hs.obstacle?_eq_some_iff.1 h
    constructor
    · rintro ⟨⟩
      exact ⟨f, hf.1, hf.2, rfl⟩
    · rintro ⟨f', hl, hf', rfl⟩
      rw [hs.file_unique hf.1 hl hf.2 hf']
  | none =>
    simp only [reduceCtorEq, false_iff, not_exists]
    rintro f ⟨hl, hf, -⟩
    rw [hs.obstacle?_eq_some_iff.2 ⟨hl, hf⟩] at h
    cases h

/-- A file cannot be added exactly if there is a directory, or a file on the way. -/
theorem Namespace.IsTree.addFileAt_eq_error_iff (hs : s.IsTree) {e : NamespaceError} :
    s.addFileAt l = .error e ↔
      (s.kind? l = some .directory ∧ e = .alreadyDirectory l) ∨
        ∃ f, f <:+ l ∧ f ≠ l ∧ s.kind? f = some .file ∧ e = .alreadyFile f := by
  cases hk : s.kind? l with
  | some k =>
    rw [Namespace.addFileAt, hk]
    cases k with
    | directory =>
      constructor
      · rintro ⟨⟩
        exact .inl ⟨rfl, rfl⟩
      · rintro (⟨-, rfl⟩ | ⟨f, h, -, hf, -⟩)
        · rfl
        · rw [hs.isDirectory_of_suffix hk h] at hf
          cases hf
    | file =>
      simp only [reduceCtorEq, Option.some.injEq, false_and, false_or, false_iff, not_exists]
      rintro f ⟨h, hne, hf, -⟩
      exact hne (hs.file_unique h (List.suffix_refl _) hf hk)
  | none =>
    cases l with
    | nil => simp at hk
    | cons name l =>
      have hadd : s.addFileAt (name :: l) = .error e ↔ s.addDirectoryAt l = .error e := by
        rw [Namespace.addFileAt, hk, List.tail_cons]
        cases s.addDirectoryAt l <;> simp [Except.map]
      have habove : ∀ {f : Location}, f <:+ name :: l ∧ f ≠ name :: l ↔ f <:+ l := by
        intro f
        rw [List.suffix_cons_iff, or_and_right, and_not_self_iff, false_or, and_iff_left_iff_imp]
        rintro h rfl
        exact absurd h.length_le (by simp)
      simp only [hadd, hs.addDirectoryAt_eq_error_iff, reduceCtorEq, false_and, false_or,
        ← habove (f := _), and_assoc]

/-! ## Failing additions -/

/-- **The message of an error is about the one file on the way** to a place. -/
def Namespace.BlamesFile (s : Namespace) (l : Location) (message : Text) : Prop :=
  ∃ f : Location, (∀ f', f' <:+ l ∧ s.kind? f' = some .file ↔ f' = f) ∧
    message = quoted (Location.text f) ++ " is already a file.".toList

/-- What is said about a file on the way to a place of a tree. -/
theorem Namespace.IsTree.blamesFile (hs : s.IsTree) (h : f <:+ l) (hf : s.kind? f = some .file) :
    s.BlamesFile l (NamespaceError.alreadyFile f).message := by
  refine ⟨f, fun f' => ⟨fun ⟨h', hf'⟩ => hs.file_unique h' h hf' hf, ?_⟩, rfl⟩
  rintro rfl
  exact ⟨h, hf⟩

/-- **Additions fail exactly when they must, and change nothing then.** A directory cannot be added if
there is a file at its place or above it, a file if there is a directory at its place or a file above
it. The error names the directory in the way, otherwise the one file. An addition in place that ends
with an error has led to the namespace in which it began. -/
theorem Namespace.Reachable.failing_additions (hs : s.Reachable) (path : Text) :
    ((∃ e, s.addDirectory path = .error e) ↔
      ∃ f, f <:+ s.locate path ∧ s.kind? f = some .file) ∧
    ((∃ e, s.addFile path = .error e) ↔
      s.kind? (s.locate path) = some .directory ∨
        ∃ f, f <:+ s.locate path ∧ f ≠ s.locate path ∧ s.kind? f = some .file) ∧
    (∀ e, s.addDirectory path = .error e → s.BlamesFile (s.locate path) e.message) ∧
    (∀ e, s.addFile path = .error e →
      if s.kind? (s.locate path) = some .directory then
        e.message = quoted (s.normalize path) ++ " is already a directory.".toList
      else s.BlamesFile (s.locate path) e.message) ∧
    (∀ e s', (makeDirectory path).run s = .error e s' ↔ s.addDirectory path = .error e ∧ s' = s) ∧
    ∀ e s', (makeFile path).run s = .error e s' ↔ s.addFile path = .error e ∧ s' = s := by
  obtain ⟨htree, -⟩ := hs.isTree
  refine ⟨?_, ?_, ?_, ?_, ?_, ?_⟩
  · simp only [Namespace.addDirectory, htree.addDirectoryAt_eq_error_iff]
    constructor
    · rintro ⟨-, f, h, hf, -⟩
      exact ⟨f, h, hf⟩
    · rintro ⟨f, h, hf⟩
      exact ⟨_, f, h, hf, rfl⟩
  · simp only [Namespace.addFile, htree.addFileAt_eq_error_iff]
    constructor
    · rintro ⟨-, ⟨hdir, -⟩ | ⟨f, h, hne, hf, -⟩⟩
      · exact .inl hdir
      · exact .inr ⟨f, h, hne, hf⟩
    · rintro (hdir | ⟨f, h, hne, hf⟩)
      · exact ⟨_, .inl ⟨hdir, rfl⟩⟩
      · exact ⟨_, .inr ⟨f, h, hne, hf, rfl⟩⟩
  · intro e he
    obtain ⟨f, h, hf, rfl⟩ := htree.addDirectoryAt_eq_error_iff.1 he
    exact htree.blamesFile h hf
  · intro e he
    split
    · rename_i hdir
      rcases htree.addFileAt_eq_error_iff.1 he with ⟨-, rfl⟩ | ⟨f, h, -, hf, -⟩
      · rfl
      · rw [htree.isDirectory_of_suffix hdir h] at hf
        cases hf
    · rename_i hdir
      rcases htree.addFileAt_eq_error_iff.1 he with ⟨hdir', -⟩ | ⟨f, h, -, hf, rfl⟩
      · exact absurd hdir' hdir
      · exact htree.blamesFile h hf
  · intro e s'
    rw [run_makeDirectory, Namespace.afterAddition_eq_error_iff]
  · intro e s'
    rw [run_makeFile, Namespace.afterAddition_eq_error_iff]

/-- Below a file nothing can be added, and where the current directory is, no file. -/
theorem Namespace.small_failing_additions :
    (∃ e, Namespace.small.addDirectory "/x/a/b".toList = .error e) ∧
    (makeFile "/x/a".toList).run Namespace.small =
      .error (.alreadyFile [['x']]) Namespace.small ∧
    (makeFile ".".toList).run Namespace.small =
      .error (.alreadyDirectory [['d']]) Namespace.small := by
  refine ⟨?_, ?_, ?_⟩
  · exact (Namespace.reachable_small.failing_additions "/x/a/b".toList).1.2
      ⟨[['x']], ⟨[['b'], ['a']], by decide⟩, by decide⟩
  · exact ((Namespace.reachable_small.failing_additions "/x/a".toList).2.2.2.2.2 _ _).2
      ⟨by decide, rfl⟩
  · exact ((Namespace.reachable_small.failing_additions ".".toList).2.2.2.2.2 _ _).2
      ⟨by decide, rfl⟩

end PathGlob
