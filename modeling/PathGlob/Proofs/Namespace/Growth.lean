import PathGlob.Proofs.Namespace.Tree
import PathGlob.Proofs.Namespace.Walks
import PathGlob.Proofs.Walk.Extensions

/-! # Growth of namespaces
Additions only ever put further nodes behind those that are there, so that a namespace that has grown
has all that it had before.

* **`Addition`**, **`Namespace.add`** — additions, which may fail.
* **`Namespace.GrowsTo`** — one namespace has come about from another one by additions.
* **`Namespace.GrowsTo.extends`** — the larger namespace has all that the smaller one has.
* **`Namespace.Answers`** — an entry is what is found at its own path. -/

namespace PathGlob

variable {s s' s'' : Namespace} {l : Location}

/-! ## Additions -/

/-- Something that is added to a namespace. -/
inductive Addition
  /-- A file at a path. -/
  | file (path : Text)
  /-- A directory at a path. -/
  | directory (path : Text)
  deriving DecidableEq, Repr

/-- **The namespace behind an addition.** One that fails leaves everything as it is. -/
def Namespace.add (s : Namespace) : Addition → Namespace
  | .file path => (s.addFile path).toOption.getD s
  | .directory path => (s.addDirectory path).toOption.getD s

/-- The namespace behind several additions, one after the other. -/
def Namespace.addAll (s : Namespace) (as : List Addition) : Namespace := as.foldl Namespace.add s

@[simp] theorem Namespace.addAll_nil (s : Namespace) : s.addAll [] = s := rfl

@[simp] theorem Namespace.addAll_cons (s : Namespace) (a : Addition) (as : List Addition) :
    s.addAll (a :: as) = (s.add a).addAll as := rfl

/-- What an addition leads to: nothing if it fails, otherwise the namespace with the entry. -/
theorem Namespace.add_cases (s : Namespace) (a : Addition) :
    s.add a = s ∨ (∃ path, s.addFile path = .ok (s.add a)) ∨
      ∃ path, s.addDirectory path = .ok (s.add a) := by
  cases a with
  | file path =>
    cases h : s.addFile path with
    | error e => exact .inl (by simp [Namespace.add, h, Except.toOption])
    | ok s' => exact .inr (.inl ⟨path, by simp [Namespace.add, h, Except.toOption]⟩)
  | directory path =>
    cases h : s.addDirectory path with
    | error e => exact .inl (by simp [Namespace.add, h, Except.toOption])
    | ok s' => exact .inr (.inr ⟨path, by simp [Namespace.add, h, Except.toOption]⟩)

/-- **A namespace with something added has come about by additions.** -/
theorem Namespace.Reachable.add (hs : s.Reachable) (a : Addition) : (s.add a).Reachable := by
  rcases s.add_cases a with h | ⟨path, h⟩ | ⟨path, h⟩
  · rwa [h]
  · exact hs.addFile h
  · exact hs.addDirectory h

theorem Namespace.Reachable.addAll (hs : s.Reachable) (as : List Addition) :
    (s.addAll as).Reachable := by
  induction as generalizing s with
  | nil => exact hs
  | cons a as ih => exact ih (hs.add a)

/-! ## Growth -/

/-- **A namespace has grown**: it has further nodes behind those that it had. -/
structure Namespace.GrowsTo (s s' : Namespace) : Prop where
  /-- The nodes are those from before and further ones behind them. -/
  nodes : s.nodes <+: s'.nodes
  /-- The current directory is the same. -/
  cwd : s'.cwd = s.cwd

theorem Namespace.GrowsTo.refl (s : Namespace) : s.GrowsTo s := ⟨List.prefix_refl _, rfl⟩

theorem Namespace.GrowsTo.trans (h : s.GrowsTo s') (h' : s'.GrowsTo s'') : s.GrowsTo s'' :=
  ⟨h.nodes.trans h'.nodes, h'.cwd.trans h.cwd⟩

/-- One more node. -/
theorem Namespace.growsTo_push (s : Namespace) (n : Node) : s.GrowsTo (s.push n) :=
  ⟨List.prefix_append _ _, rfl⟩

/-- The missing directories on the way to a place. -/
theorem Namespace.growsTo_withDirectory (s : Namespace) (l : Location) :
    s.GrowsTo (s.withDirectory l) := by
  induction l with
  | nil => exact .refl s
  | cons name l ih =>
    unfold Namespace.withDirectory
    split
    · exact .refl s
    · exact ih.trans (Namespace.growsTo_push _ _)

/-- A directory is added. -/
theorem Namespace.growsTo_of_addDirectoryAt (h : s.addDirectoryAt l = .ok s') : s.GrowsTo s' := by
  unfold Namespace.addDirectoryAt at h
  split at h
  · cases h
  · cases h
    exact s.growsTo_withDirectory l

/-- A file is added. -/
theorem Namespace.growsTo_of_addFileAt (h : s.addFileAt l = .ok s') : s.GrowsTo s' := by
  unfold Namespace.addFileAt at h
  split at h
  · cases h
  · cases h
    exact .refl s
  · cases hd : s.addDirectoryAt l.tail with
    | error e =>
      rw [hd] at h
      cases h
    | ok s₁ =>
      rw [hd] at h
      cases h
      exact (Namespace.growsTo_of_addDirectoryAt hd).trans (Namespace.growsTo_push _ _)

/-- **A namespace grows with every addition**, whether or not it fails. -/
theorem Namespace.growsTo_add (s : Namespace) (a : Addition) : s.GrowsTo (s.add a) := by
  rcases s.add_cases a with h | ⟨path, h⟩ | ⟨path, h⟩
  · rw [h]
    exact .refl s
  · exact Namespace.growsTo_of_addFileAt h
  · exact Namespace.growsTo_of_addDirectoryAt h

theorem Namespace.growsTo_addAll (s : Namespace) (as : List Addition) : s.GrowsTo (s.addAll as) := by
  induction as generalizing s with
  | nil => exact .refl s
  | cons a as ih => exact (s.growsTo_add a).trans (ih (s.add a))

/-! ## What stays -/

/-- **What is at a place stays there.** -/
theorem Namespace.GrowsTo.kind? (h : s.GrowsTo s') {k : Kind} (hk : s.kind? l = some k) :
    s'.kind? l = some k := by
  cases l with
  | nil => rwa [Namespace.kind?_nil] at hk ⊢
  | cons name l =>
    obtain ⟨new, hnew⟩ := h.nodes
    rw [Namespace.kind?_cons] at hk ⊢
    rw [← hnew, List.find?_append, Option.map_or, hk, Option.some_or]

/-- A path means the same place. -/
theorem Namespace.GrowsTo.locate (h : s.GrowsTo s') (path : Text) : s'.locate path = s.locate path := by
  unfold Namespace.locate
  rw [h.cwd]

/-- The directory at a place, if one is found. -/
theorem Namespace.directoryAt?_eq_some_iff {e : Entry} :
    s.directoryAt? l = some e ↔ s.kind? l = some .directory ∧ e = ⟨l.text, true⟩ := by
  unfold Namespace.directoryAt?
  split
  · rename_i hk
    simp only [hk, Option.some.injEq, true_and]
    exact eq_comm
  · rename_i hk
    simp [hk]

/-- The file at a place, if one is found. -/
theorem Namespace.fileAt?_eq_some_iff {e : Entry} :
    s.fileAt? l = some e ↔ s.kind? l = some .file ∧ e = ⟨l.text, false⟩ := by
  unfold Namespace.fileAt?
  split
  · rename_i hk
    simp only [hk, Option.some.injEq, true_and]
    exact eq_comm
  · rename_i hk
    simp [hk]

/-- **A namespace that has grown has all that it had before.** -/
theorem Namespace.GrowsTo.extends (h : s.GrowsTo s') : s'.provider.Extends s.provider where
  entryName := rfl
  findDirectory {path e} hd := by
    show s'.directoryAt? (s'.locate path) = some e
    obtain ⟨hk, he⟩ := Namespace.directoryAt?_eq_some_iff.1 hd
    rw [h.locate]
    exact Namespace.directoryAt?_eq_some_iff.2 ⟨h.kind? hk, he⟩
  findFile {path e} hf := by
    show s'.fileAt? (s'.locate path) = some e
    obtain ⟨hk, he⟩ := Namespace.fileAt?_eq_some_iff.1 hf
    rw [h.locate]
    exact Namespace.fileAt?_eq_some_iff.2 ⟨h.kind? hk, he⟩
  findDirectory_eq_none {path e} hf _ := by
    show s'.directoryAt? (s'.locate path) = none
    have hk := h.kind? (Namespace.fileAt?_eq_some_iff.1 hf).1
    rw [h.locate, Namespace.directoryAt?, hk]
    rfl
  children path := by
    show (s.childrenAt (s.locate path)).Sublist (s'.childrenAt (s'.locate path))
    rw [h.locate]
    exact (h.nodes.sublist.filter _).map _

/-! ## Answers -/

/-- **An entry is what is found at its own path**: the directory there, or the file there if there is
no directory. -/
def Namespace.Answers (s : Namespace) (e : Entry) : Prop :=
  s.provider.findDirectory e.path = some e ∨
    (s.provider.findDirectory e.path = none ∧ s.provider.findFile e.path = some e)

/-- The entry of a place at which there is something. -/
theorem Namespace.IsTree.answers (hs : s.IsTree) {k : Kind} (hk : s.kind? l = some k) :
    s.Answers (Node.entry ⟨l, k⟩) := by
  have hnames := hs.isName_of_kind? hk
  have hplace : s.locate (Node.entry ⟨l, k⟩).path = l := locateFrom_text s.cwd hnames
  unfold Namespace.Answers
  show s.directoryAt? (s.locate _) = _ ∨ s.directoryAt? (s.locate _) = _ ∧ s.fileAt? (s.locate _) = _
  rw [hplace]
  cases k with
  | directory => exact .inl (Namespace.directoryAt?_eq_some_iff.2 ⟨hk, rfl⟩)
  | file =>
    refine .inr ⟨?_, Namespace.fileAt?_eq_some_iff.2 ⟨hk, rfl⟩⟩
    rw [Namespace.directoryAt?, hk]
    rfl

/-- A directory that is found is what is found at its own path. -/
theorem Namespace.IsTree.answers_of_findDirectory (hs : s.IsTree) {path : Text} {e : Entry}
    (h : s.provider.findDirectory path = some e) : s.Answers e := by
  obtain ⟨hk, rfl⟩ := Namespace.directoryAt?_eq_some_iff.1 h
  exact hs.answers hk

/-- So is a file. -/
theorem Namespace.IsTree.answers_of_findFile (hs : s.IsTree) {path : Text} {e : Entry}
    (h : s.provider.findFile path = some e) : s.Answers e := by
  obtain ⟨hk, rfl⟩ := Namespace.fileAt?_eq_some_iff.1 h
  exact hs.answers hk

/-- **What is found at its own path is so when the namespace has grown.** -/
theorem Namespace.GrowsTo.answers (h : s.GrowsTo s') {e : Entry} (he : s.Answers e) :
    s'.Answers e := by
  rcases he with hd | ⟨hd, hf⟩
  · exact .inl (h.extends.findDirectory hd)
  · exact .inr ⟨h.extends.findDirectory_eq_none hf hd, h.extends.findFile hf⟩

end PathGlob
