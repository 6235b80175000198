import Mathlib.Data.List.AList
import PathGlob.Proofs.Namespace.Additions

/-! # Namespaces in two tables
A hierarchy can be kept in two tables: one has for every directory the paths that it lists, the other
one has the files. They are written one after the other, so that what is kept and what is listed belong
together only because all additions see to it. An addition makes a path absolute, looks it up, makes the
directory in which it stands by the same program, and writes behind that; what was written before an
error stays written.

* **`Tables`** — the two tables, with the path of the current directory.
* **`storeDirectory`**, **`storeFile`** — additions to tables; **`Tables.provider`** — what is found in
  them.
* **`Tables.Keeps`** — tables keep what a namespace has.
* **`Tables.Agrees`** — the results of two additions agree; **`Tables.Keeps.storeDirectory`**,
  **`Tables.Keeps.storeFile`** — additions to tables and to the namespace that they keep do.
* **`Tables.Keeps.provider_eq`** — the answers are the same. -/

namespace PathGlob

/-! ## Tables -/

/-- **A hierarchy in two tables.** -/
structure Tables where
  /-- The paths that a directory lists, in the order in which they were added, for every directory. -/
  listings : AList fun _ : Text => List Text
  /-- The files by their paths. -/
  files : AList fun _ : Text => Entry
  /-- The path behind which relative paths are put. -/
  cwd : Text

/-- Why an addition to tables fails. -/
inductive TableError
  /-- There is a file where a directory is needed. -/
  | alreadyFile (path : Text)
  /-- There is a directory where a file is wanted. -/
  | alreadyDirectory (path : Text)
  /-- A directory that is to list a further path is not in the table. -/
  | unlisted (path : Text)
  /-- The directory in which a path stands does not lie nearer to the root, so that making it does not
  come to an end. -/
  | endless (path : Text)
  deriving DecidableEq, Repr

/-- The error of tables that keep a namespace. -/
def NamespaceError.inTables : NamespaceError → TableError
  | .alreadyFile l => .alreadyFile l.text
  | .alreadyDirectory l => .alreadyDirectory l.text

/-- The absolute path of what a path means behind the path `cwd`. -/
def absolutePath (cwd path : Text) : Text :=
  let p := withSlashes path
  Location.text (follow rootLocation (pieces '/' (if beginsWith ['/'] p then p else joinPath cwd p)))

/-- The absolute path of what a path means. -/
def Tables.normalize (d : Tables) (path : Text) : Text := absolutePath d.cwd path

/-- The tables in which a path is kept as that of a directory, which lists nothing yet, or of a file. -/
def Tables.keep (d : Tables) (path : Text) : Kind → Tables
  | .directory => { d with listings := d.listings.insert path [] }
  | .file => { d with files := d.files.insert path ⟨path, false⟩ }

/-- Puts a path at the end of what a directory lists. -/
def listIn (directory path : Text) : EStateM TableError Tables Unit := do
  match (← get).listings.lookup directory with
  | some paths =>
    modify fun d => { d with listings := d.listings.insert directory (paths ++ [path]) }
  | none => throw (.unlisted directory)

/-- Keeps a directory at an absolute path, the directory in which it stands before. -/
def storeDirectoryAt (path : Text) : EStateM TableError Tables Entry := do
  let d ← get
  if path ∈ d.files then throw (.alreadyFile path)
  else if path ∈ d.listings then return ⟨path, true⟩
  else
    let above := d.normalize (dirName path)
    if above.length < path.length then
      let _ ← storeDirectoryAt above
      modify (·.keep path .directory)
      listIn (dirName path) path
      return ⟨path, true⟩
    else throw (.endless path)
termination_by path.length

/-- Keeps a directory at a path. -/
def storeDirectory (path : Text) : EStateM TableError Tables Entry := do
  storeDirectoryAt ((← get).normalize path)

/-- Keeps a file at a path, the directory in which it stands before. -/
def storeFile (path : Text) : EStateM TableError Tables Entry := do
  let d ← get
  let path := d.normalize path
  if path ∈ d.listings then throw (.alreadyDirectory path)
  else
    match d.files.lookup path with
    | some e => return e
    | none =>
      let _ ← storeDirectory (dirName path)
      modify (·.keep path .file)
      listIn (dirName path) path
      return ⟨path, false⟩

/-- The entry at a path that is listed. -/
def Tables.entry (d : Tables) (path : Text) : Entry := (d.files.lookup path).getD ⟨path, true⟩

/-- The tables as a provider. -/
def Tables.provider (d : Tables) : Provider Entry where
  pathOf := Entry.path
  findDirectory path :=
    if d.normalize path ∈ d.listings then some ⟨d.normalize path, true⟩ else none
  findFile path := d.files.lookup (d.normalize path)
  children path := ((d.listings.lookup (d.normalize path)).getD []).map d.entry

/-! ## Runs -/

/-- A path is put at the end of a list, unless there is none. -/
theorem run_listIn (d : Tables) (directory path : Text) :
    (listIn directory path).run d =
      match d.listings.lookup directory with
      | some paths => .ok () { d with listings := d.listings.insert directory (paths ++ [path]) }
      | none => .error (.unlisted directory) d := by
  rw [listIn, EStateM.run_bind]
  show EStateM.run (match d.listings.lookup directory with | some _ => _ | none => _) d = _
  cases d.listings.lookup directory <;> rfl

/-- The entry that is kept and listed, or the error on the way to it. -/
def Tables.keepListed (directory path : Text) (k : Kind) :
    EStateM.Result TableError Tables Entry → EStateM.Result TableError Tables Entry
  | .ok _ d =>
    match (listIn directory path).run (d.keep path k) with
    | .ok _ d => .ok ⟨path, k == .directory⟩ d
    | .error e d => .error e d
  | .error e d => .error e d

/-- **What keeping a directory does**, step by step. -/
theorem run_storeDirectoryAt_eq (d : Tables) (path : Text) :
    (storeDirectoryAt path).run d =
      if path ∈ d.files then .error (.alreadyFile path) d
      else if path ∈ d.listings then .ok ⟨path, true⟩ d
      else if (d.normalize (dirName path)).length < path.length then
        Tables.keepListed (dirName path) path .directory
          ((storeDirectoryAt (d.normalize (dirName path))).run d)
      else .error (.endless path) d := by
  rw [storeDirectoryAt, EStateM.run_bind]
  show EStateM.run (if path ∈ d.files then _ else if path ∈ d.listings then _ else _) d = _
  split
  · rfl
  · split
    · rfl
    · show EStateM.run (if (d.normalize (dirName path)).length < path.length then _ else _) d = _
      split
      · rw [EStateM.run_bind]
        cases (storeDirectoryAt (d.normalize (dirName path))).run d with
        | error e d' => rfl
        | ok _ d' =>
          show EStateM.run (listIn (dirName path) path >>= fun _ => _) (d'.keep path .directory) = _
          rw [EStateM.run_bind, Tables.keepListed]
          cases (listIn (dirName path) path).run (d'.keep path .directory) <;> rfl
      · rfl

/-- **What keeping a file does**, step by step. -/
theorem run_storeFile_eq (d : Tables) (path : Text) :
    (storeFile path).run d =
      if d.normalize path ∈ d.listings then .error (.alreadyDirectory (d.normalize path)) d
      else
        match d.files.lookup (d.normalize path) with
        | some e => .ok e d
        | none =>
          Tables.keepListed (dirName (d.normalize path)) (d.normalize path) .file
            ((storeDirectory (dirName (d.normalize path))).run d) := by
  rw [storeFile, EStateM.run_bind]
  show EStateM.run (if d.normalize path ∈ d.listings then _ else
    match d.files.lookup (d.normalize path) with | some _ => _ | none => _) d = _
  split
  · rfl
  · cases d.files.lookup (d.normalize path) with
    | some e => rfl
    | none =>
      show EStateM.run (storeDirectory (dirName (d.normalize path)) >>= fun _ => _) d = _
      rw [EStateM.run_bind]
      cases (storeDirectory (dirName (d.normalize path))).run d with
      | error e d' => rfl
      | ok _ d' =>
        show EStateM.run (listIn (dirName (d.normalize path)) (d.normalize path) >>= fun _ => _)
          (d'.keep (d.normalize path) .file) = _
        rw [EStateM.run_bind, Tables.keepListed]
        cases (listIn (dirName (d.normalize path)) (d.normalize path)).run
          (d'.keep (d.normalize path) .file) <;> rfl

/-! ## What is kept -/

variable {d : Tables} {s : Namespace} {l : Location} {name path : Text}

/-- The paths of the entries in the directory at a place. -/
def Namespace.listedAt (s : Namespace) (l : Location) : List Text :=
  (s.childrenAt l).map Entry.path

/-- A path is in one of the tables. -/
def Tables.Has (d : Tables) (path : Text) : Prop := path ∈ d.listings ∨ path ∈ d.files

/-- **Tables keep a namespace**: every directory with what it lists, every file, and nothing else. -/
structure Tables.Keeps (d : Tables) (s : Namespace) : Prop where
  /-- The current directory is the same. -/
  cwd : d.cwd = s.cwd.text
  /-- The directories are in the table of what is listed. -/
  listings : ∀ l : Location, (∀ x ∈ l, IsName x) →
    d.listings.lookup l.text = if s.kind? l = some .directory then some (s.listedAt l) else none
  /-- The files are in that of files. -/
  files : ∀ l : Location, (∀ x ∈ l, IsName x) → d.files.lookup l.text = s.fileAt? l
  /-- Only paths of places are in a table. -/
  places : ∀ path, d.Has path → ∃ l : Location, (∀ x ∈ l, IsName x) ∧ path = l.text

/-- A directory is in the table. -/
theorem Tables.Keeps.text_mem_listings (hd : d.Keeps s) (hl : ∀ x ∈ l, IsName x) :
    l.text ∈ d.listings ↔ s.kind? l = some .directory := by
  rw [← AList.lookup_isSome, hd.listings l hl]
  split <;> simp_all

/-- So is a file. -/
theorem Tables.Keeps.text_mem_files (hd : d.Keeps s) (hl : ∀ x ∈ l, IsName x) :
    l.text ∈ d.files ↔ s.kind? l = some .file := by
  rw [← AList.lookup_isSome, hd.files l hl, Namespace.fileAt?]
  split <;> simp_all

/-! ## Paths -/

/-- **Made absolute, a path is that of the place it means.** -/
theorem absolutePath_text (hl : ∀ x ∈ l, IsName x) (path : Text) :
    absolutePath l.text path = (locateFrom l path).text := by
  have hb := backslash_not_mem_withSlashes path
  unfold absolutePath locateFrom
  cases hrooted : beginsWith ['/'] (withSlashes path) with
  | true => simp only [hrooted, if_true]
  | false =>
    -- the joined path is absolute, and it means what the relative one means from `l`
    have hne : l.text ≠ [] := by simp [Location.text]
    have hjoin := locateFrom_joinPath rootLocation hne (withSlashes path)
    rw [locateFrom_text rootLocation hl, withSlashes_of_not_mem hb] at hjoin
    have hplain : '\\' ∉ joinPath l.text (withSlashes path) := by
      have := backslash_not_mem_text hl
      unfold joinPath
      split <;> simp_all
    rw [locateFrom, withSlashes_of_not_mem hplain, ite_self] at hjoin
    simp only [hrooted, Bool.false_eq_true, if_false, hjoin]

/-- **Tables make a path absolute as the namespace does.** -/
theorem Tables.Keeps.normalize (hd : d.Keeps s) (hcwd : ∀ x ∈ s.cwd, IsName x) (path : Text) :
    d.normalize path = s.normalize path := by
  rw [Tables.normalize, hd.cwd, absolutePath_text hcwd]
  rfl

/-- The path of a place stays as it is. -/
theorem Tables.Keeps.normalize_text (hd : d.Keeps s) (hcwd : ∀ x ∈ s.cwd, IsName x)
    (hl : ∀ x ∈ l, IsName x) : d.normalize l.text = l.text := by
  rw [hd.normalize hcwd, Namespace.normalize, Namespace.locate, locateFrom_text s.cwd hl]

/-- The path of a child is longer than that of its parent. -/
theorem length_text_lt (hl : ∀ x ∈ name :: l, IsName x) :
    l.text.length < (Location.text (name :: l)).length := by
  have hname := List.length_pos_of_ne_nil (hl name List.mem_cons_self).ne_nil
  rw [Location.text_cons, List.length_append, List.length_cons]
  split
  · rename_i hnil
    subst hnil
    simpa using hname
  · omega

/-! ## A further entry -/

/-- A further node is listed where it is a child. -/
theorem Namespace.listedAt_push (s : Namespace) (n : Node) (l : Location) :
    (s.push n).listedAt l = s.listedAt l ++ if n.isChildOf l then [n.location.text] else [] := by
  simp only [Namespace.listedAt, Namespace.childrenAt, Namespace.push, List.filter_append,
    List.map_append]
  split <;> simp_all [Node.entry]

/-- Other paths stay in the tables, or out of them. -/
theorem Tables.lookup_keep_ne {path' : Text} (d : Tables) (k : Kind) (h : path' ≠ path) :
    (d.keep path k).listings.lookup path' = d.listings.lookup path' ∧
      (d.keep path k).files.lookup path' = d.files.lookup path' := by
  cases k with
  | directory => exact ⟨AList.lookup_insert_ne h, rfl⟩
  | file => exact ⟨rfl, AList.lookup_insert_ne h⟩

/-- Only the kept path is new in the tables. -/
theorem Tables.Has.of_keep {path' : Text} {k : Kind} (h : (d.keep path k).Has path') :
    path' = path ∨ d.Has path' := by
  by_cases heq : path' = path
  · exact .inl heq
  · obtain ⟨hlistings, hfiles⟩ := d.lookup_keep_ne k heq
    right
    rwa [Tables.Has, ← AList.lookup_isSome, ← AList.lookup_isSome, ← hlistings, ← hfiles,
      AList.lookup_isSome, AList.lookup_isSome]

/-- **A further entry, kept and listed**, is a further node of the namespace. -/
theorem Tables.Keeps.keepListed (hd : d.Keeps s) (hs : s.IsTree) (hl : ∀ x ∈ name :: l, IsName x)
    (hfree : s.kind? (name :: l) = none) (hp : s.kind? l = some .directory) (k : Kind) (e : Entry) :
    ∃ d', Tables.keepListed l.text (Location.text (name :: l)) k (.ok e d) =
        .ok (Node.entry ⟨name :: l, k⟩) d' ∧
      d'.Keeps (s.push ⟨name :: l, k⟩) := by
  have hparent : ∀ x ∈ l, IsName x := fun x hx => hl x (List.mem_cons_of_mem name hx)
  have hne : l.text ≠ Location.text (name :: l) := by
    intro heq
    exact absurd (length_text_lt hl) (by rw [heq]; exact Nat.lt_irrefl _)
  have hlist : (d.keep (Location.text (name :: l)) k).listings.lookup l.text = some (s.listedAt l) := by
    rw [(d.lookup_keep_ne k hne).1, hd.listings l hparent, if_pos hp]
  refine ⟨_, by simp only [Tables.keepListed, run_listIn, hlist]; rfl, ?_⟩
  constructor
  case cwd => cases k <;> exact hd.cwd
  case listings =>
    intro l' hl'
    -- the directory above lists one path more, and all others list what they did
    by_cases htop : l' = l
    · subst htop
      rw [AList.lookup_insert, Namespace.kind?_push, hp, Namespace.listedAt_push]
      simp [Node.isChildOf]
    · have hchild : ¬Node.isChildOf l' ⟨name :: l, k⟩ = true := by
        simpa [Node.isChildOf] using Ne.symm htop
      rw [AList.lookup_insert_ne fun heq => htop (text_inj hl' hparent heq), Namespace.kind?_push,
        Namespace.listedAt_push, if_neg hchild, List.append_nil]
      by_cases hnew : name :: l = l'
      · -- the new place lists nothing yet, and as a file it is in the other table
        subst hnew
        have hnone : s.listedAt (name :: l) = [] := by
          rw [Namespace.listedAt, hs.childrenAt_eq_nil (by simp [hfree]), List.map_nil]
        cases k with
        | directory =>
          rw [Tables.keep, AList.lookup_insert, hfree, hnone]
          simp
        | file =>
          rw [Tables.keep, hd.listings _ hl, hfree]
          simp
      · rw [(d.lookup_keep_ne k fun heq => hnew (text_inj hl hl' heq.symm)).1, hd.listings l' hl',
          if_neg hnew, Option.or_none]
  case files =>
    intro l' hl'
    rw [Namespace.fileAt?, Namespace.kind?_push]
    by_cases hnew : name :: l = l'
    · subst hnew
      cases k with
      | directory =>
        rw [Tables.keep, hd.files _ hl, Namespace.fileAt?, hfree]
        simp
      | file =>
        rw [Tables.keep, AList.lookup_insert, hfree]
        simp [Node.entry]
    · rw [(d.lookup_keep_ne k fun heq => hnew (text_inj hl hl' heq.symm)).2, hd.files l' hl',
        if_neg hnew, Option.or_none]
      rfl
  case places =>
    intro path hmem
    rw [Tables.Has, AList.mem_insert, or_assoc] at hmem
    rcases hmem with rfl | hmem
    · exact ⟨l, hparent, rfl⟩
    · rcases Tables.Has.of_keep hmem with rfl | hold
      · exact ⟨name :: l, hl, rfl⟩
      · exact hd.places path hold

/-! ## Additions -/

/-- **The results of two additions agree**, one to tables and one to the namespace that they keep: they
return the same entry, and what is kept is the namespace again, or else they fail with the same error,
and nothing has been written. -/
def Tables.Agrees (d : Tables) :
    EStateM.Result TableError Tables Entry → EStateM.Result NamespaceError Namespace Entry → Prop
  | .ok e d', .ok e' s' => e = e' ∧ d'.Keeps s'
  | .error err d', .error err' _ => err = err'.inTables ∧ d' = d
  | _, _ => False

/-- **How additions that agree end**, if that to the namespace comes to `outcome`. -/
theorem Tables.Agrees.cases {r : EStateM.Result TableError Tables Entry} {e : Entry}
    {outcome : Except NamespaceError Namespace} (h : d.Agrees r (s.afterAddition e outcome)) :
    (∃ d' s', r = .ok e d' ∧ outcome = .ok s' ∧ d'.Keeps s') ∨
      ∃ err, r = .error (NamespaceError.inTables err) d ∧ outcome = .error err := by
  cases outcome with
  | ok s' =>
    cases r with
    | ok e' d' =>
      obtain ⟨rfl, hd'⟩ := h
      exact .inl ⟨d', s', rfl, rfl, hd'⟩
    | error err' d' => exact h.elim
  | error err =>
    cases r with
    | ok e' d' => exact h.elim
    | error err' d' =>
      obtain ⟨rfl, rfl⟩ := h
      exact .inr ⟨err, rfl, rfl⟩

/-- A further entry is kept and listed as soon as the directory above it is there. -/
theorem Tables.Agrees.keepListed {r : EStateM.Result TableError Tables Entry} {e : Entry}
    (h : d.Agrees r (s.afterAddition e (s.addDirectoryAt l))) (hs : s.IsTree)
    (hl : ∀ x ∈ name :: l, IsName x) (hfree : s.kind? (name :: l) = none) (k : Kind) :
    d.Agrees (Tables.keepListed l.text (Location.text (name :: l)) k r)
      (s.afterAddition (Node.entry ⟨name :: l, k⟩)
        ((s.addDirectoryAt l).map (·.push ⟨name :: l, k⟩))) := by
  rcases h.cases with ⟨d', s', rfl, hadd, hd'⟩ | ⟨err, rfl, hadd⟩
  · have hparent : ∀ x ∈ l, IsName x := fun x hx => hl x (List.mem_cons_of_mem name hx)
    obtain ⟨hs', -, hdir, -⟩ := hs.addDirectoryAt hparent hadd
    obtain ⟨d'', hrun, hd''⟩ := hd'.keepListed hs' hl
      (Namespace.kind?_cons_of_addDirectoryAt hadd hfree) hdir k e
    rw [hrun, hadd]
    exact ⟨rfl, hd''⟩
  · rw [hadd]
    exact ⟨rfl, rfl⟩

/-- A directory at a free place is added behind those above it. -/
theorem Namespace.addDirectoryAt_cons_of_none (h : s.kind? (name :: l) = none) :
    s.addDirectoryAt (name :: l) =
      (s.addDirectoryAt l).map (·.push ⟨name :: l, .directory⟩) := by
  rw [Namespace.addDirectoryAt, Namespace.addDirectoryAt, Namespace.obstacle?,
    Namespace.withDirectory, h]
  cases s.obstacle? l <;> rfl

section

variable (hd : d.Keeps s) (hs : s.IsTree) (hcwd : ∀ x ∈ s.cwd, IsName x)
include hd hs hcwd

/-- **A directory is kept in tables** as it is made in the namespace. -/
theorem Tables.Keeps.storeDirectoryAt (hl : ∀ x ∈ l, IsName x) :
    d.Agrees ((storeDirectoryAt l.text).run d) ((makeDirectoryAt l).run s) := by
  rw [run_makeDirectoryAt]
  induction l with
  | nil =>
    rw [run_storeDirectoryAt_eq]
    simp only [hd.text_mem_files hl, hd.text_mem_listings hl, s.kind?_nil]
    exact ⟨rfl, hd⟩
  | cons name l ih =>
    have hparent : ∀ x ∈ l, IsName x := fun x hx => hl x (List.mem_cons_of_mem name hx)
    rw [run_storeDirectoryAt_eq]
    simp only [hd.text_mem_files hl, hd.text_mem_listings hl]
    cases hk : s.kind? (name :: l) with
    | some k =>
      rw [Namespace.addDirectoryAt, Namespace.obstacle?, Namespace.withDirectory, hk]
      cases k with
      | directory => exact ⟨rfl, hd⟩
      | file => exact ⟨rfl, rfl⟩
    | none =>
      -- the directory above is kept first, by a run on a shorter path
      rw [if_neg (by simp), if_neg (by simp), dirName_text hl, hd.normalize_text hcwd hparent,
        if_pos (length_text_lt hl), Namespace.addDirectoryAt_cons_of_none hk]
      exact (ih hparent).keepListed hs hl hk .directory

/-- **So it is at a path.** -/
theorem Tables.Keeps.storeDirectory (path : Text) :
    d.Agrees ((storeDirectory path).run d) ((makeDirectory path).run s) := by
  show d.Agrees ((PathGlob.storeDirectoryAt (d.normalize path)).run d)
    ((makeDirectoryAt (s.locate path)).run s)
  rw [hd.normalize hcwd]
  exact hd.storeDirectoryAt hs hcwd (locateFrom_isName hcwd path)

/-- **A file is kept in tables** as it is made in the namespace. -/
theorem Tables.Keeps.storeFile (path : Text) :
    d.Agrees ((storeFile path).run d) ((makeFile path).run s) := by
  have hl : ∀ x ∈ s.locate path, IsName x := locateFrom_isName hcwd path
  rw [run_storeFile_eq, run_makeFile, hd.normalize hcwd, Namespace.normalize, Namespace.addFile]
  obtain ⟨l, hplace⟩ : ∃ l, s.locate path = l := ⟨_, rfl⟩
  rw [hplace] at hl ⊢
  rw [Namespace.addFileAt, hd.files l hl, Namespace.fileAt?]
  simp only [hd.text_mem_listings hl]
  cases hk : s.kind? l with
  | some k =>
    cases k with
    | directory => exact ⟨rfl, rfl⟩
    | file => exact ⟨rfl, hd⟩
  | none =>
    cases l with
    | nil => simp at hk  -- the root is a directory
    | cons name l =>
      have hparent : ∀ x ∈ l, IsName x := fun x hx => hl x (List.mem_cons_of_mem name hx)
      have habove := hd.storeDirectoryAt hs hcwd hparent
      rw [run_makeDirectoryAt] at habove
      rw [dirName_text hl, List.tail_cons]
      show d.Agrees (Tables.keepListed (Location.text l) (Location.text (name :: l)) .file
        ((PathGlob.storeDirectoryAt (d.normalize (Location.text l))).run d)) _
      rw [hd.normalize_text hcwd hparent]
      exact habove.keepListed hs hl hk .file

end

/-! ## Answers -/

/-- The entry of a node is the one at its path. -/
theorem Tables.Keeps.entry_location (hd : d.Keeps s) (hs : s.IsTree) {n : Node} (hn : n ∈ s.nodes) :
    d.entry n.location.text = n.entry := by
  rw [Tables.entry, hd.files n.location (hs.isName n hn), Namespace.fileAt?, hs.kind?_location hn]
  obtain ⟨l, k⟩ := n
  cases k <;> rfl

/-- The entries of what a directory lists are its children. -/
theorem Tables.Keeps.map_entry_listedAt (hd : d.Keeps s) (hs : s.IsTree) (l : Location) :
    (s.listedAt l).map d.entry = s.childrenAt l := by
  rw [Namespace.listedAt, Namespace.childrenAt, List.map_map, List.map_map]
  exact List.map_congr_left fun n hn => hd.entry_location hs (List.mem_of_mem_filter hn)

/-- **What is found in tables is what is found in the namespace that they keep.** -/
theorem Tables.Keeps.provider_eq (hd : d.Keeps s) (hs : s.IsTree) (hcwd : ∀ x ∈ s.cwd, IsName x) :
    d.provider = s.provider := by
  have hplaces : ∀ path, ∀ x ∈ s.locate path, IsName x := locateFrom_isName hcwd
  unfold Tables.provider Namespace.provider
  congr 1
  case e_findDirectory =>
    funext path
    simp only [hd.normalize hcwd, Namespace.normalize, hd.text_mem_listings (hplaces path)]
    rfl
  case e_findFile =>
    funext path
    rw [hd.normalize hcwd, Namespace.normalize, hd.files _ (hplaces path)]
  case e_children =>
    funext path
    rw [hd.normalize hcwd, Namespace.normalize, hd.listings _ (hplaces path)]
    split
    · exact hd.map_entry_listedAt hs _
    · rename_i hother
      exact (hs.childrenAt_eq_nil hother).symm

end PathGlob
