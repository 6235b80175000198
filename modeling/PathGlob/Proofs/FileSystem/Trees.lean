import PathGlob.Proofs.FileSystem.Resolution
import PathGlob.Proofs.Namespace.Building
import PathGlob.Proofs.Segments

/-! # Trees in a file system
A tree of directories and regular files can be held by a file system, below its current directory. There
are no links then, and a relative path means the same to the file system as to a namespace with the
same tree.

* **`FileSystem.HasTree`**, **`FileSystem.Holds`** — a file system has a tree, and it holds it if what is
  there can be looked up.
* **`IsBelow`** — paths that lead from the current directory downwards; **`placeOf`** is where they
  lead.
* **`FileSystem.Holds.find_eq`** — what is found at such a path.
* **`FileSystem.Holds.map_entryName_children`** — the names that are listed.
* **`Namespace.IsTree.holds_onDisk`** — a tree with short names and paths is held by some file system. -/

namespace PathGlob

variable {s : FileSystem} {tree : Namespace} {l m : Location} {path name x : Text}
  {names xs : List Text} {links : Nat}

/-! ## Trees -/

/-- What a directory or file of a namespace is in a file system. -/
def Kind.fileKind : Kind → FileKind
  | .directory => .directory
  | .file => .file

/-- The path of a place below the current directory. -/
def Location.relativeText : Location → Text
  | [] => currentDirectory
  | l => joinWith ['/'] l.reverse

theorem Location.relativeText_eq {l : Location} (h : l ≠ []) :
    l.relativeText = joinWith ['/'] l.reverse := by
  cases l with
  | nil => exact absurd rfl h
  | cons name l => rfl

/-- The path of a place as a walk from the current directory has it. -/
def Location.walkedText (l : Location) : Text := joinWith ['/'] (currentDirectory :: l.reverse)

/-- **A file system has a tree** below its current directory, and its names are ones that a file system
can have. -/
structure FileSystem.HasTree (s : FileSystem) (tree : Namespace) : Prop where
  /-- Below the current directory there is what is in the tree. -/
  kind? (l : Location) : s.kind? (l ++ s.cwd) = (tree.kind? l).map Kind.fileKind
  /-- There is one node at a place. -/
  distinct : (s.nodes.map FileNode.location).Nodup
  /-- Names are short, and without the character that no path has. -/
  names (l : Location) : (tree.kind? l).isSome → ∀ name ∈ l, nul ∉ name ∧ byteLength name ≤ nameLimit

/-- **A file system holds a tree**: it has the tree, and what is in it can be looked up. -/
structure FileSystem.Holds (s : FileSystem) (tree : Namespace) : Prop extends s.HasTree tree where
  /-- What is there can be looked up. -/
  answers (l : Location) : (tree.kind? l).isSome → ∃ r, s.stat l.relativeText = .ok r

/-! ## Paths downwards -/

/-- A piece of a path that is no reference to a parent. -/
def IsDownward (x : Text) : Prop := x = [] ∨ x = ['.'] ∨ IsName x

/-- **A path that leads downwards** from the current directory: it is not absolute and never refers to
a parent. -/
structure IsBelow (path : Text) : Prop where
  /-- It does not begin with a separator. -/
  relative : beginsWith ['/'] path = false
  /-- No piece is a reference to a parent. -/
  isDownward : ∀ x ∈ pieces '/' path, IsDownward x

/-- The place that a path downwards leads to. -/
def placeOf (path : Text) : Location := (plainNames path).reverse

/-- Such a piece has no separator. -/
theorem IsDownward.slash_not_mem (h : IsDownward x) : '/' ∉ x := by
  rcases h with rfl | rfl | h
  · exact List.not_mem_nil
  · decide
  · exact h.slash_not_mem

/-- **It is passed over, or it leads to a child.** -/
theorem IsDownward.step_cases (h : IsDownward x) (l : Location) :
    (x = [] ∨ x = ['.']) ∧ stepInto l x = l ∨ IsName x ∧ stepInto l x = x :: l := by
  rcases h with hempty | hdot | hname
  · exact .inl ⟨.inl hempty, if_pos (.inl hempty)⟩
  · exact .inl ⟨.inr hdot, if_pos (.inr hdot)⟩
  · exact .inr ⟨hname, stepInto_of_isName hname l⟩

/-- The names of a path downwards are proper ones. -/
theorem IsBelow.isName (h : IsBelow path) (hname : name ∈ plainNames path) : IsName name := by
  obtain ⟨hpiece, hne, hdot⟩ := mem_plainNames_iff.1 hname
  exact ((h.isDownward name hpiece).resolve_left hne).resolve_left hdot

/-- So are those of its place. -/
theorem IsBelow.isName_placeOf (h : IsBelow path) : ∀ name ∈ placeOf path, IsName name :=
  fun _ hname => h.isName (List.mem_reverse.1 hname)

/-- **Joined pieces are a path downwards**, unless the first one of several is empty. -/
theorem isBelow_joinWith (hxs : ∀ x ∈ xs, IsDownward x) (hfirst : xs.head? = some [] → xs = [[]]) :
    IsBelow (joinWith ['/'] xs) := by
  cases xs with
  | nil => exact ⟨rfl, fun x hx => .inl (List.mem_singleton.1 hx)⟩
  | cons x xs =>
    constructor
    · cases x with
      | nil =>
        rw [hfirst rfl]
        rfl
      | cons c r =>
        have hc : '/' ≠ c := fun he => (hxs _ List.mem_cons_self).slash_not_mem (he ▸ List.mem_cons_self)
        obtain ⟨tail, htail⟩ := exists_joinWith_cons (c := '/') (c :: r) xs
        rw [htail]
        simp [beginsWith, List.isPrefixOf, hc]
    · rw [pieces_joinWith (by simp) fun y hy => (hxs y hy).slash_not_mem]
      exact hxs

/-- Its names are the pieces that are names. -/
theorem plainNames_joinWith (hxs : ∀ x ∈ xs, IsDownward x) :
    plainNames (joinWith ['/'] xs) = xs.filter fun x => x ≠ [] && x ≠ ['.'] := by
  by_cases hne : xs = []
  · rw [hne]
    rfl
  · rw [plainNames, pieces_joinWith hne fun y hy => (hxs y hy).slash_not_mem]

/-- All of names joined are names. -/
theorem filter_of_isName (h : ∀ name ∈ names, IsName name) :
    names.filter (fun x => x ≠ [] && x ≠ ['.']) = names := by
  refine List.filter_eq_self.2 fun name hname => ?_
  obtain ⟨hne, hdot, -⟩ := isName_iff.1 (h name hname)
  simp [hne, hdot]

/-- **The plain form of a path downwards** is the path of its place. -/
theorem IsBelow.plainPath_eq (h : IsBelow path) : plainPath path = (placeOf path).relativeText := by
  by_cases hnil : plainNames path = []
  · rw [PathGlob.plainPath, pathAnchor_of_relative h.relative, placeOf, hnil]
    rfl
  · rw [PathGlob.plainPath_eq hnil, pathAnchor_of_relative h.relative, List.nil_append]
    unfold Location.relativeText placeOf
    split
    · rename_i hrev
      exact absurd (List.reverse_eq_nil_iff.1 hrev) hnil
    · rw [List.reverse_reverse]

/-- The path of a place is a path downwards. -/
theorem isBelow_relativeText (h : ∀ name ∈ l, IsName name) : IsBelow l.relativeText := by
  unfold Location.relativeText
  split
  · exact ⟨rfl, fun x hx => .inr (.inl (List.mem_singleton.1 hx))⟩
  · have hnames : ∀ name ∈ l.reverse, IsName name := fun name hname => h name (List.mem_reverse.1 hname)
    refine isBelow_joinWith (fun x hx => .inr (.inr (hnames x hx))) fun hempty => ?_
    exact absurd rfl (hnames [] (List.mem_of_mem_head? hempty)).ne_nil

/-- The path of a place leads to the place. -/
theorem placeOf_relativeText (h : ∀ name ∈ l, IsName name) : placeOf l.relativeText = l := by
  unfold Location.relativeText
  split
  · rfl
  · have hnames : ∀ name ∈ l.reverse, IsName name := fun name hname => h name (List.mem_reverse.1 hname)
    rw [placeOf, plainNames_joinWith fun x hx => .inr (.inr (hnames x hx)), filter_of_isName hnames,
      List.reverse_reverse]

/-- It is not the empty path, -/
theorem relativeText_ne_nil (h : ∀ name ∈ l, IsName name) : l.relativeText ≠ [] := by
  rw [← placeOf_relativeText h, ← (isBelow_relativeText h).plainPath_eq]
  exact plainPath_ne_nil _

/-- and neither is that of a walk. -/
theorem walkedText_ne_nil (l : Location) : l.walkedText ≠ [] := by
  obtain ⟨tail, htail⟩ := exists_joinWith_cons (c := '/') currentDirectory l.reverse
  rw [Location.walkedText, htail]
  exact List.cons_ne_nil _ _

/-- The pieces of the path of a place in a walk. -/
theorem isDownward_of_mem_walked (h : ∀ name ∈ l, IsName name) :
    ∀ x ∈ currentDirectory :: l.reverse, IsDownward x :=
  List.forall_mem_cons.2 ⟨.inr (.inl rfl), fun x hx => .inr (.inr (h x (List.mem_reverse.1 hx)))⟩

/-- The path of a place in a walk is a path downwards, too, -/
theorem isBelow_walkedText (h : ∀ name ∈ l, IsName name) : IsBelow l.walkedText :=
  isBelow_joinWith (isDownward_of_mem_walked h) (by simp [currentDirectory])

/-- and it leads to the place. -/
theorem placeOf_walkedText (h : ∀ name ∈ l, IsName name) : placeOf l.walkedText = l := by
  rw [Location.walkedText, placeOf, plainNames_joinWith (isDownward_of_mem_walked h),
    List.filter_cons_of_neg (by simp [currentDirectory]),
    filter_of_isName fun x hx => h x (List.mem_reverse.1 hx), List.reverse_reverse]

/-- Pieces that are no references to parents are followed name by name. -/
theorem follow_of_isDownward (hxs : ∀ x ∈ xs, IsDownward x) (l : Location) :
    follow l xs = (xs.filter fun x => x ≠ [] && x ≠ ['.']).reverse ++ l := by
  induction xs generalizing l with
  | nil => rfl
  | cons x xs ih =>
    obtain ⟨hx, hxs⟩ := List.forall_mem_cons.1 hxs
    rw [follow_cons, ih hxs]
    rcases hx with rfl | rfl | hx
    · simp
    · simp [stepInto]
    · obtain ⟨hne, hdot, -⟩ := isName_iff.1 hx
      simp [stepInto_of_isName hx, hne, hdot]

/-- A path downwards leads a namespace to its place. -/
theorem IsBelow.locate_eq (h : IsBelow path) {t : Namespace} (ht : t.cwd = []) :
    t.locate path = placeOf path := by
  have hback : '\\' ∉ path := by
    intro hmem
    obtain ⟨name, hname, hc⟩ := exists_mem_plainNames hmem (by decide) (by decide)
    exact (h.isName hname).backslash_not_mem hc
  rw [Namespace.locate, locateFrom_eq, originOf, withSlashes_of_not_mem hback, h.relative, ht,
    if_neg (by simp), follow_of_isDownward h.isDownward, List.append_nil]
  rfl

/-! ## Looking up -/

/-- When a path is looked up without trouble. -/
theorem FileSystem.stat_eq_ok_iff {r : Location × Bool} :
    s.stat path = .ok r ↔ byteLength path ≤ pathLimit ∧ path ≠ [] ∧
      s.resolve linkLimit (startOf path s.cwd) (pieces '/' path) = .ok r := by
  unfold FileSystem.stat
  split
  · rename_i hlong
    simp [Nat.not_le.2 hlong]
  · rename_i hshort
    split
    · rename_i hempty
      simp [List.isEmpty_iff.1 hempty]
    · rename_i hne
      rw [List.isEmpty_iff] at hne
      simp [Nat.not_lt.1 hshort, hne]

/-- A name that leads to something in the tree is resolved as what is there. -/
theorem FileSystem.HasTree.resolve_name (hs : s.HasTree tree) (hx : IsName x) {k : Kind}
    (hk : tree.kind? (x :: l) = some k) (xs : List Text) :
    s.resolve links (l ++ s.cwd) (x :: xs) =
      if k = .directory then s.resolve links (x :: l ++ s.cwd) xs
      else if xs.isEmpty then .ok (x :: l ++ s.cwd, false) else .error .notDirectory := by
  have hshort := (hs.names (x :: l) (by rw [hk]; rfl) x List.mem_cons_self).2
  rw [FileSystem.resolve_name hx.1, if_neg (Nat.not_lt.2 hshort), ← List.cons_append, hs.kind?, hk]
  cases k <;> rfl

/-- A name that leads to nothing in the tree is not resolved. -/
theorem FileSystem.HasTree.resolve_ne_ok (hs : s.HasTree tree) (hx : IsName x)
    (hk : tree.kind? (x :: l) = none) (xs : List Text) (r : Location × Bool) :
    s.resolve links (l ++ s.cwd) (x :: xs) ≠ .ok r := by
  rw [FileSystem.resolve_name hx.1, ← List.cons_append, hs.kind?, hk]
  split
  · exact nofun
  · exact nofun

/-- What is resolved from a place of the tree leads to a place of the tree. -/
theorem FileSystem.HasTree.of_resolve {b : Bool} (hs : s.HasTree tree)
    (hl : tree.kind? l = some .directory) (hxs : ∀ x ∈ xs, IsDownward x)
    (h : s.resolve links (l ++ s.cwd) xs = .ok (m, b)) :
    m = follow l xs ++ s.cwd ∧
      tree.kind? (follow l xs) = some (if b then .directory else .file) := by
  induction xs generalizing l with
  | nil =>
    rw [FileSystem.resolve_nil] at h
    cases h
    exact ⟨rfl, hl⟩
  | cons x xs ih =>
    obtain ⟨hx, hxs⟩ := List.forall_mem_cons.1 hxs
    rw [follow_cons]
    rcases hx.step_cases l with ⟨hplain, hstep⟩ | ⟨hname, hstep⟩ <;> rw [hstep]
    · rw [FileSystem.resolve_plain hplain] at h
      exact ih hl hxs h
    · cases hk : tree.kind? (x :: l) with
      | none => exact absurd h (hs.resolve_ne_ok hname hk xs _)
      | some k =>
        rw [hs.resolve_name hname hk] at h
        cases k with
        | directory => exact ih hk hxs h
        | file =>
          -- behind a file there is nothing more to resolve
          rw [if_neg nofun] at h
          split at h
          · rename_i hempty
            cases h
            rw [List.isEmpty_iff.1 hempty]
            exact ⟨rfl, hk⟩
          · cases h

/-- A directory of the tree is reached by all pieces that lead there. -/
theorem FileSystem.HasTree.resolve_directory (hs : s.HasTree tree) (htree : tree.IsTree) (links : Nat)
    (hxs : ∀ x ∈ xs, IsDownward x) (h : tree.kind? (follow l xs) = some .directory) :
    s.resolve links (l ++ s.cwd) xs = .ok (follow l xs ++ s.cwd, true) := by
  induction xs generalizing l with
  | nil => exact FileSystem.resolve_nil s links _
  | cons x xs ih =>
    obtain ⟨hx, hxs⟩ := List.forall_mem_cons.1 hxs
    rw [follow_cons] at h ⊢
    rcases hx.step_cases l with ⟨hplain, hstep⟩ | ⟨hname, hstep⟩ <;> rw [hstep] at h ⊢
    · rw [FileSystem.resolve_plain hplain]
      exact ih hxs h
    · -- above a directory there are directories
      have hdir : tree.kind? (x :: l) = some .directory :=
        htree.isDirectory_of_suffix h ⟨_, (follow_of_isDownward hxs (x :: l)).symm⟩
      rw [hs.resolve_name hname hdir, if_pos rfl]
      exact ih hxs h

/-- A path downwards starts in the current directory. -/
theorem IsBelow.startOf_eq (h : IsBelow path) (cwd : Location) : startOf path cwd = cwd := by
  rw [startOf, h.relative, if_neg (by simp)]

/-- Following a path downwards leads to its place. -/
theorem IsBelow.follow_pieces (h : IsBelow path) : follow [] (pieces '/' path) = placeOf path := by
  rw [follow_of_isDownward h.isDownward, List.append_nil]
  rfl

/-- **What is looked up at a path downwards** is at its place in the tree. -/
theorem FileSystem.HasTree.of_stat {b : Bool} (hs : s.HasTree tree) (h : IsBelow path)
    (hstat : s.stat path = .ok (m, b)) :
    m = placeOf path ++ s.cwd ∧
      tree.kind? (placeOf path) = some (if b then .directory else .file) := by
  obtain ⟨-, -, hresolve⟩ := FileSystem.stat_eq_ok_iff.1 hstat
  rw [h.startOf_eq] at hresolve
  have hplace := hs.of_resolve tree.kind?_nil h.isDownward hresolve
  rwa [h.follow_pieces] at hplace

/-- The path of what is in the tree does not have the character that no path has. -/
theorem FileSystem.HasTree.contains_nul (hs : s.HasTree tree)
    (hk : (tree.kind? (placeOf path)).isSome) : path.contains nul = false := by
  rw [Bool.eq_false_iff]
  intro hnul
  obtain ⟨name, hname, hc⟩ := exists_mem_plainNames (List.contains_iff_mem.1 hnul) (by decide) (by decide)
  exact (hs.names _ hk name (List.mem_reverse.2 hname)).1 hc

/-- **What is found at a path downwards**: its plain form, if there is an entry of the wanted kind at its
place in the tree. -/
theorem FileSystem.Holds.find_eq (hs : s.Holds tree) (h : IsBelow path) (directory : Bool) :
    (s.find directory path).1 =
      if tree.kind? (placeOf path) = some (if directory then .directory else .file) then
        some (placeOf path).relativeText
      else none := by
  have hplain : IsBelow (placeOf path).relativeText := isBelow_relativeText h.isName_placeOf
  have hplace : placeOf (placeOf path).relativeText = placeOf path := placeOf_relativeText h.isName_placeOf
  unfold FileSystem.find
  split
  · rename_i hnul
    refine (if_neg fun hk => ?_).symm
    rw [hs.contains_nul (by rw [hk]; rfl)] at hnul
    cases hnul
  · rw [h.plainPath_eq]
    split
    · rename_i m b hstat
      obtain ⟨-, hk⟩ := hs.of_stat hplain hstat
      rw [hplace] at hk
      rw [hk]
      cases b <;> cases directory <;> simp
    · -- what is in the tree can be looked up
      rename_i trouble hstat
      refine (if_neg fun hk => ?_).symm
      obtain ⟨r, hr⟩ := hs.answers (placeOf path) (by rw [hk]; rfl)
      rw [hstat] at hr
      cases hr

/-! ## Listing -/

/-- The name that a node at a place has in a directory, if it is in it. -/
def nameIn (l : Location) : Location → Option Text
  | [] => none
  | name :: parent => if parent = l then some name else none

/-- A node has a name in a directory if its place is that of the name. -/
theorem nameIn_eq_some_iff : nameIn l m = some name ↔ m = name :: l := by
  cases m with
  | nil => simp [nameIn]
  | cons x parent =>
    by_cases hparent : parent = l <;> simp [nameIn, hparent]

/-- The names in a directory are read from the places of nodes. -/
theorem FileSystem.namesAt_eq (s : FileSystem) (l : Location) :
    s.namesAt l = (s.nodes.map FileNode.location).filterMap (nameIn l) := by
  rw [List.filterMap_map]
  refine List.filterMap_congr fun n _ => ?_
  show _ = nameIn l n.location
  cases n.location <;> rfl

/-- **The names in a directory are those that lead to something.** -/
theorem FileSystem.mem_namesAt_iff : name ∈ s.namesAt l ↔ (s.kind? (name :: l)).isSome := by
  have hkind : s.kind? (name :: l) = (s.nodes.find? (·.location == name :: l)).map FileNode.kind :=
    if_neg (List.cons_ne_nil name l)
  rw [hkind, Option.isSome_map, List.find?_isSome, FileSystem.namesAt_eq, List.mem_filterMap]
  simp [nameIn_eq_some_iff]

/-- **No name is listed twice**, as there is one node at a place. -/
theorem FileSystem.HasTree.nodup_namesAt (hs : s.HasTree tree) (l : Location) : (s.namesAt l).Nodup := by
  rw [FileSystem.namesAt_eq]
  refine hs.distinct.filterMap fun a b name ha hb => ?_
  rw [nameIn_eq_some_iff.1 ha, nameIn_eq_some_iff.1 hb]

/-- A name that is listed below the current directory is one of the tree. -/
theorem FileSystem.HasTree.mem_namesAt_iff (hs : s.HasTree tree) :
    name ∈ s.namesAt (l ++ s.cwd) ↔ (tree.kind? (name :: l)).isSome := by
  rw [FileSystem.mem_namesAt_iff, ← List.cons_append, hs.kind?, Option.isSome_map]

/-- **The names that are listed** are those of the tree, in any order. -/
theorem FileSystem.HasTree.namesAt_perm (hs : s.HasTree tree) (htree : tree.IsTree) (l : Location) :
    (tree.childNames l).Perm (s.namesAt (l ++ s.cwd)) := by
  rw [List.perm_ext_iff_of_nodup (htree.nodup_childNames l) (hs.nodup_namesAt _)]
  intro name
  rw [hs.mem_namesAt_iff, Namespace.mem_childNames_iff]

/-- The length of texts that are put together. -/
theorem byteLength_append (t u : Text) : byteLength (t ++ u) = byteLength t + byteLength u := by
  induction t with
  | nil => simp [byteLength]
  | cons c t ih =>
    rw [List.cons_append, byteLength, byteLength, ih]
    omega

/-- A text with characters has bytes. -/
theorem byteLength_pos {t : Text} (h : t ≠ []) : 0 < byteLength t := by
  cases t with
  | nil => exact absurd rfl h
  | cons c t =>
    have := c.utf8Size_pos
    rw [byteLength]
    omega

/-- The path of an entry is no shorter than that at which its directory is listed. -/
theorem byteLength_walkedText_le (l : Location) (hname : name ≠ []) :
    byteLength l.walkedText ≤ byteLength (Location.relativeText (name :: l)) := by
  have hpos := byteLength_pos hname
  have hdot : byteLength currentDirectory = 1 := rfl
  have hslash : ∀ t, byteLength ('/' :: t) = 1 + byteLength t := fun t => rfl
  unfold Location.walkedText
  by_cases hl : l = []
  · rw [hl, List.reverse_nil, joinWith_singleton, hdot]
    exact hpos
  · have hrev : l.reverse ≠ [] := by simpa using hl
    rw [joinWith_cons currentDirectory hrev, byteLength_append, hslash, hdot]
    show _ ≤ byteLength (joinWith ['/'] (name :: l).reverse)
    rw [List.reverse_cons, joinWith_append hrev (List.cons_ne_nil name []), byteLength_append, hslash,
      joinWith_singleton]
    omega

/-- Where there is no directory, nothing is listed. -/
theorem FileSystem.HasTree.namesAt_eq_nil (hs : s.HasTree tree) (htree : tree.IsTree)
    (h : tree.kind? l ≠ some .directory) : s.namesAt (l ++ s.cwd) = [] := by
  refine List.eq_nil_iff_forall_not_mem.2 fun name hname => h ?_
  exact htree.parent_isDirectory (hs.mem_namesAt_iff.1 hname)

/-- **A directory that cannot be listed has no children.** Only the length of its path can be the
trouble, and the paths of children would be no shorter. -/
theorem FileSystem.Holds.namesAt_eq_nil_of_trouble (hs : s.Holds tree) (htree : tree.IsTree)
    (hl : ∀ name ∈ l, IsName name) (hdir : tree.kind? l = some .directory) {trouble : Trouble}
    (h : s.stat l.walkedText = .error trouble) : s.namesAt (l ++ s.cwd) = [] := by
  have hbelow := isBelow_walkedText hl
  have hresolve := hs.resolve_directory htree linkLimit hbelow.isDownward
    (by rw [hbelow.follow_pieces, placeOf_walkedText hl]; exact hdir)
  have hlong : ¬byteLength l.walkedText ≤ pathLimit := by
    intro hshort
    have hok := FileSystem.stat_eq_ok_iff.2
      ⟨hshort, walkedText_ne_nil l, by rw [hbelow.startOf_eq]; exact hresolve⟩
    rw [h] at hok
    cases hok
  refine List.eq_nil_iff_forall_not_mem.2 fun name hname => hlong ?_
  have hsome := hs.mem_namesAt_iff.1 hname
  have hne := (htree.isName_of_isSome hsome name List.mem_cons_self).ne_nil
  obtain ⟨r, hr⟩ := hs.answers (name :: l) hsome
  exact (byteLength_walkedText_le l hne).trans (FileSystem.stat_eq_ok_iff.1 hr).1

/-- **The names that a file system lists** at the path of a place are the names there. -/
theorem FileSystem.Holds.map_entryName_children (hs : s.Holds tree) (htree : tree.IsTree)
    (hl : ∀ name ∈ l, IsName name) :
    (s.provider.children l.walkedText).map s.provider.entryName = s.namesAt (l ++ s.cwd) := by
  have hplace := placeOf_walkedText hl
  show (if l.walkedText.contains nul then [] else (s.childrenOf l.walkedText).1).map plainName = _
  unfold FileSystem.childrenOf
  cases hstat : s.stat l.walkedText with
  | ok r =>
    obtain ⟨m, b⟩ := r
    obtain ⟨rfl, hk⟩ := hs.of_stat (isBelow_walkedText hl) hstat
    rw [hs.contains_nul (by rw [hk]; rfl), if_neg (by simp)]
    rw [hplace] at hk ⊢
    cases b with
    | false =>
      rw [hs.namesAt_eq_nil htree (by rw [hk]; simp)]
      rfl
    | true =>
      dsimp only
      rw [List.map_map]
      refine (List.map_congr_left fun name hname => ?_).trans (List.map_id _)
      have hchild := htree.isName_of_isSome (hs.mem_namesAt_iff.1 hname) name List.mem_cons_self
      exact plainName_joinPath l.walkedText hchild.1
  | error trouble =>
    have hnone : s.namesAt (l ++ s.cwd) = [] := by
      by_cases hdir : tree.kind? l = some .directory
      · exact hs.namesAt_eq_nil_of_trouble htree hl hdir hstat
      · exact hs.namesAt_eq_nil htree hdir
    rw [hnone, ite_self, List.map_nil]

/-! ## File systems of trees -/

/-- A file of the tree is reached by the names that lead there. -/
theorem FileSystem.HasTree.resolve_file (hs : s.HasTree tree) (htree : tree.IsTree) (links : Nat)
    (hne : names ≠ []) (hnames : ∀ name ∈ names, IsName name)
    (h : tree.kind? (names.reverse ++ l) = some .file) :
    s.resolve links (l ++ s.cwd) names = .ok (names.reverse ++ (l ++ s.cwd), false) := by
  induction names generalizing l with
  | nil => exact absurd rfl hne
  | cons name rest ih =>
    obtain ⟨hname, hrest⟩ := List.forall_mem_cons.1 hnames
    rw [List.reverse_cons, List.append_assoc, List.singleton_append] at h ⊢
    by_cases hlast : rest = []
    · subst hlast
      rw [List.reverse_nil, List.nil_append] at h ⊢
      rw [hs.resolve_name hname h, if_neg nofun]
      rfl
    · -- above the file there are directories
      obtain ⟨last, front, hrev⟩ := List.exists_cons_of_ne_nil (mt List.reverse_eq_nil_iff.1 hlast)
      have hdir : tree.kind? (name :: l) = some .directory := by
        rw [hrev, List.cons_append] at h
        exact htree.isDirectory_of_suffix (htree.parent_isDirectory (by rw [h]; rfl))
          (List.suffix_append front (name :: l))
      rw [hs.resolve_name hname hdir, if_pos rfl]
      exact ih hlast hrest h

/-- **What is in the tree is resolved** from the path of its place. -/
theorem FileSystem.HasTree.exists_resolve_relativeText (hs : s.HasTree tree) (htree : tree.IsTree)
    (hl : (tree.kind? l).isSome) :
    ∃ r, s.resolve linkLimit s.cwd (pieces '/' l.relativeText) = .ok r := by
  have hnames := htree.isName_of_isSome hl
  have hbelow := isBelow_relativeText hnames
  obtain ⟨k, hk⟩ := Option.isSome_iff_exists.1 hl
  cases k with
  | directory =>
    have hdir : tree.kind? (follow [] (pieces '/' l.relativeText)) = some .directory := by
      rw [hbelow.follow_pieces, placeOf_relativeText hnames, hk]
    exact ⟨_, hs.resolve_directory htree linkLimit hbelow.isDownward hdir⟩
  | file =>
    have hne : l.reverse ≠ [] := by
      rw [Ne, List.reverse_eq_nil_iff]
      rintro rfl
      rw [Namespace.kind?_nil] at hk
      cases hk
    have hrev : ∀ name ∈ l.reverse, IsName name := fun name h => hnames name (List.mem_reverse.1 h)
    rw [Location.relativeText_eq (mt List.reverse_eq_nil_iff.2 hne),
      pieces_joinWith hne fun x hx => (hrev x hx).slash_not_mem]
    have hfile : tree.kind? (l.reverse.reverse ++ []) = some .file := by
      rw [List.reverse_reverse, List.append_nil, hk]
    exact ⟨_, hs.resolve_file htree linkLimit hne hrev hfile⟩

/-- **Only long paths can keep what is there from being looked up.** -/
theorem FileSystem.HasTree.holds (hs : s.HasTree tree) (htree : tree.IsTree)
    (hshort : ∀ l, (tree.kind? l).isSome → byteLength l.relativeText ≤ pathLimit) : s.Holds tree where
  toHasTree := hs
  answers l hl := by
    have hnames := htree.isName_of_isSome hl
    have hbelow := isBelow_relativeText hnames
    obtain ⟨r, hr⟩ := hs.exists_resolve_relativeText htree hl
    exact ⟨r, FileSystem.stat_eq_ok_iff.2 ⟨hshort l hl, relativeText_ne_nil hnames,
      by rw [hbelow.startOf_eq]; exact hr⟩⟩

/-- **The file system of a tree**, in whose root the tree begins. -/
def Namespace.onDisk (tree : Namespace) : FileSystem :=
  ⟨tree.nodes.map fun n => ⟨n.location, n.kind.fileKind⟩, rootLocation⟩

/-- What is in a tree is its root or one of its nodes. -/
theorem Namespace.forall_isSome {P : Location → Prop} (hroot : P [])
    (hnodes : ∀ n ∈ tree.nodes, P n.location) : ∀ l, (tree.kind? l).isSome → P l := by
  intro l hl
  cases l with
  | nil => exact hroot
  | cons name l =>
    obtain ⟨n, hn, hlocation⟩ := Namespace.kind?_cons_isSome.1 hl
    exact hlocation ▸ hnodes n hn

/-- Such a file system has the tree, if its names are short. -/
theorem Namespace.IsTree.hasTree_onDisk (htree : tree.IsTree)
    (hnames : ∀ n ∈ tree.nodes, ∀ name ∈ n.location, nul ∉ name ∧ byteLength name ≤ nameLimit) :
    tree.onDisk.HasTree tree where
  kind? l := by
    have hcwd : tree.onDisk.cwd = [] := rfl
    rw [hcwd, List.append_nil, FileSystem.kind?, Namespace.kind?, Namespace.onDisk, List.find?_map,
      Option.map_map]
    split
    · rfl
    · rw [Option.map_map]
      rfl
  distinct := by
    rw [Namespace.onDisk, List.map_map]
    exact htree.distinct
  names := Namespace.forall_isSome (fun _ hname => absurd hname List.not_mem_nil) hnames

/-- **Every tree is held by a file system**, if its names and its paths are short. -/
theorem Namespace.IsTree.holds_onDisk (htree : tree.IsTree)
    (hnames : ∀ n ∈ tree.nodes, ∀ name ∈ n.location, nul ∉ name ∧ byteLength name ≤ nameLimit)
    (hpaths : ∀ n ∈ tree.nodes, byteLength n.location.relativeText ≤ pathLimit) :
    tree.onDisk.Holds tree :=
  (htree.hasTree_onDisk hnames).holds htree (Namespace.forall_isSome (by decide) hpaths)

end PathGlob
