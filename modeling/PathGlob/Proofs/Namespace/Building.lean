import Mathlib.Data.List.Induction
import Mathlib.Data.List.Nodup
import Mathlib.Data.List.Perm.Basic
import PathGlob.Proofs.Namespace.CanonicalPaths
import PathGlob.Proofs.Namespace.Growth

/-! # What paths demand
A list of paths determines what a namespace built from it has where, and whether it can be built at
all; the order of the paths has no part in either.

* **`Namespace.IsTree.kind?_addDirectoryAt`**, **`Namespace.IsTree.kind?_addFileAt`** — what is where
  behind an addition that succeeds.
* **`Demands`** — what a list of paths demands to be at a place.
* **`Namespace.Meets`** — a namespace has what is demanded and nothing else;
  **`Namespace.Meets.addPath`** says how a further path changes that.
* **`Namespace.ofPaths_cases`** — a list of paths leads to such a namespace, or else it demands a file
  and a directory at one place.
* **`Namespace.IsTree.nodes_perm`** — what is where determines the nodes up to their order.
* **`Namespace.listing`** — the paths of all nodes; **`Namespace.IsTree.ofPaths_listing`** says that a
  tree is built from them. -/

namespace PathGlob

variable {s s' : Namespace} {start l l' : Location} {k : Kind} {path : Text} {paths : List Text}

/-! ## Additions that succeed -/

/-- Above a directory there are directories. -/
theorem Namespace.IsTree.isDirectory_of_suffix (hs : s.IsTree) (hk : s.kind? l = some .directory)
    (h : l' <:+ l) : s.kind? l' = some .directory := by
  obtain ⟨names, rfl⟩ := h
  by_contra hne
  cases names with
  | nil => exact hne hk
  | cons name names =>
    rw [hs.kind?_eq_none_below hne (List.cons_ne_nil name names)] at hk
    cases hk

/-- **A directory is added**: there are the directories on the way to it, and what was there. -/
theorem Namespace.IsTree.kind?_addDirectoryAt (hs : s.IsTree) (hl : ∀ x ∈ l, IsName x)
    (h : s.addDirectoryAt l = .ok s') :
    s'.kind? l' = some k ↔ s.kind? l' = some k ∨ k = .directory ∧ l' <:+ l := by
  obtain ⟨htree, -, hdir, hkeep⟩ := hs.addDirectoryAt hl h
  constructor
  · intro hk
    unfold Namespace.addDirectoryAt at h
    split at h
    · cases h
    · cases h
      have hsome : ((s.withDirectory l).kind? l').isSome := by rw [hk]; rfl
      rcases Namespace.suffix_of_kind?_withDirectory hsome with hold | hsuffix
      · obtain ⟨k', hk'⟩ := Option.isSome_iff_exists.1 hold
        left
        rw [hk', ← hkeep l' k' hk', hk]
      · right
        rw [htree.isDirectory_of_suffix hdir hsuffix] at hk
        exact ⟨(Option.some.inj hk).symm, hsuffix⟩
  · rintro (hk | ⟨rfl, hsuffix⟩)
    · exact hkeep l' k hk
    · exact htree.isDirectory_of_suffix hdir hsuffix

/-- **A file is added**: there is the file, there are the directories on the way to it, and what was
there. -/
theorem Namespace.IsTree.kind?_addFileAt (hs : s.IsTree) (hl : ∀ x ∈ l, IsName x)
    (h : s.addFileAt l = .ok s') :
    s'.kind? l' = some k ↔
      s.kind? l' = some k ∨ (k = .directory ∧ l' <:+ l.tail) ∨ (k = .file ∧ l' = l) := by
  cases l with
  | nil =>
    rw [Namespace.addFileAt, Namespace.kind?_nil] at h
    cases h
  | cons name l =>
    rw [List.tail_cons]
    cases hk : s.kind? (name :: l) with
    | none =>
      rw [Namespace.addFileAt, hk, List.tail_cons] at h
      cases hd : s.addDirectoryAt l with
      | error e =>
        rw [hd] at h
        cases h
      | ok s₁ =>
        rw [hd] at h
        cases h
        have hparent : ∀ x ∈ l, IsName x := fun x hx => hl x (List.mem_cons_of_mem name hx)
        have hfree := Namespace.kind?_cons_of_addDirectoryAt hd hk
        rw [Namespace.kind?_push, ← or_assoc, ← hs.kind?_addDirectoryAt hparent hd]
        by_cases heq : name :: l = l'
        · subst heq
          simp [hfree, eq_comm]
        · simp [heq, Ne.symm heq]
    | some k' =>
      cases k' with
      | directory =>
        rw [Namespace.addFileAt, hk] at h
        cases h
      | file =>
        rw [Namespace.addFileAt, hk] at h
        cases h
        have hdir := hs.parent_isDirectory (show (s.kind? (name :: l)).isSome by rw [hk]; rfl)
        constructor
        · exact .inl
        · rintro (hold | ⟨rfl, hsuffix⟩ | ⟨rfl, rfl⟩)
          · exact hold
          · exact hs.isDirectory_of_suffix hdir hsuffix
          · exact hk

/-! ## Additions that fail -/

/-- What keeps a place from being a directory is a file there or above it. -/
theorem Namespace.kind?_of_obstacle? {f : Location} (h : s.obstacle? l = some f) :
    f <:+ l ∧ s.kind? f = some .file := by
  induction l with
  | nil => cases h
  | cons name l ih =>
    unfold Namespace.obstacle? at h
    split at h
    · rename_i hk
      cases h
      exact ⟨List.suffix_refl _, hk⟩
    · cases h
    · exact ⟨(ih h).1.trans (List.suffix_cons name l), (ih h).2⟩

/-- A directory cannot be added where there is a file on the way. -/
theorem Namespace.exists_file_of_addDirectoryAt {e : NamespaceError}
    (h : s.addDirectoryAt l = .error e) : ∃ f, f <:+ l ∧ s.kind? f = some .file := by
  unfold Namespace.addDirectoryAt at h
  split at h
  · rename_i f ho
    exact ⟨f, Namespace.kind?_of_obstacle? ho⟩
  · cases h

/-- A file cannot be added where there is a directory, or a file on the way. -/
theorem Namespace.exists_obstacle_of_addFileAt {e : NamespaceError} (h : s.addFileAt l = .error e) :
    s.kind? l = some .directory ∨ ∃ f, f <:+ l.tail ∧ s.kind? f = some .file := by
  unfold Namespace.addFileAt at h
  split at h
  · rename_i hk
    exact .inl hk
  · cases h
  · cases hd : s.addDirectoryAt l.tail with
    | error e' => exact .inr (Namespace.exists_file_of_addDirectoryAt hd)
    | ok s₁ =>
      rw [hd] at h
      cases h

/-! ## Demands -/

/-- **What a path asks for**, if relative paths start at `start`. -/
inductive Asks (start : Location) (path : Text) : Kind → Location → Prop
  /-- A path with a slash at its end asks for the directories that lead to its place. -/
  | directory {l : Location} (hend : endsIn '/' path = true) (h : l <:+ locateFrom start path) :
    Asks start path .directory l
  /-- Another path asks for the directories above its place. -/
  | above {l : Location} (hend : endsIn '/' path = false) (h : l <:+ (locateFrom start path).tail) :
    Asks start path .directory l
  /-- It asks for a file at its place. -/
  | file (hend : endsIn '/' path = false) : Asks start path .file (locateFrom start path)

/-- **What a list of paths demands to be at a place**, if relative paths start at `start`: the
directories that lead to `start`, and what each of the paths asks for. -/
def Demands (start : Location) (paths : List Text) (k : Kind) (l : Location) : Prop :=
  (k = .directory ∧ l <:+ start) ∨ ∃ path ∈ paths, Asks start path k l

/-- The demands of a list and a further path. -/
theorem demands_append_singleton :
    Demands start (paths ++ [path]) k l ↔ Demands start paths k l ∨ Asks start path k l := by
  simp only [Demands, List.mem_append, List.mem_singleton, or_and_right, exists_or,
    exists_eq_left, or_assoc]

/-- A list demands all that a part of it demands. -/
theorem Demands.mono {paths' : List Text} (h : paths ⊆ paths') (hd : Demands start paths k l) :
    Demands start paths' k l :=
  hd.imp_right fun ⟨path, hmem, ha⟩ => ⟨path, h hmem, ha⟩

/-- **The order of the paths has no part in what they demand.** -/
theorem demands_congr_of_perm {paths' : List Text} (h : paths.Perm paths') :
    Demands start paths k l ↔ Demands start paths' k l :=
  ⟨.mono h.subset, .mono h.symm.subset⟩

/-- **Demands in conflict**: a file and a directory at one place. -/
def Conflicting (start : Location) (paths : List Text) : Prop :=
  ∃ l, Demands start paths .file l ∧ Demands start paths .directory l

/-! ## Building -/

/-- **A namespace has what is demanded**, and nothing else. -/
structure Namespace.Meets (s : Namespace) (start : Location) (paths : List Text) : Prop where
  /-- It is a tree. -/
  isTree : s.IsTree
  /-- Relative paths start in its current directory. -/
  cwd : s.cwd = start
  /-- Everywhere there is what is demanded. -/
  kind?_iff : ∀ k l, s.kind? l = some k ↔ Demands start paths k l

/-- What a namespace can meet is not in conflict. -/
theorem Namespace.Meets.not_conflicting (h : s.Meets start paths) : ¬Conflicting start paths := by
  rintro ⟨l, hfile, hdir⟩
  have hk := (h.kind?_iff .file l).2 hfile
  rw [(h.kind?_iff .directory l).2 hdir] at hk
  cases hk

/-- The places of paths have proper names. -/
theorem Namespace.Meets.isName_locate (h : s.Meets start paths) (path : Text) :
    ∀ x ∈ s.locate path, IsName x := by
  have hcwd : s.kind? s.cwd = some .directory :=
    (h.kind?_iff _ _).2 (.inl ⟨rfl, h.cwd ▸ List.suffix_refl _⟩)
  exact locateFrom_isName (h.isTree.isName_of_kind? hcwd) path

/-- **A further path that is added** is met, too. -/
theorem Namespace.Meets.addPath (h : s.Meets start paths) (hadd : s.addPath path = .ok s') :
    s'.Meets start (paths ++ [path]) := by
  have hnames := h.isName_locate path
  have hplace : s.locate path = locateFrom start path := by rw [← h.cwd]; rfl
  unfold Namespace.addPath at hadd
  split at hadd
  · rename_i hend
    unfold Namespace.addDirectory at hadd
    obtain ⟨htree, hcwd, -⟩ := h.isTree.addDirectoryAt hnames hadd
    refine ⟨htree, hcwd.trans h.cwd, fun k l => ?_⟩
    rw [h.isTree.kind?_addDirectoryAt hnames hadd, h.kind?_iff, demands_append_singleton, hplace]
    refine or_congr_right ⟨?_, ?_⟩
    · rintro ⟨rfl, hsuffix⟩
      exact .directory hend hsuffix
    · rintro (⟨-, hsuffix⟩ | ⟨hend', -⟩ | hend')
      · exact ⟨rfl, hsuffix⟩
      · rw [hend] at hend'
        cases hend'
      · rw [hend] at hend'
        cases hend'
  · rename_i hend
    rw [Bool.not_eq_true] at hend
    unfold Namespace.addFile at hadd
    obtain ⟨htree, hcwd, -⟩ := h.isTree.addFileAt hnames hadd
    refine ⟨htree, hcwd.trans h.cwd, fun k l => ?_⟩
    rw [h.isTree.kind?_addFileAt hnames hadd, h.kind?_iff, demands_append_singleton, hplace]
    refine or_congr_right ⟨?_, ?_⟩
    · rintro (⟨rfl, hsuffix⟩ | ⟨rfl, rfl⟩)
      · exact .above hend hsuffix
      · exact .file hend
    · rintro (⟨hend', -⟩ | ⟨-, hsuffix⟩ | -)
      · rw [hend] at hend'
        cases hend'
      · exact .inl ⟨rfl, hsuffix⟩
      · exact .inr ⟨rfl, rfl⟩

/-- **A further path that cannot be added** is in conflict with what is there. -/
theorem Namespace.Meets.conflicting (h : s.Meets start paths) {e : NamespaceError}
    (hadd : s.addPath path = .error e) : Conflicting start (paths ++ [path]) := by
  have hplace : s.locate path = locateFrom start path := by rw [← h.cwd]; rfl
  unfold Namespace.addPath at hadd
  simp only [Conflicting, demands_append_singleton, ← h.kind?_iff]
  split at hadd
  · rename_i hend
    obtain ⟨f, hsuffix, hf⟩ := Namespace.exists_file_of_addDirectoryAt hadd
    exact ⟨f, .inl hf, .inr (.directory hend (hplace ▸ hsuffix))⟩
  · rename_i hend
    rw [Bool.not_eq_true] at hend
    rcases Namespace.exists_obstacle_of_addFileAt hadd with hdir | ⟨f, hsuffix, hf⟩
    · exact ⟨_, .inr (.file hend), .inl (hplace ▸ hdir)⟩
    · exact ⟨f, .inl hf, .inr (.above hend (hplace ▸ hsuffix))⟩

/-- A new namespace has the directories that lead to its current one. -/
theorem Namespace.meets_create (cwd : Text) :
    (Namespace.create cwd).Meets (locateFrom rootLocation cwd) [] where
  isTree := (Namespace.isTree_create cwd).1
  cwd := Namespace.cwd_withDirectory _ _
  kind?_iff k l := by
    obtain ⟨htree, hcwd⟩ := Namespace.isTree_create cwd
    have hplace : (Namespace.create cwd).cwd = locateFrom rootLocation cwd :=
      Namespace.cwd_withDirectory _ _
    rw [hplace] at hcwd
    simp only [Demands, List.not_mem_nil, false_and, exists_false, or_false]
    constructor
    · intro hk
      have hsome : ((Namespace.create cwd).kind? l).isSome := by rw [hk]; rfl
      have hsuffix : l <:+ locateFrom rootLocation cwd := by
        rcases Namespace.suffix_of_kind?_withDirectory hsome with hnone | hsuffix
        · -- without nodes there is only the root
          cases l with
          | nil => exact List.nil_suffix
          | cons name l => simp [Namespace.kind?_cons] at hnone
        · exact hsuffix
      rw [htree.isDirectory_of_suffix hcwd hsuffix] at hk
      exact ⟨(Option.some.inj hk).symm, hsuffix⟩
    · rintro ⟨rfl, hsuffix⟩
      exact htree.isDirectory_of_suffix hcwd hsuffix

/-- **A list of paths leads to a namespace that meets its demands**, or else they are in conflict. -/
theorem Namespace.ofPaths_cases (cwd : Text) (paths : List Text) :
    (∃ s, Namespace.ofPaths cwd paths = .ok s ∧ s.Meets (locateFrom rootLocation cwd) paths) ∨
      (∃ e, Namespace.ofPaths cwd paths = .error e) ∧
        Conflicting (locateFrom rootLocation cwd) paths := by
  induction paths using List.reverseRecOn with
  | nil => exact .inl ⟨_, rfl, Namespace.meets_create cwd⟩
  | append_singleton paths path ih =>
    have hfold : Namespace.ofPaths cwd (paths ++ [path]) =
        Namespace.ofPaths cwd paths >>= fun s => s.addPath path := by
      rw [Namespace.ofPaths, List.foldlM_append]
      exact bind_congr fun s => bind_pure _
    rw [hfold]
    rcases ih with ⟨s, hs, hmeets⟩ | ⟨⟨e, he⟩, l, hfile, hdir⟩
    · rw [hs]
      cases hadd : s.addPath path with
      | ok s' => exact .inl ⟨s', hadd, hmeets.addPath hadd⟩
      | error e => exact .inr ⟨⟨e, hadd⟩, hmeets.conflicting hadd⟩
    · rw [he]
      have hsub : paths ⊆ paths ++ [path] := List.subset_append_left _ _
      exact .inr ⟨⟨e, rfl⟩, l, hfile.mono hsub, hdir.mono hsub⟩

/-! ## Nodes -/

/-- The nodes of a tree are what is at the places below the root. -/
theorem Namespace.IsTree.mem_nodes_iff (hs : s.IsTree) {n : Node} :
    n ∈ s.nodes ↔ n.location ≠ [] ∧ s.kind? n.location = some n.kind := by
  constructor
  · exact fun hn => ⟨hs.ne_root n hn, hs.kind?_location hn⟩
  · rintro ⟨hne, hk⟩
    obtain ⟨name, l, hloc⟩ := List.exists_cons_of_ne_nil hne
    have hsome : (s.kind? (name :: l)).isSome := by rw [← hloc, hk]; rfl
    obtain ⟨m, hm, hm'⟩ := Namespace.kind?_cons_isSome.1 hsome
    have hkind := hs.kind?_location hm
    rw [hm', ← hloc, hk] at hkind
    have heq : m = n := by
      cases m
      cases n
      simp_all
    exact heq ▸ hm

/-- **What is where determines the nodes up to their order.** -/
theorem Namespace.IsTree.nodes_perm (hs : s.IsTree) (hs' : s'.IsTree)
    (h : ∀ l, s.kind? l = s'.kind? l) : s.nodes.Perm s'.nodes := by
  rw [List.perm_ext_iff_of_nodup (.of_map _ hs.distinct) (.of_map _ hs'.distinct)]
  intro n
  rw [hs.mem_nodes_iff, hs'.mem_nodes_iff, h]

/-! ## Listings -/

/-- The path by which a node is added: that of its place, for a directory with a slash at its end. -/
def Node.addedPath (n : Node) : Text :=
  match n.kind with
  | .directory => n.location.text ++ ['/']
  | .file => n.location.text

/-- **The paths of all nodes**, each in the form by which it is added. -/
def Namespace.listing (s : Namespace) : List Text := s.nodes.map Node.addedPath

/-- The path of a node leads to its place. -/
theorem Namespace.IsTree.locateFrom_addedPath (hs : s.IsTree) {n : Node} (hn : n ∈ s.nodes) :
    locateFrom start n.addedPath = n.location := by
  have hplace := locateFrom_text start (hs.isName n hn)
  have hne : n.location.text ≠ [] := List.cons_ne_nil _ _
  unfold Node.addedPath
  split
  · rw [locateFrom_slash_end start hne, hplace]
  · exact hplace

/-- It has a slash at its end for a directory only. -/
theorem Namespace.IsTree.endsIn_addedPath (hs : s.IsTree) {n : Node} (hn : n ∈ s.nodes) :
    endsIn '/' n.addedPath = true ↔ n.kind = .directory := by
  unfold Node.addedPath
  split
  · rename_i hk
    simp [hk, endsIn]
  · rename_i hk
    obtain ⟨name, l, hloc⟩ := List.exists_cons_of_ne_nil (hs.ne_root n hn)
    have hname : IsName name := hs.isName n hn name (hloc ▸ List.mem_cons_self)
    simp [hk, hloc, endsIn_text_cons hname l]

/-- **The path of a node asks for what is there already.** -/
theorem Namespace.IsTree.kind?_of_asks (hs : s.IsTree) {n : Node} (hn : n ∈ s.nodes)
    (h : Asks start n.addedPath k l) : s.kind? l = some k := by
  have hplace : locateFrom start n.addedPath = n.location := hs.locateFrom_addedPath hn
  have hkind := hs.kind?_location hn
  cases h with
  | directory hend h =>
    rw [hplace] at h
    rw [(hs.endsIn_addedPath hn).1 hend] at hkind
    exact hs.isDirectory_of_suffix hkind h
  | above hend h =>
    rw [hplace] at h
    exact hs.isDirectory_of_suffix (hs.parent n hn) h
  | file hend =>
    have hfile : n.kind = .file := by
      cases hk : n.kind with
      | directory =>
        rw [(hs.endsIn_addedPath hn).2 hk] at hend
        cases hend
      | file => rfl
    rw [hplace, hkind, hfile]

/-- **It asks for the node.** -/
theorem Namespace.IsTree.asks_addedPath (hs : s.IsTree) {n : Node} (hn : n ∈ s.nodes)
    (start : Location) : Asks start n.addedPath n.kind n.location := by
  have hplace : locateFrom start n.addedPath = n.location := hs.locateFrom_addedPath hn
  cases hk : n.kind with
  | directory =>
    exact .directory ((hs.endsIn_addedPath hn).2 hk) (hplace ▸ List.suffix_refl _)
  | file =>
    have hend : endsIn '/' n.addedPath = false := by
      rw [Bool.eq_false_iff, Ne, hs.endsIn_addedPath hn, hk]
      simp
    exact hplace ▸ .file hend

/-- **The listing of a tree demands what is in the tree.** -/
theorem Namespace.IsTree.demands_listing_iff (hs : s.IsTree) :
    Demands rootLocation s.listing k l ↔ s.kind? l = some k := by
  constructor
  · rintro (⟨rfl, h⟩ | ⟨path, hpath, hasks⟩)
    · rw [List.suffix_nil.1 h, Namespace.kind?_nil]
    · obtain ⟨n, hn, rfl⟩ := List.mem_map.1 hpath
      exact hs.kind?_of_asks hn hasks
  · intro hk
    by_cases hl : l = []
    · subst hl
      rw [Namespace.kind?_nil] at hk
      exact .inl ⟨(Option.some.inj hk).symm, List.suffix_refl _⟩
    · have hn : (⟨l, k⟩ : Node) ∈ s.nodes := hs.mem_nodes_iff.2 ⟨hl, hk⟩
      exact .inr ⟨_, List.mem_map_of_mem hn, hs.asks_addedPath hn _⟩

/-- **A tree is built from its listing.** -/
theorem Namespace.IsTree.ofPaths_listing (hs : s.IsTree) :
    ∃ t, Namespace.ofPaths ['/'] s.listing = .ok t ∧ ∀ l, t.kind? l = s.kind? l := by
  rcases Namespace.ofPaths_cases ['/'] s.listing with ⟨t, ht, hmeets⟩ | ⟨-, l, hfile, hdir⟩
  · exact ⟨t, ht, fun l => Option.ext fun k => (hmeets.kind?_iff k l).trans hs.demands_listing_iff⟩
  · have hk := hs.demands_listing_iff.1 hfile
    rw [hs.demands_listing_iff.1 hdir] at hk
    cases hk

end PathGlob
