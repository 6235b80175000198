import PathGlob.Proofs.Namespace.Paths

/-! # Namespaces as trees
Whatever is added to a namespace, it stays a tree: its places have proper names, no two nodes share
a place, and above every node there is a directory.

* **`Namespace.Reachable`** — the namespaces that come about by adding entries.
* **`Namespace.IsTree`** — the invariant; **`Namespace.Reachable.isTree`** says that it always holds.
* **`Namespace.childNames`** — the names in a directory; **`Namespace.mem_childNames_iff`** says
  which they are.
* **`Namespace.directoryInduction`** — induction from the directories directly below a place.
* **`Namespace.IsTree.kind?_eq_none_below`** — there is nothing below what is no directory. -/

namespace PathGlob

variable {s s' : Namespace} {l : Location}

/-- **The namespaces that come about** from an empty one by adding entries. An addition that fails
leaves the namespace as it is. -/
inductive Namespace.Reachable : Namespace → Prop
  /-- A new namespace. -/
  | create (cwd : Text) : Reachable (Namespace.create cwd)
  /-- A directory is added. -/
  | addDirectory {s s' : Namespace} {path : Text} (h : Reachable s)
    (hadd : s.addDirectory path = .ok s') : Reachable s'
  /-- A file is added. -/
  | addFile {s s' : Namespace} {path : Text} (h : Reachable s)
    (hadd : s.addFile path = .ok s') : Reachable s'

/-- **The nodes form a tree.** -/
structure Namespace.IsTree (s : Namespace) : Prop where
  /-- The places of nodes have proper names. -/
  isName : ∀ n ∈ s.nodes, ∀ name ∈ n.location, IsName name
  /-- The root has no node. -/
  ne_root : ∀ n ∈ s.nodes, n.location ≠ []
  /-- Above every node there is a directory. -/
  parent : ∀ n ∈ s.nodes, s.kind? n.location.tail = some .directory
  /-- No two nodes share a place. -/
  distinct : (s.nodes.map Node.location).Nodup

/-! ## What is at a place -/

@[simp] theorem Namespace.kind?_nil (s : Namespace) : s.kind? [] = some .directory :=
  s.kind?_root

/-- What is at a place below the root is what its node says. -/
theorem Namespace.kind?_cons (s : Namespace) (name : Text) (l : Location) :
    s.kind? (name :: l) = (s.nodes.find? (·.location == name :: l)).map Node.kind := by
  simp [Namespace.kind?, rootLocation]

/-- There is something at a place exactly if a node is there. -/
theorem Namespace.kind?_cons_isSome {name : Text} :
    (s.kind? (name :: l)).isSome ↔ ∃ n ∈ s.nodes, n.location = name :: l := by
  rw [Namespace.kind?_cons, Option.isSome_map, List.find?_isSome]
  simp

/-- The current directory has no part in what is where. -/
theorem Namespace.kind?_with_cwd (s : Namespace) (cwd l : Location) :
    ({ s with cwd := cwd } : Namespace).kind? l = s.kind? l := rfl

/-- A further node adds what it is at its place. -/
theorem Namespace.kind?_push (s : Namespace) (n : Node) (l : Location) :
    (s.push n).kind? l = (s.kind? l).or (if n.location = l then some n.kind else none) := by
  cases l with
  | nil => simp
  | cons name l =>
    rw [Namespace.kind?_cons, Namespace.kind?_cons]
    simp only [Namespace.push, List.find?_append, Option.map_or]
    by_cases h : n.location = name :: l <;> simp [h]

/-- What is at a place below something is nothing, unless that is a directory. -/
theorem Namespace.IsTree.parent_isDirectory (hs : s.IsTree) {name : Text}
    (h : (s.kind? (name :: l)).isSome) : s.kind? l = some .directory := by
  obtain ⟨n, hn, hloc⟩ := Namespace.kind?_cons_isSome.1 h
  have hp := hs.parent n hn
  rwa [hloc] at hp

/-- Places at which there is something have proper names. -/
theorem Namespace.IsTree.isName_of_isSome (hs : s.IsTree) (h : (s.kind? l).isSome) :
    ∀ name ∈ l, IsName name := by
  cases l with
  | nil => simp
  | cons name l =>
    obtain ⟨n, hn, hloc⟩ := Namespace.kind?_cons_isSome.1 h
    exact hloc ▸ hs.isName n hn

/-- So have places at which there is a directory or a file. -/
theorem Namespace.IsTree.isName_of_kind? {k : Kind} (hs : s.IsTree) (h : s.kind? l = some k) :
    ∀ name ∈ l, IsName name :=
  hs.isName_of_isSome (Option.isSome_of_eq_some h)

/-- **There is nothing below what is no directory.** -/
theorem Namespace.IsTree.kind?_eq_none_below (hs : s.IsTree) (h : s.kind? l ≠ some .directory)
    {names : List Text} (hne : names ≠ []) : s.kind? (names ++ l) = none := by
  induction names with
  | nil => exact absurd rfl hne
  | cons name names ih =>
    cases hk : s.kind? (name :: (names ++ l)) with
    | none => exact hk
    | some k =>
      have hp := hs.parent_isDirectory (by rw [hk]; rfl)
      cases names with
      | nil => exact absurd hp h
      | cons x xs =>
        rw [ih (by simp)] at hp
        cases hp

/-! ## Adding -/

@[simp] theorem Namespace.cwd_push (s : Namespace) (n : Node) : (s.push n).cwd = s.cwd := rfl

/-- Adding a directory does not change the current one. -/
@[simp] theorem Namespace.cwd_withDirectory (s : Namespace) (l : Location) :
    (s.withDirectory l).cwd = s.cwd := by
  induction l with
  | nil => rfl
  | cons name l ih =>
    unfold Namespace.withDirectory
    split
    · rfl
    · exact ih

/-- What a directory is added to stays where it is. -/
theorem Namespace.kind?_withDirectory_of_some {k : Kind} {l' : Location}
    (h : s.kind? l' = some k) (l : Location) : (s.withDirectory l).kind? l' = some k := by
  induction l with
  | nil => exact h
  | cons name l ih =>
    unfold Namespace.withDirectory
    split
    · exact h
    · rw [Namespace.kind?_push, ih]
      rfl

/-- Only the directory itself and those above it are added. -/
theorem Namespace.suffix_of_kind?_withDirectory {l' : Location}
    (h : ((s.withDirectory l).kind? l').isSome) : (s.kind? l').isSome ∨ l' <:+ l := by
  induction l with
  | nil => exact .inl h
  | cons name l ih =>
    unfold Namespace.withDirectory at h
    split at h
    · exact .inl h
    · rw [Namespace.kind?_push, Option.isSome_or, Bool.or_eq_true] at h
      rcases h with h | h
      · exact (ih h).imp_right fun hs => hs.trans (List.suffix_cons name l)
      · right
        by_cases he : name :: l = l'
        · exact he ▸ List.suffix_refl _
        · simp [he] at h

/-- A place below the added directory stays free. -/
theorem Namespace.kind?_cons_withDirectory {name : Text} (h : s.kind? (name :: l) = none) :
    (s.withDirectory l).kind? (name :: l) = none := by
  cases hk : (s.withDirectory l).kind? (name :: l) with
  | none => rfl
  | some k =>
    have hor : (s.kind? (name :: l)).isSome ∨ name :: l <:+ l :=
      Namespace.suffix_of_kind?_withDirectory (by rw [hk]; rfl)
    rcases hor with hs | hsuf
    · rw [h] at hs
      cases hs
    · -- the place is longer than that of the directory, so it is not above it
      have hlen := hsuf.length_le
      rw [List.length_cons] at hlen
      omega

/-- It stays so whenever the directory is added. -/
theorem Namespace.kind?_cons_of_addDirectoryAt {name : Text} (h : s.addDirectoryAt l = .ok s')
    (hfree : s.kind? (name :: l) = none) : s'.kind? (name :: l) = none := by
  unfold Namespace.addDirectoryAt at h
  split at h
  · cases h
  · cases h
    exact Namespace.kind?_cons_withDirectory hfree

/-- Without a file in the way there is a directory afterwards. -/
theorem Namespace.kind?_withDirectory_self (h : s.obstacle? l = none) :
    (s.withDirectory l).kind? l = some .directory := by
  cases l with
  | nil => simp [Namespace.withDirectory]
  | cons name l =>
    unfold Namespace.obstacle? at h
    unfold Namespace.withDirectory
    cases hk : s.kind? (name :: l) with
    | none =>
      rw [Option.isSome_none, if_neg (by simp), Namespace.kind?_push,
        Namespace.kind?_cons_withDirectory hk]
      simp
    | some k =>
      cases k with
      | directory => simpa using hk
      | file => simp [hk] at h

/-- The nodes are those from before and the added one. -/
theorem Namespace.mem_nodes_push {n m : Node} :
    n ∈ (s.push m).nodes ↔ n ∈ s.nodes ∨ n = m := by
  simp [Namespace.push]

/-- A node at a free place below a directory leaves a tree. -/
theorem Namespace.IsTree.push (hs : s.IsTree) {name : Text} {k : Kind}
    (hl : ∀ x ∈ name :: l, IsName x) (hfree : s.kind? (name :: l) = none)
    (hp : s.kind? l = some .directory) : (s.push ⟨name :: l, k⟩).IsTree where
  isName n hn := by
    rcases Namespace.mem_nodes_push.1 hn with hn | rfl
    · exact hs.isName n hn
    · exact hl
  ne_root n hn := by
    rcases Namespace.mem_nodes_push.1 hn with hn | rfl
    · exact hs.ne_root n hn
    · simp
  parent n hn := by
    rw [Namespace.kind?_push]
    rcases Namespace.mem_nodes_push.1 hn with hn | rfl
    · rw [hs.parent n hn]
      rfl
    · rw [List.tail_cons, hp]
      rfl
  distinct := by
    have hnot : name :: l ∉ s.nodes.map Node.location := by
      intro hmem
      obtain ⟨n, hn, hloc⟩ := List.mem_map.1 hmem
      have hsome := Namespace.kind?_cons_isSome.2 ⟨n, hn, hloc⟩
      rw [hfree] at hsome
      cases hsome
    show ((s.nodes ++ [(⟨name :: l, k⟩ : Node)]).map Node.location).Nodup
    rw [List.map_append, List.nodup_append]
    refine ⟨hs.distinct, by simp, ?_⟩
    intro x hx y hy
    obtain rfl : y = name :: l := by simpa using hy
    rintro rfl
    exact hnot hx

/-- A directory added without a file in the way leaves a tree. -/
theorem Namespace.IsTree.withDirectory (hs : s.IsTree) (hl : ∀ x ∈ l, IsName x)
    (h : s.obstacle? l = none) : (s.withDirectory l).IsTree := by
  induction l with
  | nil => exact hs
  | cons name l ih =>
    unfold Namespace.obstacle? at h
    unfold Namespace.withDirectory
    cases hk : s.kind? (name :: l) with
    | some k => exact hs
    | none =>
      have hobstacle : s.obstacle? l = none := by simpa [hk] using h
      exact (ih (fun x hx => hl x (by simp [hx])) hobstacle).push hl
        (Namespace.kind?_cons_withDirectory hk) (Namespace.kind?_withDirectory_self hobstacle)

/-- An addition that succeeds leaves a tree with the same current directory, and all that was there
stays. -/
theorem Namespace.IsTree.addDirectoryAt (hs : s.IsTree) (hl : ∀ x ∈ l, IsName x)
    (h : s.addDirectoryAt l = .ok s') :
    s'.IsTree ∧ s'.cwd = s.cwd ∧ s'.kind? l = some .directory ∧
      ∀ l' k, s.kind? l' = some k → s'.kind? l' = some k := by
  unfold Namespace.addDirectoryAt at h
  split at h
  · cases h
  · rename_i ho
    cases h
    exact ⟨hs.withDirectory hl ho, s.cwd_withDirectory l, Namespace.kind?_withDirectory_self ho,
      fun l' k hk => Namespace.kind?_withDirectory_of_some hk l⟩

/-- The same for a file. -/
theorem Namespace.IsTree.addFileAt (hs : s.IsTree) (hl : ∀ x ∈ l, IsName x)
    (h : s.addFileAt l = .ok s') :
    s'.IsTree ∧ s'.cwd = s.cwd ∧ ∀ l' k, s.kind? l' = some k → s'.kind? l' = some k := by
  unfold Namespace.addFileAt at h
  split at h
  · cases h
  · cases h
    exact ⟨hs, rfl, fun _ _ hk => hk⟩
  · rename_i hfree
    cases l with
    | nil => simp at hfree
    | cons name l =>
      have hparent : ∀ x ∈ l, IsName x := fun x hx => hl x (by simp [hx])
      cases hd : s.addDirectoryAt l with
      | error e =>
        rw [List.tail_cons, hd] at h
        cases h
      | ok s₁ =>
        rw [List.tail_cons, hd] at h
        cases h
        obtain ⟨htree, hcwd, hdir, hkeep⟩ := hs.addDirectoryAt hparent hd
        have hstill := Namespace.kind?_cons_of_addDirectoryAt hd hfree
        refine ⟨htree.push hl hstill hdir, hcwd, ?_⟩
        intro l' k hk
        rw [Namespace.kind?_push, hkeep l' k hk]
        rfl

/-- The current directory has no part in the invariant. -/
theorem Namespace.IsTree.with_cwd (hs : s.IsTree) (cwd : Location) :
    ({ s with cwd := cwd } : Namespace).IsTree :=
  ⟨hs.isName, hs.ne_root, hs.parent, hs.distinct⟩

/-! ## Reachable namespaces -/

/-- A namespace without nodes is a tree. -/
theorem Namespace.isTree_empty (cwd : Location) : (⟨[], cwd⟩ : Namespace).IsTree :=
  ⟨by simp, by simp, by simp, by simp⟩

/-- There is nothing in the way in it. -/
theorem Namespace.obstacle?_empty (cwd l : Location) :
    (⟨[], cwd⟩ : Namespace).obstacle? l = none := by
  induction l with
  | nil => rfl
  | cons name l ih => simpa [Namespace.obstacle?, Namespace.kind?_cons] using ih

/-- A new namespace is a tree, and its current directory exists. -/
theorem Namespace.isTree_create (cwd : Text) :
    (Namespace.create cwd).IsTree ∧
      (Namespace.create cwd).kind? (Namespace.create cwd).cwd = some .directory := by
  have hnames : ∀ x ∈ locateFrom rootLocation cwd, IsName x :=
    locateFrom_isName (by simp [rootLocation]) cwd
  have hfree := Namespace.obstacle?_empty (locateFrom rootLocation cwd)
  unfold Namespace.create
  refine ⟨(Namespace.isTree_empty _).withDirectory hnames (hfree _), ?_⟩
  rw [Namespace.cwd_withDirectory]
  exact Namespace.kind?_withDirectory_self (hfree _)

/-- **A namespace that came about by additions is a tree, and its current directory exists.** -/
theorem Namespace.Reachable.isTree (h : s.Reachable) :
    s.IsTree ∧ s.kind? s.cwd = some .directory := by
  induction h with
  | create cwd => exact Namespace.isTree_create cwd
  | @addDirectory s s' path _ hadd ih =>
    have hcwd := ih.1.isName_of_kind? ih.2
    obtain ⟨htree, hsame, -, hkeep⟩ := ih.1.addDirectoryAt (locateFrom_isName hcwd path) hadd
    exact ⟨htree, by rw [hsame]; exact hkeep _ _ ih.2⟩
  | @addFile s s' path _ hadd ih =>
    have hcwd := ih.1.isName_of_kind? ih.2
    obtain ⟨htree, hsame, hkeep⟩ := ih.1.addFileAt (locateFrom_isName hcwd path) hadd
    exact ⟨htree, by rw [hsame]; exact hkeep _ _ ih.2⟩

/-- The namespace of the files `/x` and `/d/x`, with `/d` as the current directory. -/
def Namespace.small : Namespace :=
  ⟨[⟨[['d']], .directory⟩, ⟨[['x']], .file⟩, ⟨[['x'], ['d']], .file⟩], [['d']]⟩

/-- It comes about by adding the two files. -/
theorem Namespace.reachable_small : Namespace.small.Reachable := by
  have hx : (Namespace.create ['/', 'd']).addFile ['/', 'x'] =
      .ok ⟨[⟨[['d']], .directory⟩, ⟨[['x']], .file⟩], [['d']]⟩ := rfl
  have hdx : Namespace.addFile ⟨[⟨[['d']], .directory⟩, ⟨[['x']], .file⟩], [['d']]⟩ ['x'] =
      .ok Namespace.small := rfl
  exact .addFile (.addFile (.create ['/', 'd']) hx) hdx

/-! ## Children -/

/-- The names in the directory at a place, in the order in which they were added. -/
def Namespace.childNames (s : Namespace) (l : Location) : List Text :=
  (s.nodes.filter (Node.isChildOf l)).filterMap fun n => n.location.head?

/-- A node is a child of the place below which it is. -/
theorem Node.isChildOf_iff {n : Node} : n.isChildOf l = true ↔ ∃ name, n.location = name :: l := by
  unfold Node.isChildOf
  split
  · rename_i h
    simp [h]
  · rename_i name parent h
    simp [h]

/-- Only a directory has children. -/
theorem Namespace.IsTree.childrenAt_eq_nil (hs : s.IsTree) (h : s.kind? l ≠ some .directory) :
    s.childrenAt l = [] := by
  unfold Namespace.childrenAt
  rw [List.map_eq_nil_iff, List.filter_eq_nil_iff]
  intro n hn hchild
  obtain ⟨name, hloc⟩ := Node.isChildOf_iff.1 hchild
  have hparent := hs.parent n hn
  rw [hloc, List.tail_cons] at hparent
  exact h hparent

/-- **The names in a directory are those that lead to something.** -/
theorem Namespace.mem_childNames_iff {name : Text} :
    name ∈ s.childNames l ↔ (s.kind? (name :: l)).isSome := by
  rw [Namespace.kind?_cons_isSome]
  simp only [Namespace.childNames, List.mem_filterMap, List.mem_filter, Node.isChildOf_iff]
  constructor
  · rintro ⟨n, ⟨hn, x, hx⟩, hname⟩
    obtain rfl : x = name := by simpa [hx] using hname
    exact ⟨n, hn, hx⟩
  · rintro ⟨n, hn, hloc⟩
    exact ⟨n, ⟨hn, name, hloc⟩, by rw [hloc]; rfl⟩

/-- The names that a listing gives are the names in the directory. -/
theorem Namespace.IsTree.map_entryName_children (hs : s.IsTree) (path : Text) :
    (s.provider.children path).map s.provider.entryName = s.childNames (s.locate path) := by
  show ((s.nodes.filter (Node.isChildOf (s.locate path))).map Node.entry).map
    (fun x => lastName x.path) = _
  have hread : ∀ n ∈ s.nodes.filter (Node.isChildOf (s.locate path)),
      some (lastName n.location.text) = n.location.head? := by
    intro n hn
    obtain ⟨hmem, hchild⟩ := List.mem_filter.1 hn
    obtain ⟨name, hloc⟩ := Node.isChildOf_iff.1 hchild
    have hname : IsName name := hs.isName n hmem name (by simp [hloc])
    rw [hloc, lastName_text hname, List.head?_cons]
  unfold Namespace.childNames
  rw [List.map_map]
  generalize s.nodes.filter (Node.isChildOf (s.locate path)) = ns at hread
  induction ns with
  | nil => rfl
  | cons n ns ih =>
    rw [List.map_cons, List.filterMap_cons, ← hread n (by simp),
      ih fun m hm => hread m (by simp [hm])]
    rfl

/-- **No name stands twice in a directory.** -/
theorem Namespace.IsTree.nodup_childNames (hs : s.IsTree) (l : Location) : (s.childNames l).Nodup := by
  -- with the place in front of them the names are places of nodes
  have hplaces : (s.childNames l).map (· :: l) =
      (s.nodes.filter (Node.isChildOf l)).map Node.location := by
    have hchild : ∀ n ∈ s.nodes.filter (Node.isChildOf l), ∃ name, n.location = name :: l :=
      fun n hn => Node.isChildOf_iff.1 (List.mem_filter.1 hn).2
    unfold Namespace.childNames
    generalize s.nodes.filter (Node.isChildOf l) = ns at hchild
    induction ns with
    | nil => rfl
    | cons n ns ih =>
      obtain ⟨name, hname⟩ := hchild n List.mem_cons_self
      have htail := ih fun m hm => hchild m (List.mem_cons_of_mem n hm)
      simp [hname, htail]
  have hnodup : ((s.nodes.filter (Node.isChildOf l)).map Node.location).Nodup :=
    hs.distinct.sublist (List.filter_sublist.map Node.location)
  rw [← hplaces] at hnodup
  exact List.Pairwise.of_map (· :: l) (fun _ _ hne heq => hne (congrArg (· :: l) heq)) hnodup

/-- The names in a directory are proper ones. -/
theorem Namespace.IsTree.isName_of_mem_childNames (hs : s.IsTree) {name : Text}
    (h : name ∈ s.childNames l) : IsName name :=
  hs.isName_of_isSome (Namespace.mem_childNames_iff.1 h) name (by simp)

/-! ## Height -/

/-- The greatest number of names that lead to a node. -/
def Namespace.height (s : Namespace) : Nat :=
  (s.nodes.map fun n => n.location.length).foldr max 0

/-- No place at which there is something lies deeper than the height. -/
theorem Namespace.length_le_height (h : (s.kind? l).isSome) : l.length ≤ s.height := by
  cases l with
  | nil => simp
  | cons name l =>
    obtain ⟨n, hn, hloc⟩ := Namespace.kind?_cons_isSome.1 h
    rw [← hloc, Namespace.height]
    generalize s.nodes = ns at hn
    induction ns with
    | nil => cases hn
    | cons m ns ih =>
      rw [List.map_cons, List.foldr_cons]
      rcases List.mem_cons.1 hn with rfl | hn
      · exact Nat.le_max_left _ _
      · exact Nat.le_trans (ih hn) (Nat.le_max_right _ _)

/-- Down in a directory less of the height is left. -/
theorem Namespace.height_sub_length_lt {name : Text} (h : s.kind? (name :: l) = some .directory) :
    s.height - (name :: l).length < s.height - l.length := by
  have hlen := Namespace.length_le_height (s := s) (l := name :: l) (by rw [h]; rfl)
  rw [List.length_cons] at hlen ⊢
  omega

/-- **Induction from below**: what holds of a place as soon as it holds of all directories directly
below it holds of every place. -/
@[elab_as_elim]
theorem Namespace.directoryInduction (s : Namespace) {motive : Location → Prop}
    (step : ∀ l, (∀ name, s.kind? (name :: l) = some .directory → motive (name :: l)) → motive l)
    (l : Location) : motive l := by
  induction hn : s.height - l.length using Nat.strongRecOn generalizing l with
  | _ n below =>
    apply step
    intro name hdir
    apply below _ _ (name :: l) rfl
    rw [← hn]
    exact Namespace.height_sub_length_lt hdir

end PathGlob
