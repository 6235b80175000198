import PathGlob.Proofs.Namespace.Tables

/-! # Tables stay consistent
What is kept in tables and what is listed in them belong together, whatever is added and whichever
additions fail, although the two tables are written one after the other. A directory is known to be
listed, and a listed path to be kept, because the tables keep a namespace all along.

* **`Tables.start`**, **`Tables.afterAll`** — the tables before anything is added, and behind additions.
* **`Tables.Keeps.afterAll`** — they keep the namespace with the same additions.
* **`Tables.IsConsistent`** — how the tables belong together; **`Tables.isConsistent_afterAll`** is the
  main statement. -/

namespace PathGlob

variable {d : Tables} {s : Namespace} {l : Location} {path : Text}

/-! ## Additions -/

/-- The tables before anything is added: there is the root, which lists nothing. -/
def Tables.start (cwd : Text) : Tables := ⟨AList.singleton ['/'] [], ∅, absolutePath ['/'] cwd⟩

/-- What an addition does to tables. -/
def store : Addition → EStateM TableError Tables Entry
  | .file path => storeFile path
  | .directory path => storeDirectory path

/-- The tables that an addition leaves, whether or not it fails. -/
def Tables.after (d : Tables) (a : Addition) : Tables :=
  match (store a).run d with
  | .ok _ d' => d'
  | .error _ d' => d'

/-- The tables behind several additions, one after the other. -/
def Tables.afterAll (d : Tables) (as : List Addition) : Tables := as.foldl Tables.after d

/-- The tables at the start keep a namespace without nodes. -/
theorem Tables.keeps_start (cwd : Text) :
    (Tables.start cwd).Keeps ⟨[], locateFrom rootLocation cwd⟩ where
  cwd := absolutePath_text (l := rootLocation) (by simp [rootLocation]) cwd
  listings l hl := by
    cases l with
    | nil => rfl
    | cons name l =>
      have hroot : ∀ x ∈ ([] : Location), IsName x := by simp
      have hne : Location.text (name :: l) ≠ ['/'] := fun heq =>
        List.cons_ne_nil name l (text_inj hl hroot heq)
      rw [Namespace.kind?_cons]
      exact AList.lookup_eq_none.2 (by simpa [Tables.start, AList.mem_keys] using hne)
  files l hl := by
    cases l <;> rfl
  places path hmem := by
    have hroot : path = ['/'] := by
      simpa [Tables.Has, Tables.start, AList.mem_keys] using hmem
    exact ⟨[], by simp, hroot⟩

/-- **Tables with a current directory**: it is made, and they keep a new namespace. -/
theorem Tables.keeps_create (cwd : Text) :
    ∃ d, (storeDirectory (Tables.start cwd).cwd).run (Tables.start cwd) =
        .ok ⟨(Tables.start cwd).cwd, true⟩ d ∧
      d.Keeps (Namespace.create cwd) := by
  have hnames : ∀ x ∈ locateFrom rootLocation cwd, IsName x :=
    locateFrom_isName (by simp [rootLocation]) cwd
  have hagrees := (Tables.keeps_start cwd).storeDirectory (Namespace.isTree_empty _) hnames
    (Tables.start cwd).cwd
  have hplace : (⟨[], locateFrom rootLocation cwd⟩ : Namespace).locate (Tables.start cwd).cwd =
      locateFrom rootLocation cwd := by
    rw [(Tables.keeps_start cwd).cwd]
    exact locateFrom_text _ hnames
  -- there are no files yet, so none is in the way
  rw [run_makeDirectory, Namespace.addDirectory, hplace, Namespace.addDirectoryAt,
    Namespace.obstacle?_empty] at hagrees
  rcases hagrees.cases with ⟨d, s', hrun, hadd, hd⟩ | ⟨err, -, hadd⟩
  · obtain rfl := Except.ok.inj hadd
    refine ⟨d, ?_, hd⟩
    rw [hrun, (Tables.keeps_start cwd).cwd]
    rfl
  · cases hadd

/-- **What an addition to tables comes to**: the tables keep the namespace with the addition, or there
is an error, and nothing has been written. -/
theorem Tables.Keeps.store_cases (hd : d.Keeps s) (hs : s.Reachable) (a : Addition) :
    (∃ e d', (store a).run d = .ok e d' ∧ d'.Keeps (s.add a)) ∨
      ∃ err, (store a).run d = .error (NamespaceError.inTables err) d ∧ s.add a = s := by
  obtain ⟨htree, hdir⟩ := hs.isTree
  have hcwd : ∀ x ∈ s.cwd, IsName x := htree.isName_of_kind? hdir
  cases a with
  | file path =>
    have hagrees := hd.storeFile htree hcwd path
    rw [run_makeFile] at hagrees
    rcases hagrees.cases with ⟨d', s', hrun, hadd, hd'⟩ | ⟨err, hrun, hadd⟩
    · exact .inl ⟨_, d', hrun, by rw [Namespace.add, hadd]; exact hd'⟩
    · exact .inr ⟨err, hrun, by rw [Namespace.add, hadd]; rfl⟩
  | directory path =>
    have hagrees := hd.storeDirectory htree hcwd path
    rw [run_makeDirectory] at hagrees
    rcases hagrees.cases with ⟨d', s', hrun, hadd, hd'⟩ | ⟨err, hrun, hadd⟩
    · exact .inl ⟨_, d', hrun, by rw [Namespace.add, hadd]; exact hd'⟩
    · exact .inr ⟨err, hrun, by rw [Namespace.add, hadd]; rfl⟩

/-- Behind an addition tables keep the namespace with the addition. -/
theorem Tables.Keeps.after (hd : d.Keeps s) (hs : s.Reachable) (a : Addition) :
    (d.after a).Keeps (s.add a) := by
  unfold Tables.after
  rcases hd.store_cases hs a with ⟨e, d', hrun, hd'⟩ | ⟨err, hrun, hsame⟩
  · rw [hrun]
    exact hd'
  · rw [hrun, hsame]
    exact hd

/-- **Behind any additions tables keep the namespace with these additions.** -/
theorem Tables.Keeps.afterAll (hd : d.Keeps s) (hs : s.Reachable) (as : List Addition) :
    (d.afterAll as).Keeps (s.addAll as) := by
  induction as generalizing d s with
  | nil => exact hd
  | cons a as ih => exact ih (hd.after hs a) (hs.add a)

/-! ## What is kept and listed -/

/-- In a table is what is at a place. -/
theorem Tables.Keeps.has_iff (hd : d.Keeps s) (hs : s.IsTree) :
    d.Has path ↔ ∃ l : Location, (s.kind? l).isSome ∧ path = l.text := by
  constructor
  · intro h
    obtain ⟨l, hl, rfl⟩ := hd.places path h
    refine ⟨l, ?_, rfl⟩
    rcases h with h | h
    · rw [(hd.text_mem_listings hl).1 h, Option.isSome_some]
    · rw [(hd.text_mem_files hl).1 h, Option.isSome_some]
  · rintro ⟨l, h, rfl⟩
    have hl := hs.isName_of_isSome h
    obtain ⟨k, hk⟩ := Option.isSome_iff_exists.1 h
    cases k with
    | directory => exact .inl ((hd.text_mem_listings hl).2 hk)
    | file => exact .inr ((hd.text_mem_files hl).2 hk)

/-- What a directory lists in the tables is what it lists in the namespace. -/
theorem Tables.Keeps.lookup_listings_iff (hd : d.Keeps s) (hs : s.IsTree) {paths : List Text} :
    d.listings.lookup path = some paths ↔
      ∃ l : Location, s.kind? l = some .directory ∧ path = l.text ∧ paths = s.listedAt l := by
  constructor
  · intro h
    have hmem : path ∈ d.listings := AList.lookup_isSome.1 (by rw [h]; rfl)
    obtain ⟨l, hl, rfl⟩ := hd.places path (.inl hmem)
    have hk := (hd.text_mem_listings hl).1 hmem
    rw [hd.listings l hl, if_pos hk] at h
    exact ⟨l, hk, rfl, (Option.some.inj h).symm⟩
  · rintro ⟨l, hk, rfl, rfl⟩
    rw [hd.listings l (hs.isName_of_kind? hk), if_pos hk]

/-- **What a directory lists** are the paths of the places directly below it at which there is
something. -/
theorem Namespace.mem_listedAt_iff :
    path ∈ s.listedAt l ↔ ∃ name, (s.kind? (name :: l)).isSome ∧ path = Location.text (name :: l) := by
  simp only [Namespace.listedAt, Namespace.childrenAt, List.map_map, List.mem_map, List.mem_filter,
    Node.isChildOf_iff, Namespace.kind?_cons_isSome]
  constructor
  · rintro ⟨n, ⟨hn, name, hloc⟩, rfl⟩
    exact ⟨name, ⟨n, hn, hloc⟩, by rw [← hloc]; rfl⟩
  · rintro ⟨name, ⟨n, hn, hloc⟩, rfl⟩
    exact ⟨n, ⟨hn, name, hloc⟩, by rw [← hloc]; rfl⟩

/-- No path is listed twice by a directory. -/
theorem Namespace.IsTree.nodup_listedAt (hs : s.IsTree) (l : Location) : (s.listedAt l).Nodup := by
  have hdistinct : ((s.nodes.filter (Node.isChildOf l)).map Node.location).Nodup :=
    hs.distinct.sublist (List.filter_sublist.map Node.location)
  have hpaths := hdistinct.map_on (f := Location.text) fun x hx y hy heq => ?_
  · rw [Namespace.listedAt, Namespace.childrenAt, List.map_map]
    rwa [List.map_map] at hpaths
  · obtain ⟨n, hn, rfl⟩ := List.mem_map.1 hx
    obtain ⟨m, hm, rfl⟩ := List.mem_map.1 hy
    exact text_inj (hs.isName n (List.mem_of_mem_filter hn))
      (hs.isName m (List.mem_of_mem_filter hm)) heq

/-! ## Consistency -/

/-- **What is kept and what is listed belong together.** -/
structure Tables.IsConsistent (d : Tables) : Prop where
  /-- The root is a directory. -/
  root : ['/'] ∈ d.listings
  /-- The current directory is one. -/
  cwd : d.cwd ∈ d.listings
  /-- No path is that of a directory and that of a file. -/
  disjoint : ∀ path ∈ d.listings, path ∉ d.files
  /-- A file is kept with its path. -/
  entries : ∀ path e, d.files.lookup path = some e → e = ⟨path, false⟩
  /-- All paths are canonical and stay as they are when they are made absolute. -/
  canonical : ∀ path, d.Has path → IsCanonical path ∧ d.normalize path = path
  /-- A path other than the root is listed once by the directory in which it stands. -/
  listed : ∀ path, d.Has path → path ≠ ['/'] →
    ∃ paths, d.listings.lookup (dirName path) = some paths ∧ paths.count path = 1
  /-- It is listed by no other directory. -/
  listedOnly : ∀ directory paths, d.listings.lookup directory = some paths →
    ∀ path ∈ paths, directory = dirName path
  /-- A path that is listed is that of a directory or of a file. -/
  kept : ∀ directory paths, d.listings.lookup directory = some paths → ∀ path ∈ paths, d.Has path

/-- **Tables are consistent if they keep a tree whose current directory exists.** -/
theorem Tables.Keeps.isConsistent (hd : d.Keeps s) (hs : s.IsTree)
    (hcwd : s.kind? s.cwd = some .directory) : d.IsConsistent where
  root := (hd.text_mem_listings (l := []) (by simp)).2 s.kind?_nil
  cwd := by
    rw [hd.cwd]
    exact (hd.text_mem_listings (hs.isName_of_kind? hcwd)).2 hcwd
  disjoint path hmem hfile := by
    obtain ⟨l, hl, rfl⟩ := hd.places path (.inl hmem)
    -- a place is of one kind
    rw [hd.text_mem_listings hl] at hmem
    rw [hd.text_mem_files hl, hmem] at hfile
    cases hfile
  entries path e h := by
    obtain ⟨l, hl, rfl⟩ := hd.places path (.inr (AList.lookup_isSome.1 (by rw [h]; rfl)))
    rw [hd.files l hl] at h
    exact (Namespace.fileAt?_eq_some_iff.1 h).2
  canonical path h := by
    obtain ⟨l, hl, rfl⟩ := hd.places path h
    exact ⟨isCanonical_text hl, hd.normalize_text (hs.isName_of_kind? hcwd) hl⟩
  listed path h hne := by
    obtain ⟨l, hsome, rfl⟩ := (hd.has_iff hs).1 h
    cases l with
    | nil => exact absurd Location.text_nil hne
    | cons name l =>
      -- above a place of a tree is a directory, which lists no path twice
      rw [dirName_text (hs.isName_of_isSome hsome)]
      refine ⟨s.listedAt l, (hd.lookup_listings_iff hs).2
        ⟨l, hs.parent_isDirectory hsome, rfl, rfl⟩, ?_⟩
      exact List.count_eq_one_of_mem (hs.nodup_listedAt l)
        (Namespace.mem_listedAt_iff.2 ⟨name, hsome, rfl⟩)
  listedOnly directory paths h path hmem := by
    obtain ⟨l, -, rfl, rfl⟩ := (hd.lookup_listings_iff hs).1 h
    obtain ⟨name, hsome, rfl⟩ := Namespace.mem_listedAt_iff.1 hmem
    rw [dirName_text (hs.isName_of_isSome hsome)]
  kept directory paths h path hmem := by
    obtain ⟨l, -, rfl, rfl⟩ := (hd.lookup_listings_iff hs).1 h
    obtain ⟨name, hsome, rfl⟩ := Namespace.mem_listedAt_iff.1 hmem
    exact (hd.has_iff hs).2 ⟨name :: l, hsome, rfl⟩

/-- **Tables stay consistent.** Tables with any current directory can be made, and behind any additions
to them what is kept and what is listed belong together, whichever of the additions fail. A further
addition then fails only because a file or a directory is in its way, and in this case nothing is
written. -/
theorem Tables.isConsistent_afterAll (cwd : Text) (additions : List Addition) :
    ∃ d, (storeDirectory (Tables.start cwd).cwd).run (Tables.start cwd) =
        .ok ⟨(Tables.start cwd).cwd, true⟩ d ∧
      (d.afterAll additions).IsConsistent ∧
      (d.afterAll additions).provider = ((Namespace.create cwd).addAll additions).provider ∧
      ∀ a err d', (store a).run (d.afterAll additions) = .error err d' →
        d' = d.afterAll additions ∧ ∃ reason : NamespaceError, err = reason.inTables := by
  obtain ⟨d, hrun, hd⟩ := Tables.keeps_create cwd
  have hreachable := (Namespace.Reachable.create cwd).addAll additions
  have hkeeps := hd.afterAll (.create cwd) additions
  obtain ⟨htree, hcwd⟩ := hreachable.isTree
  refine ⟨d, hrun, hkeeps.isConsistent htree hcwd,
    hkeeps.provider_eq htree (htree.isName_of_kind? hcwd), ?_⟩
  intro a err d' herror
  rcases hkeeps.store_cases hreachable a with ⟨e, d'', hok, -⟩ | ⟨reason, hfail, -⟩
  · rw [hok] at herror
    cases herror
  · rw [hfail] at herror
    cases herror
    exact ⟨rfl, reason, rfl⟩

end PathGlob
