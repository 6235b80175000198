import PathGlob.Proofs.Namespace.Building

/-! # Listing and looking up
A namespace is asked in two ways: what a directory lists, and what is found at a path. A name that is
listed, joined to the path of its directory, leads to the entry that was listed, and a joined name
that leads to something is listed.

* **`Namespace.FindsOnly`** — an entry is all that is found at a path; **`Namespace.findsOnly_iff`**
  says so by what is at the place of the path.
* **`Namespace.IsTree.mem_children_iff`** — the entries that a directory lists.
* **`Namespace.Reachable.listing_agrees`** — listings and lookups agree. -/

namespace PathGlob

variable {s : Namespace} {l : Location} {k : Kind} {path name : Text} {e : Entry}

/-! ## What is found at a path -/

/-- **An entry is all that is found at a path**: a directory and no file, or a file and no
directory. -/
def Namespace.FindsOnly (s : Namespace) (path : Text) (e : Entry) : Prop :=
  if e.isDirectory then s.provider.findDirectory path = some e ∧ s.provider.findFile path = none
  else s.provider.findFile path = some e ∧ s.provider.findDirectory path = none

/-- **What is at the place of a path** is all that is found there. -/
theorem Namespace.findsOnly_iff :
    s.FindsOnly path (Node.entry ⟨s.locate path, k⟩) ↔ s.kind? (s.locate path) = some k := by
  cases k with
  | directory =>
    show s.directoryAt? (s.locate path) = _ ∧ s.fileAt? (s.locate path) = none ↔ _
    rw [Namespace.directoryAt?_eq_some_iff]
    constructor
    · exact fun h => h.1.1
    · intro h
      exact ⟨⟨h, rfl⟩, by simp [Namespace.fileAt?, h]⟩
  | file =>
    show s.fileAt? (s.locate path) = _ ∧ s.directoryAt? (s.locate path) = none ↔ _
    rw [Namespace.fileAt?_eq_some_iff]
    constructor
    · exact fun h => h.1.1
    · intro h
      exact ⟨⟨h, rfl⟩, by simp [Namespace.directoryAt?, h]⟩

/-- A directory is found at a path if there is one at its place. -/
theorem Namespace.findDirectory_isSome_iff :
    (s.provider.findDirectory path).isSome ↔ s.kind? (s.locate path) = some .directory := by
  show (s.directoryAt? (s.locate path)).isSome ↔ _
  unfold Namespace.directoryAt?
  split <;> simp [*]

/-- So is a file. -/
theorem Namespace.findFile_isSome_iff :
    (s.provider.findFile path).isSome ↔ s.kind? (s.locate path) = some .file := by
  show (s.fileAt? (s.locate path)).isSome ↔ _
  unfold Namespace.fileAt?
  split <;> simp [*]

/-- The place of a path with a name is the place of that name below the path. -/
theorem Namespace.locate_joinPath (s : Namespace) (hne : path ≠ []) (hname : IsName name) :
    s.locate (joinPath path name) = name :: s.locate path := by
  show locateFrom s.cwd (joinPath path name) = name :: locateFrom s.cwd path
  rw [locateFrom_joinPath s.cwd hne, withSlashes_of_not_mem hname.backslash_not_mem,
    pieces_of_not_mem hname.slash_not_mem, follow_cons, stepInto_of_isName hname, follow_nil]

/-! ## What is listed -/

/-- **The entries that a directory lists** are those of the places directly below it. -/
theorem Namespace.IsTree.mem_children_iff (hs : s.IsTree) :
    e ∈ s.provider.children path ↔ ∃ name k, s.kind? (name :: s.locate path) = some k ∧
      e = Node.entry ⟨name :: s.locate path, k⟩ := by
  show e ∈ (s.nodes.filter (Node.isChildOf (s.locate path))).map Node.entry ↔ _
  simp only [List.mem_map, List.mem_filter, Node.isChildOf_iff]
  constructor
  · rintro ⟨⟨l, k⟩, ⟨hn, name, rfl⟩, rfl⟩
    exact ⟨name, k, hs.kind?_location hn, rfl⟩
  · rintro ⟨name, k, hk, rfl⟩
    exact ⟨_, ⟨hs.mem_nodes_iff.2 ⟨List.cons_ne_nil _ _, hk⟩, name, rfl⟩, rfl⟩

/-- The name of a listed entry is the last one of its place. -/
theorem Namespace.entryName_entry (s : Namespace) (hname : IsName name) :
    s.provider.entryName (Node.entry ⟨name :: l, k⟩) = name :=
  lastName_text hname l

/-- **Listings and lookups agree.** The names that a path lists are proper and pairwise different; each
of them, joined to the path, leads to its entry and to nothing else. If something is found at a proper
name that is joined to the path, then the path is that of a directory, which lists the name. -/
theorem Namespace.Reachable.listing_agrees (hs : s.Reachable) (path : Text) (hne : path ≠ []) :
    ((s.provider.children path).map s.provider.entryName).Nodup ∧
    (∀ e ∈ s.provider.children path, IsName (s.provider.entryName e) ∧
      s.FindsOnly (joinPath path (s.provider.entryName e)) e) ∧
    ∀ name, IsName name →
      (s.provider.findDirectory (joinPath path name)).isSome ∨
        (s.provider.findFile (joinPath path name)).isSome →
      (s.provider.findDirectory path).isSome ∧
        ∃ e ∈ s.provider.children path, s.provider.entryName e = name := by
  obtain ⟨htree, -⟩ := hs.isTree
  refine ⟨?_, ?_, ?_⟩
  · rw [htree.map_entryName_children]
    exact htree.nodup_childNames _
  · intro e he
    obtain ⟨name, k, hk, rfl⟩ := htree.mem_children_iff.1 he
    have hname : IsName name := htree.isName_of_kind? hk name List.mem_cons_self
    rw [s.entryName_entry hname]
    refine ⟨hname, ?_⟩
    rw [← s.locate_joinPath hne hname] at hk ⊢
    exact Namespace.findsOnly_iff.2 hk
  · intro name hname hfound
    rw [Namespace.findDirectory_isSome_iff, Namespace.findFile_isSome_iff,
      s.locate_joinPath hne hname] at hfound
    -- whichever is found, there is something at the place of the name
    obtain ⟨k, hk⟩ : ∃ k, s.kind? (name :: s.locate path) = some k := by
      rcases hfound with h | h
      · exact ⟨_, h⟩
      · exact ⟨_, h⟩
    refine ⟨?_, _, htree.mem_children_iff.2 ⟨name, k, hk, rfl⟩, s.entryName_entry hname⟩
    rw [Namespace.findDirectory_isSome_iff]
    exact htree.parent_isDirectory (by rw [hk]; rfl)

/-- Below the current directory `/d` the path `..\d//` lists the file `x`, which is found there. -/
theorem Namespace.small_listing_agrees :
    Namespace.small.provider.children "..\\d//".toList = [⟨"/d/x".toList, false⟩] ∧
    Namespace.small.FindsOnly "..\\d//x".toList ⟨"/d/x".toList, false⟩ ∧
    (Namespace.small.provider.findDirectory "..\\d//".toList).isSome := by
  have hagrees := Namespace.reachable_small.listing_agrees "..\\d//".toList (by decide)
  have hlist : Namespace.small.provider.children "..\\d//".toList = [⟨"/d/x".toList, false⟩] := by
    decide
  refine ⟨hlist, ?_, ?_⟩
  · exact (hagrees.2.1 ⟨"/d/x".toList, false⟩ (by rw [hlist]; exact List.mem_singleton_self _)).2
  · exact (hagrees.2.2 ['x'] (by decide) (.inr (by decide))).1

end PathGlob
