import PathGlob.Proofs.FileSystem.Names
import PathGlob.Proofs.FileSystem.Resolution
import PathGlob.Proofs.Traversal.Endings

/-! # Link loops
Links may stand for the directory they are in, for one above it or for one another, and a walk goes on
into all of them. Still it ends: behind its last reference to a parent a path has one name more after
each step down, and only so many names can be resolved with the links that may be followed.

* **`namesBehindParents`** — the names of a path behind its last reference to a parent.
* **`FileSystem.length_namesBehindParents_le`** — in the path of a directory they are not many.
* **`FileSystem.length_namesBehindParents_of_descends`** — a step down adds one.
* **`FileSystem.searches_finish`** — the main statement. -/

namespace PathGlob

variable {s : FileSystem} {path name : Text}

/-! ## Names behind references to parents -/

/-- **The names of a path behind its last reference to a parent**, all of them if there is none. -/
def namesBehindParents (path : Text) : List Text :=
  ((plainNames path).reverse.takeWhile (· != parentDirectory)).reverse

/-- They are the last names of the path. -/
theorem exists_plainNames_eq (path : Text) :
    ∃ front, plainNames path = front ++ namesBehindParents path :=
  ⟨((plainNames path).reverse.dropWhile (· != parentDirectory)).reverse, by
    rw [namesBehindParents, ← List.reverse_append, List.takeWhile_append_dropWhile,
      List.reverse_reverse]⟩

/-- Each of them is a name of an entry. -/
theorem isEntryName_of_mem_namesBehindParents (h : name ∈ namesBehindParents path) :
    isEntryName name = true := by
  obtain ⟨front, hfront⟩ := exists_plainNames_eq path
  have hmem : name ∈ plainNames path := hfront ▸ List.mem_append_right front h
  obtain ⟨-, hne, hdot⟩ := mem_plainNames_iff.1 hmem
  have hdots := List.all_eq_true.1 List.all_takeWhile _ (List.mem_reverse.1 h)
  exact isEntryName_iff.2
    ⟨hne, hdot, bne_iff_ne.1 hdots, slash_not_mem_of_mem_plainNames hmem⟩

/-- A joined name comes behind them. -/
theorem namesBehindParents_joinPath (path : Text) (h : isEntryName name = true) :
    namesBehindParents (joinPath path name) = namesBehindParents path ++ [name] := by
  have hdots : (name != parentDirectory) = true := bne_iff_ne.2 (isEntryName_iff.1 h).2.2.1
  rw [namesBehindParents, plainNames_joinPath path h, List.reverse_append, List.reverse_singleton,
    List.singleton_append, List.takeWhile_cons, if_pos hdots, List.reverse_cons]
  rfl

/-! ## Directories and their children -/

/-- Where a directory is found, its plain path is resolved. -/
theorem FileSystem.exists_resolve_of_findDirectory (h : (s.provider.findDirectory path).isSome) :
    ∃ l r, s.resolve linkLimit l (pieces '/' (plainPath path)) = .ok r := by
  have hfind : (s.findDirectory path).1.isSome := h
  unfold FileSystem.findDirectory FileSystem.find FileSystem.stat at hfind
  split at hfind
  · cases hfind
  split at hfind
  · rename_i r b hstat
    split at hstat
    · cases hstat
    split at hstat
    · cases hstat
    exact ⟨_, _, hstat⟩
  · cases hfind

/-- **How far one can go down without a reference to a parent**: between two links no further than the
tree is high, and `linkLimit` links are followed. -/
theorem FileSystem.length_namesBehindParents_le (h : (s.provider.findDirectory path).isSome) :
    (namesBehindParents path).length ≤ (linkLimit + 1) * (s.height + 1) := by
  by_cases hnil : namesBehindParents path = []
  · rw [hnil]
    exact Nat.zero_le _
  obtain ⟨front, hfront⟩ := exists_plainNames_eq path
  have hne : plainNames path ≠ [] := by
    rw [hfront]
    exact fun happend => hnil (List.append_eq_nil_iff.1 happend).2
  obtain ⟨lead, hlead⟩ := pieces_plainPath hne
  obtain ⟨l, r, hresolve⟩ := s.exists_resolve_of_findDirectory h
  rw [hlead, hfront, ← List.append_assoc] at hresolve
  -- the front, where a path can go up, leads to some place with some of the links used up
  obtain ⟨links, hlinks, m, hlast⟩ := s.resolve_append hnil hresolve
  have hbound := s.length_le_of_resolve (fun _ => isEntryName_of_mem_namesBehindParents) hlast
  have hmul := Nat.mul_le_mul_right (s.height + 1) hlinks
  rw [Nat.succ_mul]
  omega

/-- The children of a directory have the names of nodes. -/
theorem FileSystem.HasEntryNames.of_mem_children (hs : s.HasEntryNames) {x : Text}
    (hx : x ∈ s.provider.children path) :
    ∃ name, isEntryName name = true ∧ x = plainPath (joinPath path name) := by
  have hlisted : x ∈ if path.contains nul then [] else (s.childrenOf path).1 := hx
  unfold FileSystem.childrenOf at hlisted
  split at hlisted
  · cases hlisted
  split at hlisted
  · rename_i l hstat
    obtain ⟨name, hname, rfl⟩ := List.mem_map.1 hlisted
    obtain ⟨n, hn, hat⟩ := List.mem_filterMap.1 hname
    refine ⟨name, ?_, rfl⟩
    have hproper := hs n hn
    split at hat
    · cases hat
    · rename_i first parent hlocation
      rw [hlocation] at hproper
      split at hat
      · cases hat
        exact hproper name List.mem_cons_self
      · cases hat
  · cases hlisted
  · cases hlisted

/-- **A step down adds a name** behind the last reference to a parent. -/
theorem FileSystem.HasEntryNames.length_of_descends (hs : s.HasEntryNames) {lower upper : Text}
    (h : s.provider.Descends lower upper) :
    (namesBehindParents lower).length = (namesBehindParents upper).length + 1 := by
  obtain ⟨-, -, x, hx, rfl⟩ := h
  obtain ⟨name, hname, rfl⟩ := hs.of_mem_children hx
  have hentry : s.provider.entryName (plainPath (joinPath upper name)) = name :=
    plainName_joinPath upper hname
  rw [hentry, namesBehindParents_joinPath upper hname, List.length_append, List.length_singleton]

/-- **The steps down in a file system are well-founded**, links or not. -/
theorem FileSystem.HasEntryNames.descends_wellFounded (hs : s.HasEntryNames) :
    WellFounded s.provider.Descends := by
  refine Subrelation.wf (fun {lower upper} h => ?_) (measure fun path =>
    (linkLimit + 1) * (s.height + 1) - (namesBehindParents path).length).wf
  -- the upper path is within the bound, so what is left of the bound shrinks
  have hlonger := hs.length_of_descends h
  have hfew := s.length_namesBehindParents_le h.2.1
  show (linkLimit + 1) * (s.height + 1) - (namesBehindParents lower).length <
    (linkLimit + 1) * (s.height + 1) - (namesBehindParents upper).length
  omega

/-- A chain of steps down is no longer than the paths of directories allow. -/
theorem FileSystem.HasEntryNames.chain_le (hs : s.HasEntryNames) (d : Nat → Text) {n : Nat}
    (hd : ∀ i < n, s.provider.Descends (d (i + 1)) (d i)) :
    n ≤ (linkLimit + 1) * (s.height + 1) := by
  have hlength : ∀ i ≤ n, i ≤ (namesBehindParents (d i)).length := by
    intro i hi
    induction i with
    | zero => exact Nat.zero_le _
    | succ i ih =>
      rw [hs.length_of_descends (hd i hi)]
      exact Nat.succ_le_succ (ih (Nat.le_of_succ_le hi))
  cases n with
  | zero => exact Nat.zero_le _
  | succ n =>
    exact (hlength (n + 1) (Nat.le_refl _)).trans
      (s.length_namesBehindParents_le (hd n (Nat.lt_succ_self n)).2.1)

/-! ## Searches -/

/-- **Every search of a file system comes to an end**, with finitely many questions, for every pattern
and all flags, whatever its links stand for. The reason is that a walk can only go down
`41 * (height + 1)` times: forty-one ways through the tree with forty links between them. -/
theorem FileSystem.searches_finish (hs : s.HasEntryNames) :
    (∀ (d : Nat → Text) (n : Nat), (∀ i < n, s.provider.Descends (d (i + 1)) (d i)) →
      n ≤ (linkLimit + 1) * (s.height + 1)) ∧
    ∀ (fs : Flags) (pattern : Text),
      Finishes s.provider (startJobs fs pattern) ∧ Finishes s.provider (searchJobs fs pattern) :=
  ⟨fun d _ hd => hs.chain_le d hd, fun fs pattern =>
    ⟨(ends_startJobs hs.descends_wellFounded fs pattern).finishes,
      (ends_searchJobs hs.descends_wellFounded fs pattern).finishes⟩⟩

/-- A directory with a link to the directory above it, a link to itself, and two links to each other. -/
def FileSystem.tangle : FileSystem :=
  FileSystem.ofPaths [['r']] ["a/x".toList]
    [("a/up".toList, "..".toList), ("a/s".toList, "s".toList), ("p".toList, "a/q".toList),
      ("a/q".toList, "../p".toList)]

/-- A walk goes round by the link to the directory above. -/
example : (FileSystem.tangle.provider.findDirectory "a/up/a/up/a".toList).isSome = true := by
  cbv

/-- The search of `**/../{a,**}/**` in it ends. -/
theorem FileSystem.tangle_searches_finish :
    FileSystem.tangle.HasEntryNames ∧
      Finishes FileSystem.tangle.provider
        (searchJobs (Flags.ofFlag .dotMatch) "**/../\x7ba,**\x7d/**".toList) := by
  have hs : FileSystem.tangle.HasEntryNames :=
    FileSystem.hasEntryNames_ofPaths (Location.isProper_cons_iff.2 ⟨rfl, Location.isProper_nil⟩) _ _
  exact ⟨hs, ((FileSystem.searches_finish hs).2 _ _).2⟩

end PathGlob
