import Mathlib.Data.List.Perm.Basic
import PathGlob.Proofs.Namespace.Building
import PathGlob.Proofs.Traversal.Endings

/-! # The order in which a namespace is built
The order in which paths are added to a namespace shows in its listings only. Listings in another
order give a walk the same jobs in another order, and so the same entries in another order.

* **`Provider.Rearranges`** — two hierarchies differ in the order of their listings only.
* **`Yields.of_perm`** — jobs in another order find the same entries in another order.
* **`Provider.Rearranges.yields`** — so do the walks of hierarchies that differ in the order of their
  listings.
* **`Namespace.ofPaths_perm`** — paths in another order are refused together, or else lead to
  namespaces that differ in the order of their listings. -/

namespace PathGlob

variable {ε : Type} {p q : Provider ε}

/-! ## Listings in another order -/

/-- **Two hierarchies differ in the order of their listings only.** -/
structure Provider.Rearranges (p q : Provider ε) : Prop where
  /-- Entries have the same names. -/
  entryName : p.entryName = q.entryName
  /-- The same directories are found. -/
  findDirectory (path : Text) : p.findDirectory path = q.findDirectory path
  /-- So are the same files. -/
  findFile (path : Text) : p.findFile path = q.findFile path
  /-- The same children are listed, in any order. -/
  children (path : Text) : (p.children path).Perm (q.children path)

/-- **A turn leads to the same jobs in another order.** -/
theorem Provider.Rearranges.next (h : p.Rearranges q) (t : Job ε) : (t.next p).Perm (t.next q) := by
  cases t with
  | visit s base pattern again =>
    rw [Job.next_visit, Job.next_visit, h.findDirectory]
  | enumerate s base pattern =>
    rw [Job.next_enumerate, Job.next_enumerate, h.entryName]
    exact (((h.children _).map _).flatMap_right _).append_right _
  | candidate s path =>
    cases hd : p.findDirectory (s.candidatePath path) with
    | some e =>
      rw [Job.next_candidate_of_some hd, Job.next_candidate_of_some (h.findDirectory _ ▸ hd)]
    | none =>
      rw [Job.next_candidate_of_none hd, Job.next_candidate_of_none (h.findDirectory _ ▸ hd)]
  | tryFile path =>
    rw [Job.next_tryFile, Job.next_tryFile, h.findFile]
  | deliver e => exact .refl _
  | report n => exact .refl _

/-! ## Jobs in another order -/

/-- **Jobs in another order find the same entries in another order.** -/
theorem Yields.of_perm {ts us : List (Job ε)} (h : ts.Perm us) {es : List ε} (hes : Yields p ts es) :
    ∃ fs, Yields p us fs ∧ es.Perm fs := by
  induction h generalizing es with
  | nil => exact ⟨es, hes, .refl es⟩
  | @cons t ts us _ ih =>
    obtain ⟨e₁, e₂, h₁, h₂, rfl⟩ := Yields.split (show Yields p ([t] ++ ts) es from hes)
    obtain ⟨fs, hfs, hperm⟩ := ih h₂
    exact ⟨e₁ ++ fs, h₁.append hfs, hperm.append_left e₁⟩
  | swap t u ts =>
    obtain ⟨e₁, e₂, h₁, h₂, rfl⟩ := Yields.split (show Yields p ([u] ++ t :: ts) es from hes)
    obtain ⟨e₃, e₄, h₃, h₄, rfl⟩ := Yields.split (show Yields p ([t] ++ ts) e₂ from h₂)
    refine ⟨e₃ ++ (e₁ ++ e₄), h₃.append (h₁.append h₄), ?_⟩
    rw [← List.append_assoc, ← List.append_assoc]
    exact List.perm_append_comm.append_right e₄
  | trans _ _ ih₁ ih₂ =>
    obtain ⟨fs, hfs, hperm⟩ := ih₁ hes
    obtain ⟨gs, hgs, hperm'⟩ := ih₂ hfs
    exact ⟨gs, hgs, hperm.trans hperm'⟩

/-- **Listings in another order lead to the same entries in another order.** -/
theorem Provider.Rearranges.yields (h : p.Rearranges q) {ts : List (Job ε)} {es : List ε}
    (hes : Yields p ts es) : ∃ fs, Yields q ts fs ∧ es.Perm fs := by
  obtain ⟨n, hend, rfl⟩ := hes
  -- on the steps of the walk
  induction n generalizing ts with
  | zero =>
    obtain rfl : ts = [] := hend
    exact ⟨[], Yields.nil, .refl _⟩
  | succ n ih =>
    cases ts with
    | nil => exact ⟨[], Yields.nil, .refl _⟩
    | cons t ts =>
      rw [runWithin_cons] at hend ⊢
      -- what the jobs in the order of the first hierarchy find in the second one
      obtain ⟨fs, hfs, hperm⟩ := ih hend
      obtain ⟨gs, hgs, hperm'⟩ := hfs.of_perm ((h.next t).append_right ts)
      refine ⟨t.handsOut q ++ gs, hgs.cons, ?_⟩
      rw [List.filterMap_append, ← Job.handsOut_eq p q]
      exact (hperm.trans hperm').append_left _

/-- Walks that end in one of the hierarchies end with the same entries in the other one. -/
theorem Provider.Rearranges.exists_yields (h : p.Rearranges q) {ts : List (Job ε)}
    (hends : Ends p ts) : ∃ es fs, Yields p ts es ∧ Yields q ts fs ∧ es.Perm fs := by
  obtain ⟨es, hes⟩ := hends
  obtain ⟨fs, hfs, hperm⟩ := h.yields hes
  exact ⟨es, fs, hes, hfs, hperm⟩

/-! ## Namespaces -/

/-- **Namespaces that meet the same demands differ in the order of their listings only.** -/
theorem Namespace.Meets.rearranges {s s' : Namespace} {start : Location} {paths : List Text}
    (h : s.Meets start paths) (h' : s'.Meets start paths) :
    s.provider.Rearranges s'.provider := by
  have hkind : ∀ l, s.kind? l = s'.kind? l :=
    fun l => Option.ext fun k => (h.kind?_iff k l).trans (h'.kind?_iff k l).symm
  have hplace : ∀ path, s.locate path = s'.locate path := by
    intro path
    rw [Namespace.locate, h.cwd, Namespace.locate, h'.cwd]
  refine ⟨rfl, fun path => ?_, fun path => ?_, fun path => ?_⟩
  · show s.directoryAt? (s.locate path) = s'.directoryAt? (s'.locate path)
    rw [Namespace.directoryAt?, Namespace.directoryAt?, hplace, hkind]
  · show s.fileAt? (s.locate path) = s'.fileAt? (s'.locate path)
    rw [Namespace.fileAt?, Namespace.fileAt?, hplace, hkind]
  · show (s.childrenAt (s.locate path)).Perm (s'.childrenAt (s'.locate path))
    rw [hplace]
    exact ((h.isTree.nodes_perm h'.isTree hkind).filter _).map _

/-- Paths in another order are met by the same namespaces. -/
theorem Namespace.Meets.of_perm {s : Namespace} {start : Location} {paths paths' : List Text}
    (h : s.Meets start paths) (hperm : paths.Perm paths') : s.Meets start paths' :=
  ⟨h.isTree, h.cwd, fun k l => (h.kind?_iff k l).trans (demands_congr_of_perm hperm)⟩

/-- **The order of the paths from which a namespace is built shows in its listings only.** Paths in
another order are refused together. Otherwise the two namespaces have the same directories and files
and list the same children in another order; and every walk and every search ends in both of them with
the same entries in another order. -/
theorem Namespace.ofPaths_perm (cwd : Text) {paths paths' : List Text} (h : paths.Perm paths') :
    ((∃ e, Namespace.ofPaths cwd paths = .error e) ∧ ∃ e, Namespace.ofPaths cwd paths' = .error e) ∨
      ∃ s s', Namespace.ofPaths cwd paths = .ok s ∧ Namespace.ofPaths cwd paths' = .ok s' ∧
        (∀ path, s.provider.findDirectory path = s'.provider.findDirectory path ∧
          s.provider.findFile path = s'.provider.findFile path ∧
          (s.provider.children path).Perm (s'.provider.children path)) ∧
        ∀ (fs : Flags) (pattern : Text),
          (∃ es es', Yields s.provider (startJobs fs pattern) es ∧
            Yields s'.provider (startJobs fs pattern) es' ∧ es.Perm es') ∧
          ∃ es es', Yields s.provider (searchJobs fs pattern) es ∧
            Yields s'.provider (searchJobs fs pattern) es' ∧ es.Perm es' := by
  rcases Namespace.ofPaths_cases cwd paths with ⟨s, hs, hmeets⟩ | ⟨he, l, hfile, hdir⟩
  · rcases Namespace.ofPaths_cases cwd paths' with ⟨s', hs', hmeets'⟩ | ⟨-, l, hfile, hdir⟩
    · have hre := hmeets.rearranges (hmeets'.of_perm h.symm)
      have hwf := hmeets.isTree.descends_wellFounded
      refine .inr ⟨s, s', hs, hs', fun path => ⟨hre.findDirectory path, hre.findFile path,
        hre.children path⟩, fun fs pattern => ⟨?_, ?_⟩⟩
      · exact hre.exists_yields (ends_startJobs hwf fs pattern)
      · exact hre.exists_yields (ends_searchJobs hwf fs pattern)
    · -- what is in conflict in one order is so in the other one
      refine absurd ⟨l, ?_, ?_⟩ hmeets.not_conflicting
      · exact (demands_congr_of_perm h).2 hfile
      · exact (demands_congr_of_perm h).2 hdir
  · rcases Namespace.ofPaths_cases cwd paths' with ⟨s', -, hmeets'⟩ | ⟨he', -⟩
    · refine absurd ⟨l, ?_, ?_⟩ hmeets'.not_conflicting
      · exact (demands_congr_of_perm h).1 hfile
      · exact (demands_congr_of_perm h).1 hdir
    · exact .inl ⟨he, he'⟩

/-- Two files, in either order, are found by `*` in the order in which they were added; a file and
something below it are refused in either order. -/
theorem Namespace.ofPaths_swapped :
    (∃ s s', Namespace.ofPaths ['/'] [['b'], ['a']] = .ok s ∧
      Namespace.ofPaths ['/'] [['a'], ['b']] = .ok s' ∧
      Yields s.provider (searchJobs Flags.standard ['*'])
        [⟨"/b".toList, false⟩, ⟨"/a".toList, false⟩] ∧
      Yields s'.provider (searchJobs Flags.standard ['*'])
        [⟨"/a".toList, false⟩, ⟨"/b".toList, false⟩] ∧
      ∀ fs pattern, ∃ es es', Yields s.provider (searchJobs fs pattern) es ∧
        Yields s'.provider (searchJobs fs pattern) es' ∧ es.Perm es') ∧
    (∃ e, Namespace.ofPaths ['/'] ["a".toList, "a/b".toList] = .error e) ∧
      ∃ e, Namespace.ofPaths ['/'] ["a/b".toList, "a".toList] = .error e := by
  have hba : Namespace.ofPaths ['/'] [['b'], ['a']] =
      .ok ⟨[⟨[['b']], .file⟩, ⟨[['a']], .file⟩], []⟩ := rfl
  have hab : Namespace.ofPaths ['/'] [['a'], ['b']] =
      .ok ⟨[⟨[['a']], .file⟩, ⟨[['b']], .file⟩], []⟩ := rfl
  have hswap : [['b'], ['a']].Perm [['a'], ['b']] := by decide
  constructor
  · rcases Namespace.ofPaths_perm ['/'] hswap with ⟨⟨e, he⟩, -⟩ | ⟨s, s', hs, hs', -, hyields⟩
    · rw [hba] at he
      cases he
    · rw [hba] at hs
      rw [hab] at hs'
      cases hs
      cases hs'
      exact ⟨_, _, hba, hab, ⟨20, List.isEmpty_iff.1 (by decide +kernel), by decide +kernel⟩,
        ⟨20, List.isEmpty_iff.1 (by decide +kernel), by decide +kernel⟩,
        fun fs pattern => (hyields fs pattern).2⟩
  · have hswap' : ["a".toList, "a/b".toList].Perm ["a/b".toList, "a".toList] := by decide
    rcases Namespace.ofPaths_perm ['/'] hswap' with hrefused | ⟨s, s', hs, -⟩
    · exact hrefused
    · cases hs

end PathGlob
