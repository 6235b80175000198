import PathGlob.FileSystem
import PathGlob.Proofs.FileSystem.Paths
import PathGlob.Proofs.Names
import PathGlob.Proofs.Namespace.Tree
import PathGlob.Proofs.Traversal.EscapeModes
import PathGlob.Proofs.Walk.FlagChanges

/-! # Stars and separators
Whether a star matches a separator is told by a switch, but a walk tries its segments on names, and a
name has no separator. So the switch makes no difference to a walk: at every moment it has the same jobs
left, and it asks the same questions and hands out the same entries.

* **`Provider.ListsNames`** — a provider whose listed names have no separator.
* **`nameMatches_without_pathName`** — the switch makes no difference to such a name.
* **`Job.next_without_pathName`** — nor does it to what follows from a job.
* **`search_pathName`** — the main statement. -/

namespace PathGlob

variable {ε : Type} {p : Provider ε}

/-! ## Names without a separator -/

/-- **A provider whose listed names have no separator.** -/
def Provider.ListsNames (p : Provider ε) : Prop := ∀ path, ∀ x ∈ p.children path, '/' ∉ p.entryName x

/-- Where the name of an entry is the last name of its path, it has no separator. -/
theorem Provider.listsNames_of_lastName (h : ∀ x, p.entryName x = lastName (p.pathOf x)) :
    p.ListsNames := by
  intro path x _
  rw [h]
  exact slash_not_mem_lastName _

/-- Nor has a name in a file system. -/
theorem FileSystem.listsNames (s : FileSystem) : s.provider.ListsNames := by
  intro path x _
  show '/' ∉ (plainNames x).getLast?.getD []
  cases hlast : (plainNames x).getLast? with
  | none => exact List.not_mem_nil
  | some name => exact slash_not_mem_of_mem_plainNames (List.mem_of_getLast? hlast)

/-! ## The switch -/

/-- A flag that is taken away counts as if it had not been added before. -/
theorem Flags.without_union (fs : Flags) (f : Flag) :
    (fs.union (.ofFlag f)).without f = fs.without f := by
  have hbits : (fs.bits ||| (Flags.ofFlag f).bits).ldiff (Flags.ofFlag f).bits =
      fs.bits.ldiff (Flags.ofFlag f).bits := by
    apply Nat.eq_of_testBit_eq
    intro i
    rw [Nat.testBit_ldiff, Nat.testBit_ldiff, Nat.testBit_or]
    cases (Flags.ofFlag f).bits.testBit i <;> simp
  exact congrArg Flags.mk hbits

/-- The meaning of stars has no part in the mode of escapes. -/
@[simp] theorem Flags.escapes_without_pathName (fs : Flags) :
    (fs.without .pathName).escapes = fs.escapes := by
  simp [Flags.escapes, Flags.has_without]

/-- Every character but a separator belongs to a run. -/
theorem Flags.inRun_of_ne (fs : Flags) {c : Char} (h : c ≠ '/') : fs.inRun c = true := by
  simp [Flags.inRun, h]

/-- **To a name without a separator it makes no difference whether stars match separators.** -/
theorem nameMatches_without_pathName (fs : Flags) (seg : Text) {name : Text} (h : '/' ∉ name) :
    nameMatches (fs.without .pathName) seg name = nameMatches fs seg name := by
  have hsame : ∀ f, f ≠ .pathName → (fs.without .pathName).has f = fs.has f := fun f hf => by
    simp [Flags.has_without, Ne.symm hf]
  have hcompile : Segment.compile? (fs.without .pathName) seg = Segment.compile? fs seg := by
    rw [Segment.compile?, Segment.compile?, Flags.escapes_without_pathName]
  -- the name is compared with itself, character by character
  have hself : List.Forall₂ (fun a b => a = b ∧ a ≠ '/') name name :=
    List.forall₂_same.2 fun c hc => ⟨rfl, fun he => h (he ▸ hc)⟩
  have haccepts : ∀ g : Segment, g.accepts (fs.without .pathName) name = g.accepts fs name := by
    intro g
    refine tokensAccept_related ?_ ?_ g.tokens hself
    · rintro a _ ⟨rfl, ha⟩
      rw [Flags.inRun_of_ne _ ha, Flags.inRun_of_ne _ ha]
    · rintro t a _ ⟨rfl, -⟩
      rw [hsame .ignoreCase (by decide)]
  unfold nameMatches NameMatcher.ofSegment NameMatcher.accepts
  simp only [hcompile, haccepts, hsame .dotMatch (by decide)]

/-- A name that has a separator would be told apart. -/
example : nameMatches (.ofFlag .pathName) ['*'] ['a', '/', 'b'] = false ∧
    nameMatches .empty ['*'] ['a', '/', 'b'] = true := by
  decide +kernel

/-! ## Jobs -/

section

variable (s : Scope) (base pattern : Text)

/-- For a name without a separator there are the same jobs. -/
theorem nameJobs_without_pathName {name : Text} (h : '/' ∉ name) :
    (nameJobs (s.underFlags (·.without .pathName)) base pattern name : List (Job ε)) =
      (nameJobs s base pattern name).map (.underFlags (·.without .pathName)) := by
  have hmatch : ∀ seg, nameMatches (s.underFlags (·.without .pathName)).flags seg name =
      nameMatches s.flags seg name := fun seg => nameMatches_without_pathName s.flags seg h
  unfold nameJobs
  rw [s.next_underFlags Flags.escapes_without_pathName,
    s.nameText_underFlags Flags.escapes_without_pathName]
  generalize Part.next s.flags.escapes pattern = part
  simp only [hmatch]
  split
  · rw [List.map_cons, continueAt_underFlags]
    split <;> rfl
  · rfl

/-- For the directory itself and its parent there are the same jobs: their names are dots. -/
theorem specialJobs_without_pathName :
    (specialJobs (s.underFlags (·.without .pathName)) base pattern : List (Job ε)) =
      (specialJobs s base pattern).map (.underFlags (·.without .pathName)) := by
  have hdot : (s.underFlags (·.without .pathName)).flags.has .dotMatch = s.flags.has .dotMatch := by
    simp [Scope.underFlags, Flags.has_without]
  unfold specialJobs triesSpecials
  rw [s.next_underFlags Flags.escapes_without_pathName, hdot]
  generalize Part.next s.flags.escapes pattern = part
  have hfilter : [currentDirectory, parentDirectory].filter
      (nameMatches (s.underFlags (·.without .pathName)).flags part.text) =
        [currentDirectory, parentDirectory].filter (nameMatches s.flags part.text) :=
    List.filter_congr fun name hname =>
      nameMatches_without_pathName s.flags part.text (not_mem_of_mem_references hname).1
  simp only [hfilter]
  split
  · simp [continueAt_underFlags, Function.comp_def]
  · rfl

end

/-- **The same follows from a turn**, if the listed names have no separator. -/
theorem Job.next_without_pathName (hp : p.ListsNames) (t : Job ε) :
    (t.underFlags (·.without .pathName)).next p =
      (t.next p).map (.underFlags (·.without .pathName)) := by
  cases t with
  | enumerate s base pattern =>
    have hnames : ∀ name ∈ (p.children (s.queryPath base)).map p.entryName, '/' ∉ name := by
      intro name hname
      obtain ⟨x, hx, rfl⟩ := List.mem_map.1 hname
      exact hp _ x hx
    rw [Job.underFlags, Job.next_enumerate, Job.next_enumerate,
      s.queryPath_underFlags Flags.escapes_without_pathName, List.map_append, List.map_flatMap,
      specialJobs_without_pathName,
      List.flatMap_congr fun name hname => nameJobs_without_pathName s base pattern (hnames name hname)]
  | _ => exact Job.next_underFlags Flags.escapes_without_pathName p (by simp)

/-! ## Searches -/

/-- **Whether stars match separators makes no difference to a search** under a provider whose listed
names have no separator. With the switch and without it the search does the same after any number of
steps, and has the same jobs left up to the switch itself; so it finds the same entries. Providers whose
names are the last names of their paths, and file systems, are of this kind. -/
theorem search_pathName :
    (∀ p : Provider ε, p.ListsNames → ∀ (fs : Flags) (pattern : Text),
      (∀ n, runWithin p n (searchJobs (fs.without .pathName) pattern) =
        ((runWithin p n (searchJobs (fs.union (.ofFlag .pathName)) pattern)).1,
          (runWithin p n (searchJobs (fs.union (.ofFlag .pathName)) pattern)).2.map
            (.underFlags (·.without .pathName)))) ∧
      ∀ es, Yields p (searchJobs (fs.union (.ofFlag .pathName)) pattern) es ↔
        Yields p (searchJobs (fs.without .pathName) pattern) es) ∧
    (∀ p : Provider ε, (∀ x, p.entryName x = lastName (p.pathOf x)) → p.ListsNames) ∧
    ∀ s : FileSystem, s.provider.ListsNames := by
  refine ⟨fun p hp fs pattern => ?_, fun _ => Provider.listsNames_of_lastName, FileSystem.listsNames⟩
  have hjobs : (searchJobs (fs.without .pathName) pattern : List (Job ε)) =
      (searchJobs (fs.union (.ofFlag .pathName)) pattern).map (.underFlags (·.without .pathName)) := by
    rw [← searchJobs_underFlags Flags.escapes_without_pathName, Flags.without_union]
  have hrun := runWithin_map (Job.events_underFlags Flags.escapes_without_pathName p)
    (Job.next_without_pathName hp)
  rw [hjobs]
  refine ⟨fun n => hrun n _, fun es => ?_⟩
  unfold Yields
  simp only [hrun, List.map_eq_nil_iff]

/-- In the small namespace `{**/?,.*}` finds the file, the directory itself and its parent, with the
switch and without it. -/
theorem Namespace.small_search_pathName :
    Namespace.small.provider.ListsNames ∧
      Yields Namespace.small.provider
        (searchJobs (Flags.empty.union (.ofFlag .pathName)) "\x7b**/?,.*\x7d".toList)
        [⟨"/d/x".toList, false⟩, ⟨"/d".toList, true⟩, ⟨"/".toList, true⟩] ∧
      Yields Namespace.small.provider
        (searchJobs (Flags.empty.without .pathName) "\x7b**/?,.*\x7d".toList)
        [⟨"/d/x".toList, false⟩, ⟨"/d".toList, true⟩, ⟨"/".toList, true⟩] := by
  obtain ⟨hsearch, hlast, -⟩ := search_pathName (ε := Entry)
  have hnames : Namespace.small.provider.ListsNames := hlast _ fun _ => rfl
  have hwith : Yields Namespace.small.provider
      (searchJobs (Flags.empty.union (.ofFlag .pathName)) "\x7b**/?,.*\x7d".toList)
      [⟨"/d/x".toList, false⟩, ⟨"/d".toList, true⟩, ⟨"/".toList, true⟩] :=
    ⟨15, by decide +kernel, by decide +kernel⟩
  exact ⟨hnames, hwith, ((hsearch _ hnames Flags.empty _).2 _).1 hwith⟩

end PathGlob
