import PathGlob.Proofs.Namespace.Tree
import PathGlob.Proofs.Names
import PathGlob.Proofs.Traversal.EscapeModes
import PathGlob.Proofs.Walk.FlagChanges

/-! # Hidden names
Where wildcards match hidden names, too, a search finds further entries. It finds none the less, and in
the same order, all that it finds where they do not.

* **`nameMatches_union_dotMatch`** — a segment matches no fewer names.
* **`Job.revealing`** — a job whose wildcards match hidden names.
* **`map_revealing_next`** — what follows from a job is among what follows from the job that reveals
  hidden names.
* **`search_without_dotMatch`** — the main statement. -/

namespace PathGlob

variable {ε : Type} {fs : Flags}

/-! ## Flags and names -/

/-- A flag that is added counts as if it had not been taken away before. -/
theorem Flags.union_without (fs : Flags) (f : Flag) :
    (fs.without f).union (.ofFlag f) = fs.union (.ofFlag f) := by
  have hbits : fs.bits.ldiff (Flags.ofFlag f).bits ||| (Flags.ofFlag f).bits =
      fs.bits ||| (Flags.ofFlag f).bits := by
    apply Nat.eq_of_testBit_eq
    intro i
    rw [Nat.testBit_or, Nat.testBit_or, Nat.testBit_ldiff]
    cases (Flags.ofFlag f).bits.testBit i <;> simp
  exact congrArg Flags.mk hbits

/-- Whether hidden names match has no part in the mode of escapes. -/
@[simp] theorem Flags.escapes_union_dotMatch (fs : Flags) :
    (fs.union (.ofFlag .dotMatch)).escapes = fs.escapes := by
  simp [Flags.escapes, Flags.has_ofFlag]

/-- **Where hidden names match, a segment matches no fewer names.** -/
theorem nameMatches_union_dotMatch {seg name : Text} (h : nameMatches fs seg name = true) :
    nameMatches (fs.union (.ofFlag .dotMatch)) seg name = true := by
  have hcompile : Segment.compile? (fs.union (.ofFlag .dotMatch)) seg = Segment.compile? fs seg := by
    rw [Segment.compile?, Segment.compile?, Flags.escapes_union_dotMatch]
  have haccepts : ∀ g : Segment, g.accepts (fs.union (.ofFlag .dotMatch)) name = g.accepts fs name :=
    fun g => congrFun (tokensAccept_congr (by simp [Flags.has_ofFlag]) (by simp [Flags.has_ofFlag])
      g.tokens) name
  cases hempty : seg.isEmpty with
  | true => simpa [nameMatches, NameMatcher.ofSegment, NameMatcher.accepts, hempty] using h
  | false =>
    cases hg : Segment.compile? fs seg with
    | none => simp [nameMatches, NameMatcher.ofSegment, NameMatcher.accepts, hempty, hg] at h
    | some g =>
      rw [nameMatches_of_compile? hempty hg] at h
      rw [nameMatches_of_compile? hempty (hcompile.trans hg), haccepts]
      -- only the test of the dot can refuse what the tokens accept
      split at h
      · cases h
      · simpa [Flags.has_ofFlag] using h

/-- Where hidden names match, no fewer segments are tried on the names of the directory itself and its
parent. -/
theorem triesSpecials_union_dotMatch {part : Part} (h : triesSpecials fs part = true) :
    triesSpecials (fs.union (.ofFlag .dotMatch)) part = true := by
  unfold triesSpecials at h ⊢
  rw [Bool.or_eq_true, Bool.and_eq_true] at h ⊢
  refine h.imp_right fun hlast => ⟨hlast.1, ?_⟩
  rw [Flags.has_union, hlast.2, Bool.true_or]

/-! ## Jobs -/

/-- The scope in which wildcards match hidden names. -/
def Scope.revealing (s : Scope) : Scope := s.underFlags (·.union (.ofFlag .dotMatch))

/-- **The job that does the same where wildcards match hidden names.** -/
def Job.revealing (t : Job ε) : Job ε := t.underFlags (·.union (.ofFlag .dotMatch))

section

variable (s : Scope) (base pattern path name : Text)

@[simp] theorem Scope.escapes_revealing : s.revealing.flags.escapes = s.flags.escapes :=
  s.flags.escapes_union_dotMatch

/-- The provider is asked for the same path. -/
@[simp] theorem Scope.queryPath_revealing : s.revealing.queryPath path = s.queryPath path :=
  s.queryPath_underFlags Flags.escapes_union_dotMatch path

/-- A listed name is written in the same way. -/
@[simp] theorem Scope.nameText_revealing : s.revealing.nameText name = s.nameText name :=
  s.nameText_underFlags Flags.escapes_union_dotMatch name

/-- Going on behind a part does the same. -/
@[simp] theorem revealing_continueAt (rest? : Option Text) :
    (continueAt s path rest? : Job ε).revealing = continueAt s.revealing path rest? :=
  (continueAt_underFlags _ s path rest?).symm

/-- For a listed name there are no fewer jobs. -/
theorem map_revealing_nameJobs :
    ((nameJobs s base pattern name : List (Job ε)).map Job.revealing).Sublist
      (nameJobs s.revealing base pattern name) := by
  unfold nameJobs
  rw [Scope.escapes_revealing, Scope.nameText_revealing]
  generalize Part.next s.flags.escapes pattern = part
  simp only
  split
  · rename_i hmatch
    have hmatch' : nameMatches s.revealing.flags part.text name = true :=
      nameMatches_union_dotMatch hmatch
    rw [if_pos hmatch', List.map_cons, revealing_continueAt]
    split <;> exact List.Sublist.refl _
  · exact List.nil_sublist _

/-- For the directory itself and its parent there are no fewer jobs. -/
theorem map_revealing_specialJobs :
    ((specialJobs s base pattern : List (Job ε)).map Job.revealing).Sublist
      (specialJobs s.revealing base pattern) := by
  unfold specialJobs
  rw [Scope.escapes_revealing]
  generalize Part.next s.flags.escapes pattern = part
  simp only
  split
  · rename_i htries
    have htries' : triesSpecials s.revealing.flags part = true :=
      triesSpecials_union_dotMatch htries
    rw [if_pos htries', List.map_map]
    have hnames : nameMatches s.flags part.text ≤ nameMatches s.revealing.flags part.text :=
      fun _ hm => nameMatches_union_dotMatch hm
    have hjobs : Job.revealing ∘ (fun name => (continueAt s (joinPath base name) part.rest? : Job ε)) =
        fun name => continueAt s.revealing (joinPath base name) part.rest? :=
      funext fun name => revealing_continueAt s _ part.rest?
    rw [hjobs]
    exact (List.monotone_filter_right _ hnames).map _
  · exact List.nil_sublist _

end

/-- The same is handed out. -/
theorem handsOut_revealing (p : Provider ε) (t : Job ε) : t.revealing.handsOut p = t.handsOut p := by
  cases t <;> rfl

/-- **What follows from a job is among what follows where wildcards match hidden names.** -/
theorem map_revealing_next (p : Provider ε) (t : Job ε) :
    ((t.next p).map Job.revealing).Sublist (t.revealing.next p) := by
  cases t with
  | enumerate s base pattern =>
    have hjob : (Job.enumerate s base pattern : Job ε).revealing =
        .enumerate s.revealing base pattern := rfl
    rw [hjob, Job.next_enumerate, Job.next_enumerate, Scope.queryPath_revealing, List.map_append,
      List.map_flatMap]
    refine List.Sublist.append ?_ (map_revealing_specialJobs s base pattern)
    -- the listing is the same, so the jobs are compared name by name
    generalize (p.children (s.queryPath base)).map p.entryName = names
    induction names with
    | nil => exact List.Sublist.refl _
    | cons name names ih =>
      rw [List.flatMap_cons, List.flatMap_cons]
      exact (map_revealing_nameJobs s base pattern name).append ih
  | _ =>
    -- the flags have no part in what follows from another job
    rw [Job.revealing, Job.next_underFlags Flags.escapes_union_dotMatch p (by simp)]
    exact List.Sublist.refl _

/-! ## Searches -/

/-- A walk begins with the same jobs. -/
theorem map_revealing_startJobs (fs : Flags) (pattern : Text) :
    (startJobs fs pattern : List (Job ε)).map Job.revealing =
      startJobs (fs.union (.ofFlag .dotMatch)) pattern :=
  (startJobs_underFlags Flags.escapes_union_dotMatch fs pattern).symm

/-- So does a search. -/
theorem map_revealing_searchJobs (fs : Flags) (pattern : Text) :
    (searchJobs fs pattern : List (Job ε)).map Job.revealing =
      searchJobs (fs.union (.ofFlag .dotMatch)) pattern :=
  (searchJobs_underFlags Flags.escapes_union_dotMatch fs pattern).symm

/-- **Where wildcards match hidden names, a search only finds more.** If the search with that flag ends,
so does the one without it, and what this one finds is, in the same order and as often, among what the
other one finds. The same holds of the walk of a single pattern without brace groups. -/
theorem search_without_dotMatch (p : Provider ε) (fs : Flags) (pattern : Text) (ms : List ε) :
    (Yields p (searchJobs (fs.union (.ofFlag .dotMatch)) pattern) ms →
      ∃ es, Yields p (searchJobs (fs.without .dotMatch) pattern) es ∧ es.Sublist ms) ∧
    (Yields p (startJobs (fs.union (.ofFlag .dotMatch)) pattern) ms →
      ∃ es, Yields p (startJobs (fs.without .dotMatch) pattern) es ∧ es.Sublist ms) := by
  have hwalk : ∀ ts us : List (Job ε), ts.map Job.revealing = us → Yields p us ms →
      ∃ es, Yields p ts es ∧ es.Sublist ms := by
    rintro ts us rfl hms
    exact hms.exists_of_sublist (handsOut_revealing p) (map_revealing_next p) (List.Sublist.refl _)
  constructor
  · exact hwalk _ _ (by rw [map_revealing_searchJobs, Flags.union_without])
  · exact hwalk _ _ (by rw [map_revealing_startJobs, Flags.union_without])

/-- In the small namespace `{*,x}` finds the file twice. Where wildcards match hidden names, `*` finds
the directory itself and its parent, too. -/
theorem Namespace.small_search_without_dotMatch :
    Yields Namespace.small.provider
        (searchJobs (Flags.empty.union (.ofFlag .dotMatch)) "\x7b*,x\x7d".toList)
        [⟨"/d/x".toList, false⟩, ⟨"/d".toList, true⟩, ⟨"/".toList, true⟩, ⟨"/d/x".toList, false⟩] ∧
      Yields Namespace.small.provider
        (searchJobs (Flags.empty.without .dotMatch) "\x7b*,x\x7d".toList)
        [⟨"/d/x".toList, false⟩, ⟨"/d/x".toList, false⟩] ∧
      [(⟨"/d/x".toList, false⟩ : Entry), ⟨"/d/x".toList, false⟩].Sublist
        [⟨"/d/x".toList, false⟩, ⟨"/d".toList, true⟩, ⟨"/".toList, true⟩, ⟨"/d/x".toList, false⟩] := by
  have hmore : Yields Namespace.small.provider
      (searchJobs (Flags.empty.union (.ofFlag .dotMatch)) "\x7b*,x\x7d".toList)
      [⟨"/d/x".toList, false⟩, ⟨"/d".toList, true⟩, ⟨"/".toList, true⟩, ⟨"/d/x".toList, false⟩] :=
    ⟨13, rfl, rfl⟩
  have hempty : Flags.empty.without .dotMatch = Flags.empty :=
    congrArg Flags.mk (Nat.eq_of_testBit_eq fun i => by simp [Flags.empty, Nat.testBit_ldiff])
  obtain ⟨es, hes, hsub⟩ := (search_without_dotMatch _ Flags.empty _ _).1 hmore
  have hfewer : Yields Namespace.small.provider
      (searchJobs (Flags.empty.without .dotMatch) "\x7b*,x\x7d".toList)
      [⟨"/d/x".toList, false⟩, ⟨"/d/x".toList, false⟩] := by
    rw [hempty]
    exact ⟨9, rfl, rfl⟩
  rw [hes.unique hfewer] at hsub
  exact ⟨hmore, hfewer, hsub⟩

end PathGlob
