import Mathlib.Data.Nat.Bitwise
import PathGlob.Proofs.Braces.Alternatives
import PathGlob.Proofs.Parts
import PathGlob.Proofs.Walk.Simulation
import PathGlob.Search

/-! # Patterns without a backslash
To a pattern without a backslash it makes no difference whether the backslash escapes. With escapes,
listed names are written with backslashes into the path of the walk, and these are removed before the
provider is asked; without them the names stand there as they are. The two walks go in step.

* **`Flags.SameBut`** — flags that differ in a single switch at most.
* **`nameMatches_congr`**, **`Part.next_congr`** — the switch makes no difference to names and parts.
* **`SamePath`** — paths of the two walks that mean the same; **`Job.Alike`** — jobs that do.
* **`inStep_alike`** — the walks go in step.
* **`search_without_backslash`** — the main statement. -/

namespace PathGlob

variable {ε : Type} {fs gs : Flags}

/-! ## Flags that differ in a switch -/

/-- The flags without a switch. -/
def Flags.without (fs : Flags) (f : Flag) : Flags := ⟨fs.bits.ldiff (Flags.ofFlag f).bits⟩

/-- Only the flag itself is in the set of one flag. -/
theorem Flags.has_ofFlag (f g : Flag) : (Flags.ofFlag f).has g = decide (f = g) := by
  cases f <;> cases g <;> rfl

/-- Only the switch itself is taken away. -/
theorem Flags.has_without (fs : Flags) (f g : Flag) :
    (fs.without f).has g = (fs.has g && !decide (f = g)) := by
  rw [← Flags.has_ofFlag f g]
  exact Nat.testBit_ldiff fs.bits (Flags.ofFlag f).bits g.place

/-- **Flags that differ in a single switch at most.** -/
def Flags.SameBut (f : Flag) (fs gs : Flags) : Prop := ∀ g, g ≠ f → fs.has g = gs.has g

/-- Flags with a switch and without it. -/
theorem Flags.sameBut_union_without (fs : Flags) (f : Flag) :
    Flags.SameBut f (fs.union (.ofFlag f)) (fs.without f) := by
  intro g hg
  rw [Flags.has_union, Flags.has_without, Flags.has_ofFlag, decide_eq_false (Ne.symm hg)]
  simp

/-! ## Names -/

/-- Without a backslash the members and tokens of a segment are the same in both modes. -/
theorem readRest?_congr {t : Text} (h : '\\' ∉ t) (e e' : Bool) (b : Option Bracket) :
    readRest? e b t = readRest? e' b t := by
  induction t generalizing b with
  | nil => rw [readRest?, readRest?]
  | cons c r ih =>
    rw [List.mem_cons, not_or] at h
    have hplain : ∀ e, (e && c == '\\') = false := fun e => by simp [Ne.symm h.1]
    rw [readRest?.eq_def, readRest?.eq_def]
    simp only [hplain, Bool.false_eq_true, if_false, ih h.2]

/-- Tokens take the same names if stars and letters mean the same. -/
theorem tokensAccept_congr (hpath : fs.has .pathName = gs.has .pathName)
    (hcase : fs.has .ignoreCase = gs.has .ignoreCase) (ts : List Token) :
    tokensAccept fs ts = tokensAccept gs ts := by
  have hrun : fs.inRun = gs.inRun := by
    funext c
    rw [Flags.inRun, Flags.inRun, hpath]
  induction ts with
  | nil =>
    funext name
    rw [tokensAccept_nil, tokensAccept_nil]
  | cons t ts ih =>
    funext name
    cases t <;> simp only [tokensAccept, hrun, hcase, ih]

/-- **Without a backslash a segment matches the same names in both modes.** -/
theorem nameMatches_congr (h : Flags.SameBut .noEscape fs gs) {seg : Text} (hb : '\\' ∉ seg)
    (name : Text) : nameMatches fs seg name = nameMatches gs seg name := by
  have hcompile : Segment.compile? fs seg = Segment.compile? gs seg := by
    rw [Segment.compile?, Segment.compile?, readTokens?, readTokens?,
      readRest?_congr hb fs.escapes gs.escapes]
  have haccepts : ∀ g : Segment, g.accepts fs name = g.accepts gs name := fun g =>
    congrFun (tokensAccept_congr (h .pathName (by decide)) (h .ignoreCase (by decide)) g.tokens) name
  unfold nameMatches NameMatcher.ofSegment NameMatcher.accepts
  simp only [hcompile, haccepts, h .dotMatch (by decide)]

/-! ## Parts -/

/-- Without a backslash every character has its own mark. -/
theorem marks_of_not_mem {t : Text} (h : '\\' ∉ t) (e : Bool) : marks e t = t.map Mark.ofChar := by
  induction t with
  | nil => rfl
  | cons c t ih =>
    rw [List.mem_cons, not_or] at h
    rw [marks_cons_of_ne (Ne.symm h.1), ih h.2, List.map_cons]

/-- **Without a backslash the next part is the same in both modes.** -/
theorem Part.next_congr {t : Text} (h : '\\' ∉ t) (e e' : Bool) : Part.next e t = Part.next e' t := by
  rw [Part.next, Part.next, marks_of_not_mem h e, marks_of_not_mem h e']

/-! ## Paths -/

/-- Scopes that differ in the mode of escapes at most. -/
structure Scope.Alike (s t : Scope) : Prop where
  /-- The flags are the same but for the escapes. -/
  flags : Flags.SameBut .noEscape s.flags t.flags
  /-- The same entries are wanted. -/
  directoriesOnly : s.directoriesOnly = t.directoriesOnly
  /-- The walks start at the same place. -/
  relative : s.relative = t.relative

/-- **Paths of two walks that mean the same**: the provider is asked for the same path, and what is
joined to them keeps its meaning. -/
structure SamePath (s t : Scope) (b b' : Text) : Prop where
  /-- The provider is asked for the same path. -/
  query : s.queryPath b = t.queryPath b'
  /-- The path of the first walk does not end inside an escape. -/
  left : s.flags.Whole b
  /-- Neither does that of the second one. -/
  right : t.flags.Whole b'

section

variable {s t : Scope} {b b' : Text}

/-- A path without a backslash means the same in both walks. -/
theorem SamePath.of_not_mem (h : '\\' ∉ b) : SamePath s t b b where
  query := by
    rw [Scope.queryPath_eq, Scope.queryPath_eq, Flags.plainText_of_not_mem h,
      Flags.plainText_of_not_mem h]
  left := .of_not_mem h
  right := .of_not_mem h

/-- **Paths that mean the same are joined to such paths.** -/
theorem SamePath.joinPath {u v : Text} (h : SamePath s t b b') (huv : SamePath s t u v) :
    SamePath s t (PathGlob.joinPath b u) (PathGlob.joinPath b' v) where
  query := by
    have hb := h.query
    have hu := huv.query
    rw [Scope.queryPath_eq, Scope.queryPath_eq] at hb hu ⊢
    rw [h.left.plainText_joinPath, h.right.plainText_joinPath, hb, hu]
  left := h.left.joinPath huv.left
  right := h.right.joinPath huv.right

/-- A listed name means the same in both walks, however it is written. -/
theorem samePath_nameText (s t : Scope) (name : Text) :
    SamePath s t (s.nameText name) (t.nameText name) where
  query := by
    rw [Scope.queryPath_eq, Scope.queryPath_eq, s.plainText_nameText, t.plainText_nameText]
  left := s.whole_nameText name
  right := t.whole_nameText name

/-- The same path is tested. -/
theorem SamePath.candidatePath_eq (h : SamePath s t b b') (hst : s.Alike t) :
    s.candidatePath b = t.candidatePath b' := by
  unfold Scope.candidatePath
  rw [h.query, hst.relative]

end

/-! ## Jobs -/

/-- **Jobs of two walks that do the same**, for paths that mean the same. -/
inductive Job.Alike : Job ε → Job ε → Prop
  /-- The visits of a directory. -/
  | visit {s t : Scope} {b b' pattern : Text} {again : Bool} (hst : s.Alike t)
    (hb : SamePath s t b b') (hp : '\\' ∉ pattern) :
    Alike (.visit s b pattern again) (.visit t b' pattern again)
  /-- The listings of a directory. -/
  | enumerate {s t : Scope} {b b' pattern : Text} (hst : s.Alike t)
    (hb : SamePath s t b b') (hp : '\\' ∉ pattern) :
    Alike (.enumerate s b pattern) (.enumerate t b' pattern)
  /-- The tests of a path. -/
  | candidate {s t : Scope} {b b' : Text} (hst : s.Alike t) (hb : SamePath s t b b') :
    Alike (.candidate s b) (.candidate t b')
  /-- The same test for a file. -/
  | tryFile (path : Text) : Alike (.tryFile path) (.tryFile path)
  /-- The same entry that is ready. -/
  | deliver (e : ε) : Alike (.deliver e) (.deliver e)
  /-- Notes. -/
  | report (n n' : Note) : Alike (.report n) (.report n')

section

variable {s t : Scope} {b b' pattern : Text} {p : Provider ε}

/-- Going on behind a part does the same. -/
theorem alike_continueAt (hst : s.Alike t) (hb : SamePath s t b b') {rest? : Option Text}
    (hr : ∀ r, rest? = some r → '\\' ∉ r) :
    Job.Alike (continueAt s b rest? : Job ε) (continueAt t b' rest?) := by
  cases rest? with
  | none => exact .candidate hst hb
  | some r => exact .visit hst hb (hr r rfl)

/-- The jobs in a directory do the same. -/
theorem forall₂_visitJobs (hst : s.Alike t) (hb : SamePath s t b b') (hp : '\\' ∉ pattern)
    (again : Bool) :
    List.Forall₂ Job.Alike (visitJobs s b pattern again : List (Job ε))
      (visitJobs t b' pattern again) := by
  obtain ⟨htext, hrest⟩ := Part.not_mem hp s.flags.escapes
  unfold visitJobs
  rw [Part.next_congr hp t.flags.escapes s.flags.escapes]
  generalize Part.next s.flags.escapes pattern = part at hrest htext
  by_cases hw : part.wild = true
  · simp only [hw, if_true]
    have hlist : List.Forall₂ Job.Alike [(.enumerate s b pattern : Job ε)] [.enumerate t b' pattern] :=
      .cons (.enumerate hst hb hp) .nil
    refine List.rel_append ?_ hlist
    by_cases hzero : part.text = doubleStar ∧ ¬again = true
    · rw [if_pos hzero, if_pos hzero]
      refine .cons (.visit hst hb ?_) .nil
      cases hr : part.rest? with
      | none => simp
      | some r => exact hrest r hr
    · rw [if_neg hzero, if_neg hzero]
      exact .nil
  · simp only [hw, Bool.false_eq_true, if_false]
    exact .cons (alike_continueAt hst (hb.joinPath (.of_not_mem htext)) hrest) .nil

/-- The jobs for a listed name do the same. -/
theorem forall₂_nameJobs (hst : s.Alike t) (hb : SamePath s t b b') (hp : '\\' ∉ pattern)
    (name : Text) :
    List.Forall₂ Job.Alike (nameJobs s b pattern name : List (Job ε))
      (nameJobs t b' pattern name) := by
  obtain ⟨htext, hrest⟩ := Part.not_mem hp s.flags.escapes
  have hpath := hb.joinPath (samePath_nameText s t name)
  unfold nameJobs
  rw [Part.next_congr hp t.flags.escapes s.flags.escapes]
  generalize Part.next s.flags.escapes pattern = part at hrest htext
  simp only [nameMatches_congr hst.flags htext]
  split
  · refine .cons (alike_continueAt hst hpath hrest) ?_
    split
    · exact .cons (.visit hst hpath hp) .nil
    · exact .nil
  · exact .nil

/-- The same names of the directory itself and its parent are tried. -/
theorem forall₂_specialJobs (hst : s.Alike t) (hb : SamePath s t b b') (hp : '\\' ∉ pattern) :
    List.Forall₂ Job.Alike (specialJobs s b pattern : List (Job ε)) (specialJobs t b' pattern) := by
  obtain ⟨htext, hrest⟩ := Part.not_mem hp s.flags.escapes
  unfold specialJobs
  rw [Part.next_congr hp t.flags.escapes s.flags.escapes]
  generalize Part.next s.flags.escapes pattern = part at hrest htext
  have htries : triesSpecials s.flags part = triesSpecials t.flags part := by
    rw [triesSpecials, triesSpecials, hst.flags .dotMatch (by decide)]
  have hmatches : nameMatches s.flags part.text = nameMatches t.flags part.text :=
    funext (nameMatches_congr hst.flags htext)
  simp only [htries, hmatches]
  split
  · rw [List.forall₂_map_left_iff, List.forall₂_map_right_iff, List.forall₂_same]
    intro name hname
    have hb' := (not_mem_of_mem_references (List.mem_of_mem_filter hname)).2
    exact alike_continueAt hst (hb.joinPath (.of_not_mem hb')) hrest
  · exact .nil

/-- **Walks whose jobs do the same go in step.** -/
theorem inStep_alike (p : Provider ε) : InStep p p Job.Alike where
  events {t u} h := by
    cases h with
    | visit hst hb hp => rw [Job.events_visit, Job.events_visit, hb.query]
    | enumerate hst hb hp =>
      -- the notes show the paths as they are written
      rw [Job.events_enumerate, Job.events_enumerate, hb.query]
      rfl
    | candidate hst hb =>
      rw [Job.events_candidate, Job.events_candidate, hb.candidatePath_eq hst]
    | tryFile path => rfl
    | deliver e => rfl
    | report n n' => rfl
  next {t u} h := by
    cases h with
    | @visit s t b b' pattern again hst hb hp =>
      rw [Job.next_visit, Job.next_visit, hb.query]
      split
      · exact forall₂_visitJobs hst hb hp again
      · exact .nil
    | @enumerate s t b b' pattern hst hb hp =>
      rw [Job.next_enumerate, Job.next_enumerate, hb.query]
      exact List.rel_append (forall₂_flatMap fun name _ => forall₂_nameJobs hst hb hp name)
        (forall₂_specialJobs hst hb hp)
    | @candidate s t b b' hst hb =>
      have hpath := hb.candidatePath_eq hst
      cases hd : p.findDirectory (s.candidatePath b) with
      | some e =>
        rw [Job.next_candidate_of_some hd, Job.next_candidate_of_some (hpath ▸ hd)]
        exact .cons (.deliver e) .nil
      | none =>
        rw [Job.next_candidate_of_none hd, Job.next_candidate_of_none (hpath ▸ hd),
          hst.directoriesOnly, hpath]
        split
        · exact .nil
        · exact .cons (.tryFile _) .nil
    | tryFile path =>
      rw [Job.next_tryFile, List.forall₂_map_left_iff, List.forall₂_map_right_iff, List.forall₂_same]
      exact fun e _ => .deliver e
    | deliver e => exact .nil
    | report n n' => exact .nil

end

/-! ## Searches -/

/-- The walks of a pattern without a backslash begin with jobs that do the same. -/
theorem forall₂_startJobs (h : Flags.SameBut .noEscape fs gs) {pattern : Text} (hp : '\\' ∉ pattern) :
    List.Forall₂ Job.Alike (startJobs fs pattern : List (Job ε)) (startJobs gs pattern) := by
  have hq : '\\' ∉ walkedPattern pattern := by
    unfold walkedPattern
    split
    · decide
    · exact hp
  have hdot : '\\' ∉ currentDirectory := by decide
  unfold startJobs
  generalize walkedPattern pattern = q at hq
  have hst : ∀ relative, Scope.Alike ⟨fs, endsIn '/' q, relative⟩ ⟨gs, endsIn '/' q, relative⟩ :=
    fun _ => ⟨h, rfl, rfl⟩
  simp only [marks_of_not_mem hq]
  split
  · exact .nil
  · split
    · split
      · exact .cons (.candidate (hst false) (.of_not_mem hq)) .nil
      · split
        · exact .cons (.visit (hst true) (.of_not_mem hdot) hq) .nil
        · exact .cons (.visit (hst false) (.of_not_mem fun hmem => hq (List.mem_of_mem_take hmem))
            fun hmem => hq (List.mem_of_mem_drop hmem)) .nil
    · exact .cons (.visit (hst true) (.of_not_mem hdot) hq) .nil

/-- So do its searches. -/
theorem forall₂_searchJobs (h : Flags.SameBut .noEscape fs gs) {pattern : Text}
    (hp : '\\' ∉ pattern) :
    List.Forall₂ Job.Alike (searchJobs fs pattern : List (Job ε)) (searchJobs gs pattern) := by
  have hexpand : expandBraces fs.escapes pattern = expandBraces gs.escapes pattern :=
    expandBraces_congr (by rw [braceTokens_of_not_mem hp, braceTokens_of_not_mem hp])
  have halternatives : ∀ alternative ∈ expandBraces gs.escapes pattern, '\\' ∉ alternative :=
    fun _ hmem hb => hp (mem_of_mem_expandBraces hmem hb)
  unfold searchJobs
  rw [hexpand]
  generalize expandBraces gs.escapes pattern = alternatives at halternatives
  split
  · exact .nil
  · cases alternatives with
    | nil => exact .cons (.report _ _) .nil
    | cons first more =>
      exact forall₂_flatMap fun alternative hmem => forall₂_startJobs h (halternatives _ hmem)

/-- **To a pattern without a backslash it makes no difference whether the backslash escapes.** With the
flag and without it, the search asks the same questions and hands out the same entries in the same
order, however long it runs; and it ends with the same outcome, if it ends. -/
theorem search_without_backslash {pattern : Text} (hp : '\\' ∉ pattern) (fs : Flags)
    (p : Provider ε) :
    (∀ n, exchanges (runWithin p n (searchJobs (fs.union (.ofFlag .noEscape)) pattern)).1 =
        exchanges (runWithin p n (searchJobs (fs.without .noEscape) pattern)).1 ∧
      ((runWithin p n (searchJobs (fs.union (.ofFlag .noEscape)) pattern)).2 = [] ↔
        (runWithin p n (searchJobs (fs.without .noEscape) pattern)).2 = [])) ∧
    ∀ es, Yields p (searchJobs (fs.union (.ofFlag .noEscape)) pattern) es ↔
      Yields p (searchJobs (fs.without .noEscape) pattern) es := by
  have hjobs := forall₂_searchJobs (ε := ε) (Flags.sameBut_union_without fs .noEscape) hp
  constructor
  · intro n
    obtain ⟨hevents, hrest⟩ := (inStep_alike p).runWithin hjobs n
    refine ⟨hevents, ?_⟩
    rw [← List.length_eq_zero_iff, hrest.length_eq, List.length_eq_zero_iff]
  · exact (inStep_alike p).yields_iff hjobs

/-- A hierarchy with a single file, in a directory whose name has a star and a backslash. -/
def awkward : Provider Text where
  pathOf := id
  findDirectory path := if path ∈ [['.'], "./a*\\b".toList] then some path else none
  findFile path := if path = "a*\\b/x".toList then some path else none
  children path :=
    if path = ['.'] then ["a*\\b".toList]
    else if path = "./a*\\b".toList then ["x".toList] else []

/-- In that hierarchy `*/x` finds the file in both modes. -/
theorem awkward_search_without_backslash :
    '\\' ∉ "*/x".toList ∧
      Yields awkward (searchJobs (Flags.standard.union (.ofFlag .noEscape)) "*/x".toList)
        ["a*\\b/x".toList] ∧
      Yields awkward (searchJobs (Flags.standard.without .noEscape) "*/x".toList)
        ["a*\\b/x".toList] := by
  have hp : '\\' ∉ "*/x".toList := by decide
  have hraw : Yields awkward (searchJobs (Flags.standard.union (.ofFlag .noEscape)) "*/x".toList)
      ["a*\\b/x".toList] := ⟨9, rfl, rfl⟩
  exact ⟨hp, hraw, ((search_without_backslash hp Flags.standard awkward).2 _).1 hraw⟩

end PathGlob
